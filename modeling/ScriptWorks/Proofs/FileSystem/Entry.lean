import ScriptWorks.Proofs.FileSystem.Lawful
import ScriptWorks.Proofs.Path.Anchor
import ScriptWorks.Proofs.Path.Extension

/-!
# Entries that are written to

The names of a path lead where its components lead. A file is moved to the entry under the last name of
its path; there is none if the path ends in a slash, in `.` or in `..`.
-/

namespace ScriptWorks

namespace Disk

variable {d d' : Disk} {cwd l m : Location} {p : Path}

/-! ## Walks -/

/-- One name of a walk that meets no link. -/
def walkStep (l : Location) (name : String) : Location :=
  if name = "." then l else if name = ".." then l.dropLast else l ++ [name]

theorem foldl_pieces (l : Location) (pieces : List (List Char)) :
    ((pieces.map String.ofList).filter (· ≠ "")).foldl walkStep l =
      (pieces.filterMap Path.component?).foldl Path.resolveStep l := by
  induction pieces generalizing l with
  | nil => rfl
  | cons x pieces ih =>
      by_cases hnil : x = []
      · subst hnil
        have hnone : Path.component? [] = none := rfl
        simpa [hnone] using ih l
      have hne : String.ofList x ≠ "" := by simpa [String.ofList_eq_empty_iff] using hnil
      rw [List.map_cons, List.filter_cons_of_pos (by simpa using hne), List.foldl_cons]
      by_cases hhere : x = ['.']
      · subst hhere
        have hnone : Path.component? ['.'] = none := rfl
        have hstep : walkStep l (String.ofList ['.']) = l := rfl
        rw [hstep, List.filterMap_cons_none hnone, ih]
      have hloud : Path.isSilent x = false := by simp [Path.isSilent, hnil, hhere]
      have hdot : String.ofList x ≠ "." := fun h =>
        hhere (String.ofList_inj.mp (h.trans (String.ofList_toList (s := ".")).symm))
      by_cases hup : x = ['.', '.']
      · subst hup
        have hsome : Path.component? ['.', '.'] = some .parent := rfl
        have hstep : walkStep l (String.ofList ['.', '.']) = l.dropLast := rfl
        rw [hstep, List.filterMap_cons_some hsome, ih]
        rfl
      · have hsome : Path.component? x = some (.name (String.ofList x)) := by
          simp [Path.component?, hloud, hup]
        have hdots : String.ofList x ≠ ".." := fun h =>
          hup (String.ofList_inj.mp (h.trans (String.ofList_toList (s := "..")).symm))
        rw [List.filterMap_cons_some hsome, List.foldl_cons, walkStep, if_neg hdot, if_neg hdots, ih]
        rfl

/-- The names of a path lead where its components lead. -/
theorem foldl_pathNames (cwd : Location) (p : Path) :
    (pathNames p).foldl walkStep (if p.isAbsolute then [] else cwd) = p.resolveFrom cwd := by
  have hslash : (pathNames p).foldl walkStep (if p.isAbsolute then [] else cwd) =
      ((Text.cutString '/' p.text).filter (· ≠ "")).foldl walkStep
        (if p.isAbsolute then [] else cwd) := by
    unfold pathNames
    dsimp only
    by_cases hend : p.chars.getLast? = some '/'
    · rw [if_pos hend, List.foldl_append]
      rfl
    · rw [if_neg hend]
  rw [hslash, Text.cutString, foldl_pieces]
  unfold Path.resolveFrom Path.components Path.pieces
  cases habs : p.isAbsolute with
  | true =>
      obtain ⟨first, rest, hcut⟩ := List.exists_cons_of_ne_nil (Text.cut_ne_nil '/' p.chars)
      -- nothing stands before the first slash
      have hfirst : first = [] := by
        cases hp : p.chars with
        | nil => simp [Path.isAbsolute, hp] at habs
        | cons c cs =>
            have hc : c = '/' := by simpa [Path.isAbsolute, hp] using habs
            rw [hp, hc, Text.cut, if_pos rfl] at hcut
            exact (List.cons.inj hcut).1.symm
      have hcut' : Text.cut '/' p.text.toList = first :: rest := hcut
      have hnone : Path.component? [] = none := rfl
      simp [hcut, hcut', hfirst, hnone, Path.resolveStep]
  | false =>
      obtain ⟨first, rest, hcut⟩ := List.exists_cons_of_ne_nil (Text.cut_ne_nil '/' p.chars)
      have hcut' : Text.cut '/' p.text.toList = first :: rest := hcut
      simp only [hcut, hcut', Bool.false_eq_true, if_false, List.foldl_append]
      by_cases hhere : first = ['.']
      · subst hhere
        rfl
      · rw [Path.firstComponent?, if_neg hhere]
        cases hc : Path.component? first <;> simp [hc]

/-! ## Entries -/

/-- The entry that a file is moved to stands in a directory, under the last name of the path. -/
structure Slot.IsFor (d : Disk) (cwd : Location) (p : Path) (e : Slot) : Prop where
  check : checkPath p = .ok ()
  names : ∃ init, pathNames p = init ++ [e.name] ∧
    d.follow linkLimit (if p.isAbsolute then [] else cwd) init = .ok e.dir
  dir : d.lookup? e.dir = some .dir
  short : e.name.utf8ByteSize ≤ maxNameLength
  endsIn : p.EndsIn e.name.toList
  loud : Path.IsLoud e.name.toList
  isName : e.name.toList ≠ Path.up

namespace Slot.IsFor

variable {e : Slot}

theorem ne_here (h : e.IsFor d cwd p) : e.name ≠ "." :=
  fun he => h.loud.ne_here (by rw [he]; rfl)

theorem ne_parent (h : e.IsFor d cwd p) : e.name ≠ ".." :=
  fun he => h.isName (by rw [he]; rfl)

theorem isNamed (h : e.IsFor d cwd p) : p.IsNamed := ⟨_, h.endsIn, h.loud, h.isName⟩

end Slot.IsFor

/-- Names that do not end in a slash end in the text after the last one. -/
theorem exists_names {p : Path} (hslash : p.chars.getLast? ≠ some '/') (hne : p.chars ≠ []) :
    ∃ x init, p.EndsIn x ∧ x ≠ [] ∧
      (Text.cutString '/' p.text).filter (· ≠ "") = init ++ [String.ofList x] := by
  obtain ⟨x, hx⟩ := p.exists_endsIn
  have hxne : x ≠ [] := by
    rintro rfl
    rcases hx.eq with heq | ⟨pre, heq⟩
    · exact hne heq
    · exact hslash (by simp [heq])
  have hkeep : [String.ofList x].filter (· ≠ "") = [String.ofList x] := by
    simpa [String.ofList_eq_empty_iff] using hxne
  have hcut : ∃ ps, Text.cut '/' p.text.toList = ps ++ [x] := by
    rcases hx.eq with heq | ⟨pre, heq⟩
    · exact ⟨[], by rw [show p.text.toList = x from heq, Text.cut_of_notMem hx.noSlash]; rfl⟩
    · exact ⟨_, by
        rw [show p.text.toList = pre ++ '/' :: x from heq, Text.cut_append,
          Text.cut_of_notMem hx.noSlash]⟩
  obtain ⟨ps, hcut⟩ := hcut
  refine ⟨x, (ps.map String.ofList).filter (· ≠ ""), hx, hxne, ?_⟩
  rw [Text.cutString, hcut, List.map_append, List.filter_append, List.map_cons, List.map_nil, hkeep]

theorem isFor_of_slot {e : Slot} (h : d.slot cwd p = .ok e) (hslash : e.hasSlash = false)
    (hname : e.isRelative = false) : e.IsFor d cwd p := by
  unfold slot at h
  obtain ⟨u, hcheck, h⟩ := bind_eq_ok.mp h
  obtain ⟨dir, hdir, h⟩ := bind_eq_ok.mp h
  split at h
  case h_2 => cases h
  case h_1 hisDir =>
    split at h
    case isTrue => cases h
    case isFalse hlong =>
      cases h
      have hslash : p.chars.getLast? ≠ some '/' := of_decide_eq_false hslash
      have hne : p.chars ≠ [] := by
        intro hnil
        rw [Path.chars] at hnil
        simp [Slot.isRelative, Text.cutString, hnil, Text.cut] at hname
      obtain ⟨x, init, hends, hx, hnames⟩ := exists_names hslash hne
      rw [hnames] at hdir hname hlong ⊢
      simp only [List.dropLast_concat, List.getLast?_concat, Option.getD_some] at hdir hname hlong ⊢
      have hrel : String.ofList x ≠ "." ∧ String.ofList x ≠ ".." := by
        simpa [Slot.isRelative] using hname
      have hpathNames : pathNames p = init ++ [String.ofList x] := by
        unfold pathNames
        dsimp only
        rw [if_neg hslash, hnames]
      have hhere : x ≠ ['.'] := fun he => hrel.1 (by rw [he])
      have hup : x ≠ Path.up := fun he => hrel.2 (by rw [he])
      refine ⟨hcheck, ⟨init, hpathNames, hdir⟩, hisDir, Nat.le_of_not_lt hlong, ?_, ?_, ?_⟩
      · rwa [String.toList_ofList]
      · rw [String.toList_ofList]
        exact ⟨hends.noSlash, by simp [Path.isSilent, hx, hhere]⟩
      · rwa [String.toList_ofList]

/-- A file that can be moved is put to an entry that is no directory. -/
theorem isFor_of_replaceFile {n : Node} (h : d.replaceFile cwd p n = .ok d') :
    ∃ e : Slot, d.slot cwd p = .ok e ∧ e.IsFor d cwd p ∧ d.lookup? e.location ≠ some .dir ∧
      d' = d.put e.location n := by
  unfold replaceFile at h
  cases hn : p.chars.contains '\x00' with
  | true => simp only [hn, if_true, throw_eq_error, error_bind, reduceCtorEq] at h
  | false =>
      simp only [hn, Bool.false_eq_true, if_false] at h
      obtain ⟨e, he, h⟩ := bind_eq_ok.mp h
      cases hr : e.isRelative with
      | true => simp [hr] at h
      | false =>
          cases hs : e.hasSlash with
          | true => simp [hr, hs] at h
          | false =>
              simp only [hr, hs, Bool.false_eq_true, if_false] at h
              refine ⟨e, he, isFor_of_slot he hs hr, ?_⟩
              split at h
              case h_1 => cases h
              case h_2 hdir => exact ⟨hdir, (Except.ok.inj h).symm⟩

theorem exists_isFor_of_writeText {s : String} (h : d.writeText cwd p s = (.ok (), d')) :
    ∃ made : Disk, ∃ e : Slot, e.IsFor made cwd p ∧ d.target cwd p = e.location := by
  unfold writeText at h
  split at h
  case h_1 => cases h
  case h_2 made hmade =>
    split at h
    case h_1 => cases h
    case h_2 d₂ hreplace =>
      obtain ⟨e, hslot, he, -⟩ := isFor_of_replaceFile hreplace
      refine ⟨made, e, he, ?_⟩
      unfold target
      rw [hmade]
      simp only [hslot]

end Disk

theorem Workstation.exists_isFor_of_writeText {w w' : Workstation} {p : Path} {s : String}
    (hw : FileSystem.writeText w p s = (.ok (), w')) :
    ∃ made : Disk, ∃ e : Disk.Slot, e.IsFor made w.host.cwd p ∧
      LawfulFileSystem.placeOf w p = e.location :=
  Disk.exists_isFor_of_writeText (Host.disk_of_writeText (host_of_writeText hw))

end ScriptWorks
