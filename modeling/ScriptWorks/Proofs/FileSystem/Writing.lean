import ScriptWorks.Proofs.FileSystem.Spelling
import ScriptWorks.Proofs.Path.Ancestors

/-!
# Writing under two spellings

A text that is written into a directory that is there goes to one place, however the path is spelled.
-/

namespace ScriptWorks

namespace Disk

variable {d : Disk} {cwd l : Location} {p : Path}

/-- The names of a path, without the slash at its end. -/
def plainNames (p : Path) : List String := (Text.cutString '/' p.text).filter (· ≠ "")

theorem exists_pathNames_eq (p : Path) :
    pathNames p = plainNames p ++ ["."] ∨
      pathNames p = plainNames p ∧ p.chars.getLast? ≠ some '/' := by
  unfold pathNames
  dsimp only
  split
  · exact .inl rfl
  · exact .inr ⟨rfl, ‹_›⟩

theorem plainNames_eq (p : Path) :
    plainNames p = (p.pieces.map String.ofList).filter (· ≠ "") := by
  unfold plainNames Text.cutString Path.pieces
  cases habs : p.isAbsolute with
  | false => rfl
  | true =>
      obtain ⟨cs, hcs⟩ := List.head?_eq_some_iff.mp (of_decide_eq_true habs)
      have htext : p.text.toList = '/' :: cs := hcs
      rw [htext, hcs, Text.cut, if_pos rfl]
      rfl

/-- The name of the entry that a path asks for. -/
def entryName (p : Path) : String := (plainNames p).getLast?.getD "."

/-- The entry is that of the last name in the directory that the names before it lead to. -/
theorem slot_eq {dir : Location} (hcheck : checkPath p = .ok ())
    (hdir : d.Leads linkLimit (if p.isAbsolute then [] else cwd) (plainNames p).dropLast dir)
    (hdirectory : d.lookup? dir = some .dir) :
    d.slot cwd p =
      if maxNameLength < (entryName p).utf8ByteSize then .error .nameTooLong
      else .ok ⟨dir, entryName p, p.chars.getLast? = some '/'⟩ := by
  have hfollow : d.follow linkLimit (if p.isAbsolute then [] else cwd)
      ((Text.cutString '/' p.text).filter (· ≠ "")).dropLast = .ok dir := follow_eq_ok.mpr hdir
  unfold slot
  rw [hcheck, ok_bind]
  dsimp only
  rw [hfollow, ok_bind, hdirectory]
  rfl

/-- What is there has an entry in a directory. -/
theorem exists_slot_of_locate (h : d.locate cwd p = .ok l) :
    ∃ e, d.slot cwd p = .ok e ∧ (e.isRelative = true ∨ d.lookup? e.location ≠ none) := by
  obtain ⟨u, hcheck, hfollow⟩ := bind_eq_ok.mp h
  have hleads := follow_eq_ok.mp hfollow
  obtain ⟨dir, hdir, hdirectory, hentry⟩ : ∃ dir,
      d.Leads linkLimit (if p.isAbsolute then [] else cwd) (plainNames p).dropLast dir ∧
      d.lookup? dir = some .dir ∧ (entryName p = "." ∨ entryName p = ".." ∨
        (entryName p).utf8ByteSize ≤ maxNameLength ∧ d.lookup? (dir ++ [entryName p]) ≠ none) := by
    unfold entryName
    rcases List.eq_nil_or_concat (plainNames p) with hnil | ⟨init, name, hnames⟩
    · rcases exists_pathNames_eq p with heq | ⟨-, hslash⟩
      · rw [heq, hnil] at hleads
        obtain ⟨hstart, hdirectory⟩ := Leads.dot_iff.mp hleads
        rw [hnil]
        exact ⟨l, hstart, hdirectory, .inl rfl⟩
      · -- a path that does not end in a slash has a name
        have hne : p.chars ≠ [] := by
          intro hchars
          have hempty : p.isEmpty = true :=
            String.isEmpty_iff.mpr (String.toList_eq_nil_iff.mp hchars)
          simp [checkPath, hempty] at hcheck
        obtain ⟨x, init, -, -, hnames⟩ := exists_names hslash hne
        exact absurd (hnil.symm.trans hnames) (by simp)
    · obtain ⟨rest, hrest⟩ : ∃ rest, pathNames p = init ++ name :: rest := by
        rcases exists_pathNames_eq p with heq | ⟨heq, -⟩
        · exact ⟨["."], by simp [heq, hnames]⟩
        · exact ⟨[], by simp [heq, hnames]⟩
      rw [hrest] at hleads
      simpa [hnames, Option.isSome_iff_ne_none] using hleads.exists_entry
  have hshort : (entryName p).utf8ByteSize ≤ maxNameLength := by
    rcases hentry with hname | hname | ⟨hshort, -⟩
    · rw [hname]
      decide
    · rw [hname]
      decide
    · exact hshort
  have hslot := slot_eq hcheck hdir hdirectory
  rw [if_neg (Nat.not_lt.mpr hshort)] at hslot
  refine ⟨_, hslot, ?_⟩
  rcases hentry with hname | hname | ⟨-, hthere⟩
  · exact .inl (by simp [Slot.isRelative, hname])
  · exact .inl (by simp [Slot.isRelative, hname])
  · exact .inr hthere

/-- Nothing is made where a directory is. -/
theorem makeDirs_of_node (h : d.node cwd p = .ok (l, .dir)) : d.makeDirs cwd p.ancestors = .ok d := by
  obtain ⟨m, hlocate, -⟩ := bind_eq_ok.mp h
  obtain ⟨e, hslot, hthere⟩ := exists_slot_of_locate hlocate
  have hmake : d.makeDir cwd p = .error .alreadyExists := by
    unfold makeDir
    rw [hslot, ok_bind]
    by_cases hrelative : e.isRelative = true
    · simp [hrelative]
    · obtain ⟨n, hn⟩ := Option.ne_none_iff_exists'.mp (hthere.resolve_left hrelative)
      simp [hrelative, hn]
  have hdir : d.isDir cwd p = true := by
    unfold isDir
    rw [h]
  obtain ⟨rest, hrest⟩ : ∃ rest, p.ancestors = p :: rest := by
    unfold Path.ancestors Path.ancestorsWithin
    split
    · exact ⟨_, rfl⟩
    · exact ⟨_, rfl⟩
  rw [hrest, makeDirs, hmake]
  exact if_pos hdir

/-- A path leads where its components lead, if that is a directory. -/
theorem node_of_leads (hcheck : checkPath p = .ok ())
    (hleads : d.Leads linkLimit (if p.isAbsolute then [] else cwd)
      (Path.steps p.components ++ ["."]) l) :
    d.node cwd p = .ok (l, .dir) := by
  have hsteps : Path.steps p.components = (plainNames p).filter (· ≠ ".") := Path.steps_components p
  rw [hsteps, ← follow_eq_ok, ← follow_of_undotted (.filter_concat (plainNames p) "."),
    follow_eq_ok] at hleads
  obtain ⟨harrives, hdirectory⟩ := Leads.dot_iff.mp hleads
  have hnames : d.Leads linkLimit (if p.isAbsolute then [] else cwd) (pathNames p) l := by
    rcases exists_pathNames_eq p with heq | ⟨heq, -⟩ <;> rw [heq]
    · exact hleads
    · exact harrives
  unfold node locate
  rw [hcheck, ok_bind, follow_eq_ok.mpr hnames, ok_bind, hdirectory]
  rfl

end Disk

namespace Host

variable {h : Host} {p q : Path} {x y : List Char} {dir : Location}

/-- The path names an entry of the directory by its last piece. -/
structure NamesIn (h : Host) (dir : Location) (p : Path) (x : List Char) : Prop where
  check : Disk.checkPath p = .ok ()
  endsIn : p.EndsIn x
  loud : Path.IsLoud x
  leads : h.disk.Leads Disk.linkLimit (if p.isAbsolute then [] else h.cwd)
    (Disk.plainNames p).dropLast dir
  isDir : h.disk.lookup? dir = some .dir

namespace NamesIn

/-- What is beside a path names an entry of the same directory. -/
theorem beside (hp : h.NamesIn dir p x) (hbeside : Path.Beside p q x y)
    (hcheck : Disk.checkPath q = .ok ()) : h.NamesIn dir q y := by
  have hnames : ∀ {r : Path} {z : List Char} {init : List (List Char)}, Path.IsLoud z →
      r.pieces = init ++ [z] →
      (Disk.plainNames r).dropLast = (init.map String.ofList).filter (· ≠ "") := by
    intro r z init hz hr
    have hne : String.ofList z ≠ "" := by simpa [String.ofList_eq_empty_iff] using hz.ne_nil
    rw [Disk.plainNames_eq, hr, List.map_append, List.filter_append, List.map_singleton,
      List.filter_cons_of_pos (by simpa using hne), List.filter_nil, List.dropLast_concat]
  obtain ⟨init, hpieces, hqpieces⟩ := hbeside.exists_pieces
  refine ⟨hcheck, hbeside.endsIn, hbeside.right, ?_, hp.isDir⟩
  rw [hbeside.isAbsolute_eq, hnames hbeside.right hqpieces, ← hnames hbeside.left hpieces]
  exact hp.leads

/-- The directory that a file is written to is there. -/
theorem node_parentDir (hp : h.NamesIn dir p x) :
    h.disk.node h.cwd (Disk.parentDir p) = .ok (dir, .dir) := by
  obtain ⟨-, init, hnames, hsteps⟩ := exists_pathNames hp.endsIn hp.loud
  have hplain : (Disk.plainNames p).dropLast = init := by
    rw [Disk.plainNames, hnames, List.dropLast_concat]
  have hleads : h.disk.Leads Disk.linkLimit (if p.isAbsolute then [] else h.cwd)
      (init.filter (· ≠ ".") ++ ["."]) dir := by
    rw [← Disk.follow_eq_ok, ← Disk.follow_of_undotted (.filter_concat init "."), Disk.follow_eq_ok,
      Disk.Leads.dot_iff, ← hplain]
    exact ⟨hp.leads, hp.isDir⟩
  obtain ⟨q, hparent, habove, hcomponents⟩ := hp.endsIn.exists_parent hp.loud
  have hinit : Path.steps q.components = init.filter (· ≠ ".") := by
    rw [hcomponents, Path.steps_append, Path.steps_componentOf] at hsteps
    exact List.append_cancel_right hsteps
  unfold Disk.parentDir
  rw [hparent]
  dsimp only
  split
  case isTrue hempty =>
    -- the working directory is written as a dot
    obtain rfl : q = ⟨""⟩ := congrArg Path.mk (String.isEmpty_iff.mp hempty)
    refine Disk.node_of_leads (Disk.checkPath_eq_ok.mpr (by decide)) ?_
    rw [← hinit, ← habove.isAbsolute] at hleads
    exact hleads
  case isFalse hne =>
    refine Disk.node_of_leads
      (Disk.checkPath_of_isPrefix hp.check habove.chars (Bool.eq_false_iff.mpr hne)) ?_
    rw [habove.isAbsolute, hinit]
    exact hleads

theorem slot_eq (hp : h.NamesIn dir p x) :
    h.disk.slot h.cwd p =
      if Disk.maxNameLength < (String.ofList x).utf8ByteSize then .error .nameTooLong
      else .ok ⟨dir, String.ofList x, false⟩ := by
  obtain ⟨hslash, init, hnames, -⟩ := exists_pathNames hp.endsIn hp.loud
  have hentry : Disk.entryName p = String.ofList x := by
    rw [Disk.entryName, Disk.plainNames, hnames, List.getLast?_concat, Option.getD_some]
  rw [Disk.slot_eq hp.check hp.leads hp.isDir, hentry, decide_eq_false hslash]

theorem makeDirs_eq (hp : h.NamesIn dir p x) :
    h.disk.makeDirs h.cwd (Disk.parentDir p).ancestors = .ok h.disk :=
  Disk.makeDirs_of_node hp.node_parentDir

theorem target_eq (hp : h.NamesIn dir p x) (hq : h.NamesIn dir q x) :
    h.disk.target h.cwd p = h.disk.target h.cwd q := by
  unfold Disk.target
  rw [hp.makeDirs_eq, hq.makeDirs_eq]
  simp only [hp.slot_eq, hq.slot_eq]

/-- Whichever of its paths a text is written to, it goes to one entry. -/
theorem writeText_eq (hp : h.NamesIn dir p x) (hq : h.NamesIn dir q x) (s : String) :
    FileSystem.writeText h p s = FileSystem.writeText h q s := by
  have hnul : ∀ {r : Path}, h.NamesIn dir r x → r.chars.contains '\x00' = false := fun hr => by
    simpa using (Disk.checkPath_eq_ok.mp hr.check).2.1
  have hdisk : h.disk.writeText h.cwd p s = h.disk.writeText h.cwd q s := by
    unfold Disk.writeText Disk.replaceFile
    simp only [hp.makeDirs_eq, hq.makeDirs_eq, hnul hp, hnul hq, hp.slot_eq, hq.slot_eq]
  have hwrite : ∀ r : Path, FileSystem.writeText h r s =
    ((h.disk.writeText h.cwd r s).1, { h with disk := (h.disk.writeText h.cwd r s).2 }) := fun _ => rfl
  rw [hwrite, hwrite, hdisk]

/-- An entry that is no link is what the path leads to. -/
theorem locate_eq (hp : h.NamesIn dir p x) (hname : x ≠ Path.up)
    (hshort : (String.ofList x).utf8ByteSize ≤ Disk.maxNameLength) {n : Node}
    (hn : h.disk.lookup? (dir ++ [String.ofList x]) = some n) (hlink : ∀ target, n ≠ .link target) :
    h.disk.locate h.cwd p = .ok (dir ++ [String.ofList x]) := by
  obtain ⟨hslash, init, hnames, -⟩ := exists_pathNames hp.endsIn hp.loud
  have hplain : (Disk.plainNames p).dropLast = init := by
    rw [Disk.plainNames, hnames, List.dropLast_concat]
  have hall : Disk.pathNames p = init ++ [String.ofList x] := by
    rw [Disk.pathNames, if_neg hslash, hnames]
  have hdot := hp.loud.ofList_ne_here
  have hdots : String.ofList x ≠ ".." := fun heq =>
    hname (String.ofList_inj.mp (heq.trans (String.ofList_toList (s := "..")).symm))
  have hleads := hp.leads
  rw [hplain] at hleads
  have hstep : h.disk.advance dir [String.ofList x] = .ok (.arrived (dir ++ [String.ofList x])) := by
    cases n with
    | dir | file => simp only [Disk.advance, hp.isDir, hdot, hdots, Nat.not_lt.mpr hshort, hn, if_false]
    | link target => exact absurd rfl (hlink target)
  unfold Disk.locate
  rw [hp.check, ok_bind, hall, Disk.follow_eq_ok]
  exact hleads.append hstep

end NamesIn

end Host

end ScriptWorks
