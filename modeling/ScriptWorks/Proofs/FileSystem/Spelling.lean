import ScriptWorks.FileSystem.Host
import ScriptWorks.Proofs.FileSystem.Entry
import ScriptWorks.Proofs.FileSystem.Walking
import ScriptWorks.Proofs.Path.Joining

/-!
# Spellings of a path

A relative path and the absolute path that is made of it lead to one place, through links or not, as
long as the system takes both. What a path leads to is said by its trail: its components from the root
on.
-/

namespace ScriptWorks

/-! ## Paths that the system takes -/

namespace Disk

variable {p q : Path}

theorem checkPath_eq_ok : checkPath p = .ok () ↔
    p.isEmpty = false ∧ '\x00' ∉ p.chars ∧ p.text.utf8ByteSize ≤ maxPathLength := by
  unfold checkPath
  by_cases hempty : p.isEmpty = true
  · simp [hempty]
  by_cases hnul : '\x00' ∈ p.chars
  · simp [hempty, hnul]
  by_cases hlong : maxPathLength < p.text.utf8ByteSize
  · simp [hempty, hnul, hlong]
  · simp [hempty, hnul, hlong, pure, Except.pure]
    omega

/-- What a path that the system takes begins with, is taken too. -/
theorem checkPath_of_isPrefix (hcheck : checkPath p = .ok ()) (hchars : q.chars <+: p.chars)
    (hne : q.isEmpty = false) : checkPath q = .ok () := by
  obtain ⟨-, hnul, hshort⟩ := checkPath_eq_ok.mp hcheck
  obtain ⟨rest, hrest⟩ := hchars
  have htext : p.text = q.text ++ String.ofList rest := by
    rw [← String.toList_inj, String.toList_append, String.toList_ofList]
    exact hrest.symm
  rw [htext, String.utf8ByteSize_append] at hshort
  refine checkPath_eq_ok.mpr ⟨hne, fun hmem => hnul ?_, by omega⟩
  rw [← hrest]
  exact List.mem_append_left rest hmem

end Disk

namespace Path

/-! ## Names of components -/

/-- The names that a walk along components takes. -/
def steps (cs : List Component) : List String :=
  cs.filterMap fun
    | .root | .here => none
    | c => some c.text

@[simp] theorem steps_append (cs ds : List Component) : steps (cs ++ ds) = steps cs ++ steps ds :=
  List.filterMap_append

@[simp] theorem steps_names (names : List String) : steps (names.map .name) = names := by
  rw [steps, List.filterMap_map]
  exact List.filterMap_some

@[simp] theorem steps_filter (cs : List Component) : steps (cs.filter (· ≠ .here)) = steps cs := by
  induction cs with
  | nil => rfl
  | cons c cs ih =>
      cases c <;> simp_all [steps]

theorem steps_componentOf (x : List Char) : steps [componentOf x] = [String.ofList x] := by
  by_cases hup : x = up
  · subst hup
    rfl
  · rw [componentOf_of_ne hup]
    rfl

theorem steps_pieces (pieces : List (List Char)) :
    steps (pieces.filterMap component?) =
      ((pieces.map String.ofList).filter (· ≠ "")).filter (· ≠ ".") := by
  induction pieces with
  | nil => rfl
  | cons x pieces ih =>
      by_cases hnil : x = []
      · subst hnil
        simpa [component?, isSilent] using ih
      by_cases hhere : x = ['.']
      · subst hhere
        have hdot : String.ofList ['.'] = "." := rfl
        simpa [component?, isSilent, hdot] using ih
      have hne : String.ofList x ≠ "" := by simpa [String.ofList_eq_empty_iff] using hnil
      have hdot : String.ofList x ≠ "." := fun h =>
        hhere (String.ofList_inj.mp (h.trans (String.ofList_toList (s := ".")).symm))
      have hsilent : isSilent x = false := by simp [isSilent, hnil, hhere]
      have hcomponent : component? x = some (componentOf x) := by
        unfold component? componentOf
        rw [hsilent]
        by_cases hup : x = ['.', '.'] <;> simp [hup]
      rw [List.filterMap_cons_some hcomponent, List.map_cons,
        List.filter_cons_of_pos (by simpa using hne),
        List.filter_cons_of_pos (by simpa using hdot), ← ih, ← List.singleton_append, steps_append,
        steps_componentOf, List.singleton_append]

theorem steps_components (p : Path) :
    steps p.components =
      ((Text.cutString '/' p.text).filter (· ≠ "")).filter (· ≠ ".") := by
  have hcut : steps p.components = steps ((Text.cut '/' p.chars).filterMap component?) := by
    cases habs : p.isAbsolute with
    | false => rw [filterMap_component?_cut habs, steps_filter]
    | true =>
        obtain ⟨cs, hcs⟩ := List.head?_eq_some_iff.mp (of_decide_eq_true habs)
        simp [components, pieces, habs, hcs, Text.cut, steps, component?, isSilent]
  rw [hcut, steps_pieces]
  rfl

end Path

theorem Location.map_componentOf {l : Location} (hname : ∀ name ∈ l, name.toList ≠ Path.up) :
    (l.map String.toList).map Path.componentOf = l.map .name := by
  rw [List.map_map]
  refine List.map_congr_left fun name hmem => ?_
  rw [Function.comp_apply, Path.componentOf_of_ne (hname name hmem), String.ofList_toList]

theorem Location.tidy_path {l : Location} (hloud : ∀ name ∈ l, Path.IsLoud name.toList)
    (hname : ∀ name ∈ l, name.toList ≠ Path.up) : Path.Tidy l.path true (l.map String.toList) := by
  refine ⟨?_, List.forall_mem_map.mpr hloud⟩
  rw [← Path.ofComponents_eq, map_componentOf hname]
  simp [Path.rootPart, Path.ofComponents, Location.path, Function.comp_def, Path.Component.text]

namespace Host

variable {h : Host} {p q : Path}

/-- The working directory is a directory below directories, by its own names. -/
structure Stands (h : Host) : Prop where
  dirs : ∀ l, l <+: h.cwd → h.disk.lookup? l = some .dir
  loud : ∀ name ∈ h.cwd, Path.IsLoud name.toList
  isName : ∀ name ∈ h.cwd, name.toList ≠ Path.up
  short : ∀ name ∈ h.cwd, name.utf8ByteSize ≤ Disk.maxNameLength

/-- Only so many directories have to be looked at. -/
theorem stands_iff : h.Stands ↔
    (∀ n ∈ List.range (h.cwd.length + 1), h.disk.lookup? (h.cwd.take n) = some .dir) ∧
      ∀ name ∈ h.cwd, ('/' ∉ name.toList ∧ Path.isSilent name.toList = false) ∧
        name.toList ≠ Path.up ∧ name.utf8ByteSize ≤ Disk.maxNameLength := by
  constructor
  · intro hcwd
    exact ⟨fun n _ => hcwd.dirs _ (List.take_prefix n _), fun name hname =>
      ⟨⟨(hcwd.loud name hname).noSlash, (hcwd.loud name hname).notSilent⟩, hcwd.isName name hname,
        hcwd.short name hname⟩⟩
  · rintro ⟨hdirs, hnames⟩
    refine ⟨fun l hl => ?_, fun name hname => ⟨(hnames name hname).1.1, (hnames name hname).1.2⟩,
      fun name hname => (hnames name hname).2.1, fun name hname => (hnames name hname).2.2⟩
    rw [List.prefix_iff_eq_take.mp hl]
    exact hdirs _ (List.mem_range.mpr (Nat.lt_succ_of_le hl.length_le))

/-- The components of a path from the root on. -/
def trail (h : Host) (p : Path) : List Path.Component :=
  if p.isAbsolute then p.components
  else .root :: h.cwd.map .name ++ p.components.filter (· ≠ .here)

theorem Stands.map_componentOf (hcwd : h.Stands) :
    (h.cwd.map String.toList).map Path.componentOf = h.cwd.map .name :=
  Location.map_componentOf hcwd.isName

theorem Stands.tidy (hcwd : h.Stands) : Path.Tidy h.cwd.path true (h.cwd.map String.toList) :=
  Location.tidy_path hcwd.loud hcwd.isName

@[simp] theorem head?_trail (p : Path) : (h.trail p).head? = some .root := by
  unfold trail
  split
  case isTrue habs => exact (Path.isAbsolute_iff p).mp habs
  case isFalse => rfl

/-- The absolute path has the components of the path from the root on. -/
theorem components_absolute (hcwd : h.Stands) (hp : p.isEmpty = false) :
    (h.absolute p).components = h.trail p := by
  obtain ⟨ps, hps, hloud⟩ := p.exists_loud
  have hend : ∀ (whole : Path) (b : Prop) [Decidable b], whole.components = h.trail p →
      (if whole.chars.getLast? = some '/' then whole
        else (⟨whole.text ++ if b then "/" else ""⟩ : Path)).components = h.trail p := by
    intro whole b _ hwhole
    have hne : whole.isEmpty = false := by
      refine Bool.eq_false_iff.mpr fun hempty => ?_
      have hnil : whole = ⟨""⟩ := congrArg Path.mk (String.isEmpty_iff.mp hempty)
      have hhead : (h.trail p).head? = some .root := head?_trail p
      rw [← hwhole, hnil] at hhead
      cases hhead
    split
    · exact hwhole
    · split
      · rw [Path.components_append_end hne, hwhole]
      · simpa using hwhole
  unfold absolute Path.absoluteFrom?
  rw [if_neg (by simp [hp]), Option.getD_some]
  refine hend _ _ ?_
  cases habs : p.isAbsolute with
  | true =>
      rw [habs, Path.filter_of_isAbsolute habs] at hloud
      have htidy : Path.Tidy (Path.ofComponents p.components) true ps := by
        rw [hloud, Path.ofComponents_eq]
        exact ⟨rfl, hps⟩
      have hplain : (Path.ofComponents p.components).components = p.components := by
        rw [htidy.components, hloud]
      have hdoubled := (Path.components_doubled htidy.isAbsolute).trans hplain
      rw [trail, if_pos habs, if_pos rfl]
      split <;> assumption
  | false =>
      simp only [habs, Path.rootPart, Bool.false_eq_true, if_false, List.nil_append] at hloud
      simp only [trail, habs, Bool.false_eq_true, if_false, hloud]
      rw [(Path.tidy_foldl_child hcwd.tidy hps).components, List.map_append, hcwd.map_componentOf]
      rfl

theorem isAbsolute_absolute (hcwd : h.Stands) (hp : p.isEmpty = false) :
    (h.absolute p).isAbsolute = true := by
  rw [Path.isAbsolute_iff, components_absolute hcwd hp]
  exact head?_trail p

theorem trail_absolute (hcwd : h.Stands) (hp : p.isEmpty = false) :
    h.trail (h.absolute p) = h.trail p := by
  rw [← components_absolute hcwd hp]
  exact if_pos (isAbsolute_absolute hcwd hp)

theorem trail_child {s : String} (hs : Path.IsLoud s.toList) (p : Path) :
    h.trail (p.child s) = h.trail p ++ [Path.componentOf s.toList] := by
  unfold trail
  rw [Path.isAbsolute_child hs, Path.components_child hs]
  split
  · rfl
  · simp [Path.componentOf_ne_here]

theorem isEmpty_cwd (h : Host) : h.cwd.path.isEmpty = false := by
  simp [Location.path, Path.isEmpty]

/-- Seen from the working directory, a path has its components from the root on. -/
theorem components_seen (hcwd : h.Stands) (p : Path) :
    (h.cwd.path.join p).components = h.trail p := by
  unfold trail
  cases habs : p.isAbsolute with
  | true => rw [Path.join_of_isAbsolute habs, if_pos rfl]
  | false =>
      rw [Path.components_join habs h.isEmpty_cwd, hcwd.tidy.components, hcwd.map_componentOf]
      simp [Path.rootPart]

theorem isAbsolute_seen (hcwd : h.Stands) (p : Path) : (h.cwd.path.join p).isAbsolute = true := by
  rw [Path.isAbsolute_iff, components_seen hcwd]
  exact head?_trail p

/-! ## What a path leads to -/

theorem exists_pathNames {x : List Char} (hp : p.EndsIn x) (hx : Path.IsLoud x) :
    p.chars.getLast? ≠ some '/' ∧ ∃ init,
      (Text.cutString '/' p.text).filter (· ≠ "") = init ++ [String.ofList x] ∧
      Path.steps p.components = init.filter (· ≠ ".") ++ [String.ofList x] := by
  have hne : p.chars ≠ [] := by
    intro hnil
    rcases hp.eq with heq | ⟨pre, heq⟩
    · exact hx.ne_nil (heq.symm.trans hnil)
    · simp [hnil] at heq
  have hslash : p.chars.getLast? ≠ some '/' := by
    intro hlast
    have hmem : ∀ c, x.getLast? = some c → c ≠ '/' := fun c hc he =>
      hx.noSlash (he ▸ List.mem_of_getLast? hc)
    obtain ⟨c, hc⟩ : ∃ c, x.getLast? = some c := ⟨_, List.getLast?_eq_some_getLast hx.ne_nil⟩
    rcases hp.eq with heq | ⟨pre, heq⟩ <;> rw [heq] at hlast
    · exact hmem '/' hlast rfl
    · simp [List.getLast?_append, List.getLast?_cons, hc] at hlast
      exact hmem c hc hlast
  obtain ⟨y, init, hy, -, hnames⟩ := Disk.exists_names hslash hne
  obtain rfl := hp.unique hy
  have hdot := hx.ofList_ne_here
  refine ⟨hslash, init, hnames, ?_⟩
  rw [Path.steps_components, hnames, List.filter_append, List.filter_cons_of_pos (by simpa using hdot),
    List.filter_nil]

theorem follow_pathNames {x : List Char} (hp : p.EndsIn x) (hx : Path.IsLoud x) (links : Nat)
    (l : Location) :
    h.disk.follow links l (Disk.pathNames p) =
      h.disk.follow links l (Path.steps p.components) := by
  obtain ⟨hslash, init, hnames, hsteps⟩ := exists_pathNames hp hx
  rw [hsteps, Disk.pathNames, if_neg hslash, hnames]
  exact Disk.follow_of_undotted (.filter_concat init _) links l

theorem steps_trail (h : Host) (p : Path) :
    Path.steps (h.trail p) = (if p.isAbsolute then [] else h.cwd) ++ Path.steps p.components := by
  have hroot : ∀ cs, Path.steps (.root :: cs) = Path.steps cs := fun _ => rfl
  unfold trail
  split
  · rfl
  · rw [List.cons_append, hroot, Path.steps_append, Path.steps_names, Path.steps_filter]

/-- From the working directory a walk goes on as it does from the root. -/
theorem follow_cwd (hcwd : h.Stands) (links : Nat) (abs : Bool) (names : List String) :
    h.disk.follow links (if abs then [] else h.cwd) names =
      h.disk.follow links [] ((if abs then [] else h.cwd) ++ names) := by
  cases abs with
  | true => rfl
  | false =>
      have hwalk : h.disk.advance [] (h.cwd ++ names) = h.disk.advance h.cwd names := by
        refine Disk.advance_dirs [] h.cwd _ hcwd.dirs fun name hname => ⟨?_, ?_, hcwd.short name hname⟩
        · rintro rfl
          exact (hcwd.loud _ hname).ne_here rfl
        · rintro rfl
          exact hcwd.isName _ hname rfl
      simp only [Bool.false_eq_true, if_false]
      unfold Disk.follow
      rw [hwalk]

/-- A path that ends in a name leads where its trail leads. -/
theorem locate_eq_follow (hcwd : h.Stands) (hcheck : Disk.checkPath p = .ok ()) {x : List Char}
    (hp : p.EndsIn x) (hx : Path.IsLoud x) :
    h.disk.locate h.cwd p = h.disk.follow Disk.linkLimit [] (Path.steps (h.trail p)) := by
  unfold Disk.locate
  rw [hcheck, ok_bind, follow_pathNames hp hx, follow_cwd hcwd, ← steps_trail]

/-- Two spellings with one trail lead to the same. -/
theorem node_eq_of_trail (hcwd : h.Stands) {x : List Char} (hx : Path.IsLoud x)
    (hp : p.EndsIn x) (hpcheck : Disk.checkPath p = .ok ())
    (hq : q.EndsIn x) (hqcheck : Disk.checkPath q = .ok ()) (htrail : h.trail p = h.trail q) :
    h.disk.node h.cwd p = h.disk.node h.cwd q := by
  unfold Disk.node
  rw [locate_eq_follow hcwd hpcheck hp hx, locate_eq_follow hcwd hqcheck hq hx, htrail]

theorem isFile_eq_of_node (hnode : h.disk.node h.cwd p = h.disk.node h.cwd q) :
    h.isFile p = h.isFile q := by
  unfold isFile Disk.isFile
  rw [hnode]

theorem readText_eq_of_node (hnode : h.disk.node h.cwd p = h.disk.node h.cwd q) :
    h.readText p = h.readText q := by
  unfold readText Disk.readText
  rw [hnode]

theorem isFile_eq_of_trail (hcwd : h.Stands) {x : List Char} (hx : Path.IsLoud x)
    (hp : p.EndsIn x) (hpcheck : Disk.checkPath p = .ok ())
    (hq : q.EndsIn x) (hqcheck : Disk.checkPath q = .ok ()) (htrail : h.trail p = h.trail q) :
    h.isFile p = h.isFile q :=
  isFile_eq_of_node (node_eq_of_trail hcwd hx hp hpcheck hq hqcheck htrail)

/-- What can be read is a file. -/
theorem isFile_of_readText {text : String} (hread : h.readText p = .ok text) : h.isFile p = true := by
  unfold readText Disk.readText at hread
  obtain ⟨⟨l, n⟩, hnode, hfile⟩ := bind_eq_ok.mp hread
  unfold isFile Disk.isFile
  rw [hnode]
  cases n with
  | file => rfl
  | dir | link => cases hfile

/-- The path of a file ends in a piece. -/
theorem endsIn_of_isFile (hfile : h.isFile p = true) : ∃ x, p.EndsIn x ∧ Path.IsLoud x := by
  obtain ⟨x, hx⟩ := p.exists_endsIn
  refine ⟨x, hx, hx.noSlash, Bool.eq_false_iff.mpr fun hsilent => ?_⟩
  unfold isFile Disk.isFile at hfile
  split at hfile
  case h_2 => cases hfile
  case h_1 l content behaviour hnode =>
    unfold Disk.node at hnode
    obtain ⟨m, hlocate, hnode⟩ := bind_eq_ok.mp hnode
    unfold Disk.locate at hlocate
    obtain ⟨u, hcheck, hfollow⟩ := bind_eq_ok.mp hlocate
    have hne : p.chars ≠ [] := by
      intro hnil
      have hempty : p.isEmpty = true :=
        String.isEmpty_iff.mpr (String.toList_eq_nil_iff.mp hnil)
      simp [Disk.checkPath, hempty] at hcheck
    -- a silent piece at the end asks for a directory
    have hnames : ∃ init, Disk.pathNames p = init ++ ["."] := by
      by_cases hslash : p.chars.getLast? = some '/'
      · exact ⟨_, if_pos hslash⟩
      · obtain ⟨y, init, hy, hynil, hcut⟩ := Disk.exists_names hslash hne
        obtain rfl := hx.unique hy
        have hdot : x = ['.'] := by simpa [Path.isSilent, hynil] using hsilent
        exact ⟨init, (if_neg hslash).trans (hcut.trans (by rw [hdot]))⟩
    obtain ⟨init, hnames⟩ := hnames
    rw [hnames] at hfollow
    rw [(Disk.Leads.dot_iff.mp (Disk.follow_eq_ok.mp hfollow)).2] at hnode
    cases hnode

theorem readText_eq_of_trail (hcwd : h.Stands) {x : List Char} (hx : Path.IsLoud x)
    (hp : p.EndsIn x) (hpcheck : Disk.checkPath p = .ok ())
    (hq : q.EndsIn x) (hqcheck : Disk.checkPath q = .ok ()) (htrail : h.trail p = h.trail q) :
    h.readText p = h.readText q :=
  readText_eq_of_node (node_eq_of_trail hcwd hx hp hpcheck hq hqcheck htrail)

/-- A path leads, links aside, where its trail leads. -/
theorem resolveFrom_eq_trail (p : Path) :
    p.resolveFrom h.cwd = (h.trail p).foldl Path.resolveStep [] := by
  unfold Path.resolveFrom trail
  cases habs : p.isAbsolute with
  | true =>
      have hsame := Path.resolveFrom_of_isAbsolute habs h.cwd []
      simpa [Path.resolveFrom] using hsame
  | false =>
      rw [if_neg (by decide), List.foldl_append, Path.foldl_resolveStep_filter, List.foldl_cons,
        Path.foldl_names]
      rfl

end Host

end ScriptWorks
