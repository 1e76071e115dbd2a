import ScriptWorks.Config.Files
import ScriptWorks.Proofs.FileSystem.Key
import ScriptWorks.Proofs.FileSystem.Linkless
import ScriptWorks.Proofs.Path.Joining

/-!
# Directory trees

Below a directory without links, a walk finds each file that is kept once, in the order of the names
that lead to it. A file is kept with all the directories on the way, or not at all.
-/

namespace ScriptWorks

open ScriptWorks.Path

/-- Where names lead from a path, one below the other. -/
def Path.below (p : Path) (names : List String) : Path := names.foldl child p

namespace Disk

/-- A name that an entry of a directory can have. -/
structure IsEntryName (name : String) : Prop where
  loud : IsLoud name.toList
  ne_up : name.toList ≠ up
  short : name.utf8ByteSize ≤ maxNameLength

/-- The entry stands in a directory, under such a name, and is no link. -/
structure IsTreeEntry (d : Disk) (e : Location × Node) : Prop where
  dir : d.lookup? e.1.dropLast = some .dir
  named : ∀ name ∈ e.1.getLast?, IsEntryName name
  notLink : d.isLink e.1 = false

/-- What stands below the location is a tree without links, and no entry is there twice. -/
structure IsTreeBelow (d : Disk) (base : Location) : Prop where
  entries : ∀ e ∈ d.entries, base <+: e.1 → e.1 ≠ base → d.IsTreeEntry e
  distinct : (d.entries.map Prod.fst).Nodup

instance (name : String) : Decidable (IsEntryName name) :=
  decidable_of_iff (('/' ∉ name.toList ∧ isSilent name.toList = false) ∧ name.toList ≠ up ∧
      name.utf8ByteSize ≤ maxNameLength)
    ⟨fun h => ⟨⟨h.1.1, h.1.2⟩, h.2.1, h.2.2⟩,
      fun h => ⟨⟨h.loud.noSlash, h.loud.notSilent⟩, h.ne_up, h.short⟩⟩

instance (d : Disk) (e : Location × Node) : Decidable (d.IsTreeEntry e) :=
  decidable_of_iff (d.lookup? e.1.dropLast = some .dir ∧ (∀ name ∈ e.1.getLast?, IsEntryName name) ∧
      d.isLink e.1 = false)
    ⟨fun h => ⟨h.1, h.2.1, h.2.2⟩, fun h => ⟨h.dir, h.named, h.notLink⟩⟩

instance (d : Disk) (base : Location) : Decidable (d.IsTreeBelow base) :=
  decidable_of_iff ((∀ e ∈ d.entries, base <+: e.1 → e.1 ≠ base → d.IsTreeEntry e) ∧
      (d.entries.map Prod.fst).Nodup)
    ⟨fun h => ⟨h.1, h.2⟩, fun h => ⟨h.entries, h.distinct⟩⟩

variable {d : Disk} {base l : Location} {name : String} {names rest : List String} {n : Node}

/-! ## Names in a directory -/

theorem mem_of_lookup? (hl : l ≠ []) (hn : d.lookup? l = some n) : (l, n) ∈ d.entries := by
  unfold lookup? at hn
  rw [if_neg hl] at hn
  obtain ⟨e, he, rfl⟩ := Option.map_eq_some_iff.mp hn
  have hlocation : e.1 = l := by simpa using List.find?_some he
  exact hlocation ▸ List.mem_of_find?_eq_some he

theorem lookup?_ne_none_of_contentAt (h : d.contentAt l ≠ none) : d.lookup? l ≠ none := by
  intro hnone
  rw [contentAt, hnone] at h
  exact h rfl

theorem lookup?_ne_none_of_mem {e : Location × Node} (he : e ∈ d.entries) : d.lookup? e.1 ≠ none := by
  unfold lookup?
  split
  · exact Option.some_ne_none _
  · intro hnone
    have hfind := List.find?_eq_none.mp (Option.map_eq_none_iff.mp hnone) e he
    simp at hfind

/-- The name that a directory lists for an entry. -/
theorem listed_eq_some {m : Location} :
    (if m.length = l.length + 1 ∧ m.dropLast = l then m.getLast? else none) = some name ↔
      m = l ++ [name] := by
  constructor
  · intro hname
    split at hname
    case isFalse => cases hname
    case isTrue hdir =>
      obtain ⟨front, rfl⟩ := List.getLast?_eq_some_iff.mp hname
      rw [← hdir.2, List.dropLast_concat]
  · rintro rfl
    simp

theorem mem_names : name ∈ d.names l ↔ d.lookup? (l ++ [name]) ≠ none := by
  unfold names
  simp only [List.mem_mergeSort, List.mem_filterMap, listed_eq_some]
  constructor
  · rintro ⟨e, he, heq⟩
    exact heq ▸ lookup?_ne_none_of_mem he
  · intro hn
    obtain ⟨n, hn⟩ := Option.ne_none_iff_exists'.mp hn
    exact ⟨_, mem_of_lookup? (by simp) hn, rfl⟩

/-- A directory lists its names in order, each once. -/
theorem pairwise_names (hdistinct : (d.entries.map Prod.fst).Nodup) (l : Location) :
    (d.names l).Pairwise (· < ·) := by
  have hsorted : (d.names l).Pairwise fun a b => decide (a ≤ b) = true := by
    refine List.pairwise_mergeSort (fun a b c hab hbc => ?_) (fun a b => ?_) _
    · exact decide_eq_true (String.le_trans (of_decide_eq_true hab) (of_decide_eq_true hbc))
    · simpa using String.le_total a b
  have hnodup : (d.names l).Nodup := by
    unfold names
    refine (List.mergeSort_perm ..).nodup_iff.mpr ?_
    refine List.Pairwise.filterMap _ (fun e e' hne name hname name' hname' heq => hne ?_)
      (List.pairwise_map.mp hdistinct)
    rw [listed_eq_some.mp hname, listed_eq_some.mp hname', heq]
  refine hsorted.imp₂ (fun a b hle hne => ?_) hnodup
  exact Std.lt_of_le_of_ne (of_decide_eq_true hle) hne

/-! ## Trees -/

namespace IsTreeBelow

/-- What stands in the tree stands in a directory, under a proper name, and is no link. -/
theorem of_lookup? (h : d.IsTreeBelow base) (hl : base <+: l) (hn : d.lookup? (l ++ [name]) = some n) :
    d.lookup? l = some .dir ∧ IsEntryName name ∧ ∀ target, n ≠ .link target := by
  have hne : l ++ [name] ≠ base := by
    rintro rfl
    have hlength := hl.length_le
    rw [List.length_append] at hlength
    exact Nat.not_succ_le_self _ hlength
  have hentry := h.entries _ (mem_of_lookup? (by simp) hn) (hl.trans (List.prefix_append ..)) hne
  refine ⟨by simpa using hentry.dir, hentry.named name (by simp), ?_⟩
  rintro target rfl
  have hlink := hentry.notLink
  simp [isLink, hn] at hlink

/-- Directories lead to what stands in the tree. -/
theorem exists_of_append (h : d.IsTreeBelow base) (hl : base <+: l)
    (hn : d.lookup? (l ++ rest) ≠ none) : d.lookup? l ≠ none := by
  induction rest generalizing l with
  | nil => rwa [List.append_nil] at hn
  | cons name rest ih =>
      have hname := ih (l := l ++ [name]) (hl.trans (List.prefix_append ..)) (by simpa using hn)
      obtain ⟨n, hname⟩ := Option.ne_none_iff_exists'.mp hname
      simp [(h.of_lookup? hl hname).1]

theorem dir_of_append (h : d.IsTreeBelow base) (hl : base <+: l) (hrest : rest ≠ [])
    (hn : d.lookup? (l ++ rest) ≠ none) : d.lookup? l = some .dir := by
  obtain ⟨name, rest, rfl⟩ := List.exists_cons_of_ne_nil hrest
  rw [List.append_cons] at hn
  obtain ⟨n, hname⟩ := Option.ne_none_iff_exists'.mp
    (h.exists_of_append (hl.trans (List.prefix_append l [name])) hn)
  exact (h.of_lookup? hl hname).1

/-- A tree is no deeper than it has entries. -/
theorem length_le (h : d.IsTreeBelow base) (hn : d.lookup? (base ++ rest) ≠ none) :
    rest.length ≤ d.entries.length := by
  let fronts := (List.range rest.length).map fun k => base ++ rest.take (k + 1)
  have hnodup : fronts.Nodup := by
    refine List.pairwise_map.mpr (List.pairwise_lt_range.imp_of_mem fun hk hk' hlt heq => ?_)
    have hlength := congrArg List.length heq
    simp only [List.length_append, List.length_take] at hlength
    have := List.mem_range.mp hk'
    omega
  have hsub : fronts ⊆ d.entries.map Prod.fst := by
    intro l hl
    obtain ⟨k, hk, rfl⟩ := List.mem_map.mp hl
    have hall : d.lookup? (base ++ rest.take (k + 1) ++ rest.drop (k + 1)) ≠ none := by
      rwa [List.append_assoc, List.take_append_drop]
    obtain ⟨n, hthere⟩ := Option.ne_none_iff_exists'.mp
      (h.exists_of_append (List.prefix_append ..) hall)
    refine List.mem_map.mpr ⟨_, mem_of_lookup? (fun hnil => ?_) hthere, rfl⟩
    have hlength := congrArg List.length (List.append_eq_nil_iff.mp hnil).2
    rw [List.length_take, List.length_nil] at hlength
    have := List.mem_range.mp hk
    omega
  simpa [fronts] using hnodup.length_le_of_subset hsub

theorem enter?_eq (h : d.IsTreeBelow base) (hl : base <+: l)
    (hn : d.lookup? (l ++ [name]) = some n) (walked : List Location) :
    d.enter? walked l name = some (l ++ [name], n) := by
  obtain ⟨hdir, hname, hlink⟩ := h.of_lookup? hl hn
  have hdot : name ≠ "." := fun heq => hname.loud.ne_here (by rw [heq]; rfl)
  have hdots : name ≠ ".." := fun heq => hname.ne_up (by rw [heq]; rfl)
  have hfollow : d.follow linkLimit l [name] = .ok (l ++ [name]) :=
    Reaches.follow (.child hdir hdot hdots hname.short hn hlink .arrived) linkLimit
  have hnot : d.isLink (l ++ [name]) = false := by
    unfold isLink
    rw [hn]
    cases n with
    | link target => exact absurd rfl (hlink target)
    | dir | file => rfl
  simp [enter?, hfollow, hn, hnot, Except.toOption]

end IsTreeBelow

/-! ## Walks over trees -/

variable {keep : List String → Bool} {fuel : Nat} {walked : List Location} {p : Path} {f : Found}

/-- What a walk finds at one name of a directory, and below it. -/
def filesAt (d : Disk) (keep : List String → Bool) (fuel : Nat) (walked : List Location)
    (dir : Location) (path : Path) (names : List String) (name : String) : List Found :=
  match d.enter? walked dir name with
  | none => []
  | some (l, n) =>
    if !keep (names ++ [name]) then []
    else
      match n with
      | .dir => d.walk keep fuel (l :: walked) l (path.child name) (names ++ [name])
      | .file .. => [⟨path.child name, names ++ [name]⟩]
      | .link _ => []

theorem walk_succ : d.walk keep (fuel + 1) walked l p names =
    (d.names l).flatMap (d.filesAt keep fuel walked l p names) := rfl

theorem mem_filesAt (h : d.IsTreeBelow base) (hl : base <+: l) :
    f ∈ d.filesAt keep fuel walked l p names name ∧ name ∈ d.names l ↔
      keep (names ++ [name]) = true ∧
        (d.contentAt (l ++ [name]) ≠ none ∧ f = ⟨p.child name, names ++ [name]⟩ ∨
          d.lookup? (l ++ [name]) = some .dir ∧
            f ∈ d.walk keep fuel ((l ++ [name]) :: walked) (l ++ [name]) (p.child name)
              (names ++ [name])) := by
  rw [mem_names]
  cases hn : d.lookup? (l ++ [name]) with
  | none => simp [contentAt, hn]
  | some n =>
      simp only [filesAt, h.enter?_eq hl hn]
      cases hkeep : keep (names ++ [name]) with
      | false => simp
      | true =>
          cases n with
          | dir => simp [contentAt, hn, Node.content?]
          | file => simp [contentAt, hn, Node.content?]
          | link target => exact absurd rfl ((h.of_lookup? hl hn).2.2 target)

/-- A way down from a directory to a file, behind the names so far. Nothing on it is left out. -/
inductive Way (d : Disk) (keep : List String → Bool) : Location → List String → List String → Prop
  | file {l : Location} {names : List String} {name : String} : keep (names ++ [name]) = true →
      d.contentAt (l ++ [name]) ≠ none → Way d keep l names [name]
  | dir {l : Location} {names : List String} {name : String} {rest : List String} :
      keep (names ++ [name]) = true → d.lookup? (l ++ [name]) = some .dir →
      Way d keep (l ++ [name]) (names ++ [name]) rest → Way d keep l names (name :: rest)

/-- A walk goes all the ways that its fuel lasts for. -/
theorem mem_walk (h : d.IsTreeBelow base) (hl : base <+: l) :
    f ∈ d.walk keep fuel walked l p names ↔
      ∃ rest, rest.length ≤ fuel ∧ f = ⟨p.below rest, names ++ rest⟩ ∧ d.Way keep l names rest := by
  induction fuel generalizing walked l p names with
  | zero =>
      constructor
      · intro hf
        simp [walk] at hf
      · rintro ⟨rest, hlength, -, hway⟩
        cases hway <;> simp at hlength
  | succ fuel ih =>
      simp only [walk_succ, List.mem_flatMap, and_comm (a := _ ∈ d.names l), mem_filesAt h hl]
      constructor
      · rintro ⟨name, hkeep, ⟨hfile, rfl⟩ | ⟨hdir, hf⟩⟩
        · exact ⟨[name], by simp, rfl, .file hkeep hfile⟩
        · obtain ⟨rest, hlength, rfl, hway⟩ := (ih (hl.trans (List.prefix_append ..))).mp hf
          exact ⟨name :: rest, Nat.succ_le_succ hlength, by simp [below], .dir hkeep hdir hway⟩
      · rintro ⟨rest, hlength, rfl, hway⟩
        cases hway with
        | @file _ _ name hkeep hfile => exact ⟨name, hkeep, .inl ⟨hfile, rfl⟩⟩
        | @dir _ _ name rest hkeep hdir hway =>
            refine ⟨name, hkeep, .inr ⟨hdir, (ih (hl.trans (List.prefix_append ..))).mpr ?_⟩⟩
            exact ⟨rest, Nat.le_of_succ_le_succ hlength, by simp [below], hway⟩

/-- Nothing on a way is left out: neither what its first name leads to, nor what comes after it. -/
theorem forall_front_cons {P : List String → Prop} :
    (∀ front, front <+: name :: rest → front ≠ [] → P front) ↔
      P [name] ∧ ∀ front, front <+: rest → front ≠ [] → P (name :: front) := by
  constructor
  · intro hall
    exact ⟨hall [name] (by simp) (by simp),
      fun front hfront _ => hall _ (List.cons_prefix_cons.mpr ⟨rfl, hfront⟩) (List.cons_ne_nil _ _)⟩
  · rintro ⟨hname, hrest⟩ front hfront hne
    obtain ⟨first, front, rfl⟩ := List.exists_cons_of_ne_nil hne
    obtain ⟨rfl, hmore⟩ := List.cons_prefix_cons.mp hfront
    by_cases hnil : front = []
    · rwa [hnil]
    · exact hrest front hmore hnil

/-- The ways in a tree are those to its files. -/
theorem way_iff (h : d.IsTreeBelow base) (hl : base <+: l) (hdir : d.lookup? l = some .dir) :
    d.Way keep l names rest ↔ d.contentAt (l ++ rest) ≠ none ∧
      ∀ front, front <+: rest → front ≠ [] → keep (names ++ front) = true := by
  constructor
  · intro hway
    clear hl hdir
    induction hway with
    | file hkeep hfile =>
        refine ⟨hfile, forall_front_cons.mpr ⟨hkeep, fun front hfront hne => ?_⟩⟩
        exact absurd (List.prefix_nil.mp hfront) hne
    | dir hkeep hdir hway ih =>
        obtain ⟨hfile, hrest⟩ := ih
        rw [← List.append_cons] at hfile
        refine ⟨hfile, forall_front_cons.mpr ⟨hkeep, fun front hfront hne => ?_⟩⟩
        rw [List.append_cons]
        exact hrest front hfront hne
  · rintro ⟨hfile, hkeep⟩
    induction rest generalizing l names with
    | nil => simp [contentAt, hdir, Node.content?] at hfile
    | cons name rest ih =>
        obtain ⟨hname, hrest⟩ := forall_front_cons.mp hkeep
        by_cases hnil : rest = []
        · rw [hnil] at hfile ⊢
          exact .file hname hfile
        · rw [List.append_cons] at hfile
          have hl' : base <+: l ++ [name] := hl.trans (List.prefix_append ..)
          have hdir' := h.dir_of_append hl' hnil (lookup?_ne_none_of_contentAt hfile)
          refine .dir hname hdir' (ih hl' hdir' hfile fun front hfront hne => ?_)
          rw [← List.append_cons]
          exact hrest front hfront hne

theorem prefix_of_mem_filesAt (hwalk : ∀ {walked l p names f}, f ∈ d.walk keep fuel walked l p names →
    names <+: f.names) (hf : f ∈ d.filesAt keep fuel walked l p names name) :
    names ++ [name] <+: f.names := by
  unfold filesAt at hf
  split at hf
  case h_1 => cases hf
  case h_2 =>
    split at hf
    case isTrue => cases hf
    case isFalse =>
      split at hf
      case h_1 => exact hwalk hf
      case h_2 => exact List.mem_singleton.mp hf ▸ List.prefix_rfl
      case h_3 => cases hf

/-- The names of what is found begin with those of the directory. -/
theorem prefix_of_mem_walk (hf : f ∈ d.walk keep fuel walked l p names) : names <+: f.names := by
  induction fuel generalizing walked l p names f with
  | zero => simp [walk] at hf
  | succ fuel ih =>
      rw [walk_succ, List.mem_flatMap] at hf
      obtain ⟨name, -, hf⟩ := hf
      exact (List.prefix_append names [name]).trans (prefix_of_mem_filesAt ih hf)

/-- A walk finds files in the order of the names that lead to them. -/
theorem pairwise_walk (h : d.IsTreeBelow base) (hl : base <+: l) :
    (d.walk keep fuel walked l p names).Pairwise fun f g => f.names < g.names := by
  induction fuel generalizing walked l p names with
  | zero => simp [walk]
  | succ fuel ih =>
      rw [walk_succ, List.pairwise_flatMap]
      constructor
      · intro name hname
        obtain ⟨n, hn⟩ := Option.ne_none_iff_exists'.mp (mem_names.mp hname)
        simp only [filesAt, h.enter?_eq hl hn]
        split
        · exact .nil
        · cases n with
          | dir => exact ih (hl.trans (List.prefix_append ..))
          | file | link => simp
      · refine (pairwise_names h.distinct l).imp fun hlt f hf g hg => ?_
        obtain ⟨rest, hf⟩ := prefix_of_mem_filesAt prefix_of_mem_walk hf
        obtain ⟨rest', hg⟩ := prefix_of_mem_filesAt prefix_of_mem_walk hg
        rw [← hf, ← hg, List.append_assoc, List.append_assoc]
        exact List.append_left_lt (List.cons_lt_cons_iff.mpr (.inl hlt))

/-! ## Files below a directory -/

variable {cwd : Location}

/-- The names lead from the directory at the path to a regular file. -/
def HasBelow (d : Disk) (cwd : Location) (p : Path) (names : List String) : Prop :=
  ∃ base, d.node cwd p = .ok (base, .dir) ∧ d.contentAt (base ++ names) ≠ none

/-- If there is a directory at the path, what stands below it is a tree without links. -/
def IsTreeAt (d : Disk) (cwd : Location) (p : Path) : Prop :=
  ∀ base, d.node cwd p = .ok (base, .dir) → d.IsTreeBelow base

theorem IsTreeBelow.isTreeAt {base : Location} (h : d.IsTreeBelow base)
    (hbase : d.node cwd p = .ok (base, .dir)) : d.IsTreeAt cwd p := by
  intro base' hbase'
  cases hbase.symm.trans hbase'
  exact h

theorem lookup?_of_node (h : d.node cwd p = .ok (l, n)) : d.lookup? l = some n := by
  obtain ⟨m, -, h⟩ := bind_eq_ok.mp h
  split at h
  case h_1 hn =>
    cases h
    exact hn
  case h_2 => cases h

/-- All files below a directory are found, but for those that are left out with a directory on the
way or by themselves. -/
theorem mem_filesBelow (htree : d.IsTreeAt cwd p) :
    f ∈ d.filesBelow cwd keep p ↔ f.path = p.below f.names ∧ d.HasBelow cwd p f.names ∧
      ∀ front, front <+: f.names → front ≠ [] → keep front = true := by
  unfold filesBelow
  split
  case h_1 base hbase =>
    have h := htree base hbase
    simp only [mem_walk h List.prefix_rfl, way_iff h List.prefix_rfl (lookup?_of_node hbase),
      List.nil_append]
    constructor
    · rintro ⟨rest, -, rfl, hfile, hkeep⟩
      exact ⟨rfl, ⟨base, hbase, hfile⟩, hkeep⟩
    · rintro ⟨hpath, ⟨base', hbase', hfile⟩, hkeep⟩
      cases hbase.symm.trans hbase'
      refine ⟨f.names, ?_, by rw [← hpath], hfile, hkeep⟩
      exact Nat.le_succ_of_le (h.length_le (lookup?_ne_none_of_contentAt hfile))
  case h_2 hno =>
    constructor
    · intro hf
      cases hf
    · rintro ⟨-, ⟨base, hbase, -⟩, -⟩
      exact absurd hbase (hno base)

theorem pairwise_filesBelow (htree : d.IsTreeAt cwd p) :
    (d.filesBelow cwd keep p).Pairwise fun f g => f.names < g.names := by
  unfold filesBelow
  split
  case h_1 base hbase => exact pairwise_walk (htree base hbase) List.prefix_rfl
  case h_2 => exact .nil

theorem IsTreeBelow.isEntryName {base : Location} (h : d.IsTreeBelow base)
    (hn : d.lookup? (base ++ names) ≠ none) : ∀ name ∈ names, IsEntryName name := by
  intro name hname
  obtain ⟨front, rest, rfl⟩ := List.append_of_mem hname
  rw [List.append_cons, ← List.append_assoc, ← List.append_assoc] at hn
  have hfront : base <+: base ++ front := List.prefix_append ..
  obtain ⟨n, hn⟩ := Option.ne_none_iff_exists'.mp
    (h.exists_of_append (hfront.trans (List.prefix_append ..)) hn)
  exact (h.of_lookup? hfront hn).2.1

theorem HasBelow.isEntryName (h : d.HasBelow cwd p names) (htree : d.IsTreeAt cwd p) :
    ∀ name ∈ names, IsEntryName name := by
  obtain ⟨base, hbase, hfile⟩ := h
  exact (htree base hbase).isEntryName (lookup?_ne_none_of_contentAt hfile)

theorem HasBelow.ne_nil (h : d.HasBelow cwd p names) : names ≠ [] := by
  rintro rfl
  obtain ⟨base, hbase, hfile⟩ := h
  rw [List.append_nil, contentAt, lookup?_of_node hbase] at hfile
  exact hfile rfl

end Disk

namespace Path

/-! ## Their normal paths -/

variable {p : Path} {names names' : List String}

theorem components_below (hnames : ∀ name ∈ names, Disk.IsEntryName name) :
    (p.below names).components = p.components ++ names.map .name := by
  induction names generalizing p with
  | nil => simp [below]
  | cons name names ih =>
      obtain ⟨hname, hnames⟩ := List.forall_mem_cons.mp hnames
      have hlast : componentOf name.toList = .name name := by
        rw [componentOf_of_ne hname.ne_up, String.ofList_toList]
      have hbelow : p.below (name :: names) = (p.child name).below names := rfl
      rw [hbelow, ih hnames, components_child hname.loud, hlast, List.map_cons, ← List.append_cons]

theorem normalComponents_append (cs : List Component) (names : List String) :
    normalComponents (cs ++ names.map .name) = normalComponents cs ++ names.map .name := by
  have hfold : ∀ done : List Component,
      (names.map Component.name).foldl normalStep done = (names.map .name).reverse ++ done := by
    induction names with
    | nil => exact fun _ => rfl
    | cons name names ih =>
        intro done
        rw [List.map_cons, List.foldl_cons, ih]
        simp [normalStep]
  unfold normalComponents
  rw [List.foldl_append, hfold, List.reverse_append, List.reverse_reverse]

/-- Different names lead to different normal paths. -/
theorem names_eq_of_normalize_below (hnames : ∀ name ∈ names, Disk.IsEntryName name)
    (hnames' : ∀ name ∈ names', Disk.IsEntryName name)
    (h : (p.below names).normalize = (p.below names').normalize) : names = names' := by
  obtain ⟨-, -, -, hcomponents⟩ := (p.below names).exists_tidy_normalize
  obtain ⟨-, -, -, hcomponents'⟩ := (p.below names').exists_tidy_normalize
  rw [h, hcomponents', components_below hnames, components_below hnames', normalComponents_append,
    normalComponents_append] at hcomponents
  have hmap := List.append_cancel_left hcomponents
  exact ((List.map_inj_right fun _ _ => Component.name.inj).mp hmap).symm

end Path

end ScriptWorks
