import ScriptWorks.Proofs.FileSystem.Writing

/-!
# Keys of files

A walk arrives where only directories are on the way. So the key of a file leads to it without links,
and names the same entry as the path does, unless the path ends in a link.
-/

namespace ScriptWorks

namespace Disk

variable {d : Disk} {links : Nat} {l m dir : Location} {names : List String} {name : String}

/-! ## Where walks arrive -/

/-- The text can stand between slashes. -/
structure IsPiece (name : String) : Prop where
  noSlash : '/' ∉ name.toList
  ne_empty : name ≠ ""

theorem isPiece_of_mem_plainNames {p : Path} (h : name ∈ plainNames p) : IsPiece name := by
  obtain ⟨hmem, hne⟩ := List.mem_filter.mp h
  obtain ⟨piece, hpiece, rfl⟩ := List.mem_map.mp hmem
  refine ⟨?_, of_decide_eq_true hne⟩
  rw [String.toList_ofList]
  exact Text.notMem_of_mem_cut hpiece

theorem isPiece_of_mem_pathNames {p : Path} (h : name ∈ pathNames p) : IsPiece name := by
  rcases exists_pathNames_eq p with heq | ⟨heq, -⟩ <;> rw [heq] at h
  · rcases List.mem_append.mp h with h | h
    · exact isPiece_of_mem_plainNames h
    · rw [List.mem_singleton.mp h]
      exact ⟨by decide, by decide⟩
  · exact isPiece_of_mem_plainNames h

/-- What comes before a location are directories, and its names are no dots. -/
structure IsRooted (d : Disk) (l : Location) : Prop where
  dirs : ∀ m, m <+: l → m ≠ l → d.lookup? m = some .dir
  loud : ∀ name ∈ l, Path.IsLoud name.toList
  isName : ∀ name ∈ l, name.toList ≠ Path.up
  short : ∀ name ∈ l, name.utf8ByteSize ≤ maxNameLength

/-- A walk halts at such a location, with names left if that has a link. -/
def Halt.IsRooted (d : Disk) : Halt → Prop
  | .arrived l => d.IsRooted l
  | .atLink dir _ rest => d.IsRooted dir ∧ ∀ name ∈ rest, IsPiece name

namespace IsRooted

theorem nil : d.IsRooted [] :=
  ⟨fun _ hm hne => absurd (List.prefix_nil.mp hm) hne, nofun, nofun, nofun⟩

theorem of_isPrefix (h : d.IsRooted l) (hm : m <+: l) : d.IsRooted m := by
  refine ⟨fun n hn hne => h.dirs n (hn.trans hm) ?_, fun name hname => h.loud name (hm.subset hname),
    fun name hname => h.isName name (hm.subset hname),
    fun name hname => h.short name (hm.subset hname)⟩
  rintro rfl
  exact hne (hn.eq_of_length_le hm.length_le)

theorem concat (h : d.IsRooted l) (hl : d.lookup? l = some .dir) (hpiece : IsPiece name)
    (hdot : name ≠ ".") (hdots : name ≠ "..") (hshort : name.utf8ByteSize ≤ maxNameLength) :
    d.IsRooted (l ++ [name]) := by
  have hall : ∀ {P : String → Prop}, (∀ n ∈ l, P n) → P name → ∀ n ∈ l ++ [name], P n := by
    intro P hP hname n hn
    rcases List.mem_append.mp hn with hn | hn
    · exact hP n hn
    · rwa [List.mem_singleton.mp hn]
  refine ⟨fun m hm hne => ?_, hall h.loud ⟨hpiece.noSlash, ?_⟩, hall h.isName ?_,
    hall h.short hshort⟩
  · rcases List.prefix_concat_iff.mp hm with heq | hm
    · exact absurd heq hne
    · by_cases heq : m = l
      · rwa [heq]
      · exact h.dirs m hm heq
  · have hnil : name.toList ≠ [] := fun hnil => hpiece.ne_empty (String.toList_eq_nil_iff.mp hnil)
    have hhere : name.toList ≠ ['.'] := fun hhere => hdot (String.toList_inj.mp hhere)
    simp [Path.isSilent, hnil, hhere]
  · exact fun hup => hdots (String.toList_inj.mp hup)

theorem of_advance (h : d.IsRooted l) (hnames : ∀ name ∈ names, IsPiece name) {halt : Halt}
    (hadvance : d.advance l names = .ok halt) : halt.IsRooted d := by
  induction names generalizing l with
  | nil =>
      cases hadvance
      exact h
  | cons name names ih =>
      obtain ⟨hname, hnames⟩ := List.forall_mem_cons.mp hnames
      rw [advance] at hadvance
      split at hadvance
      case h_2 | h_3 => cases hadvance
      case h_1 hl =>
        by_cases hdot : name = "."
        · rw [if_pos hdot] at hadvance
          exact ih h hnames hadvance
        by_cases hdots : name = ".."
        · rw [if_neg hdot, if_pos hdots] at hadvance
          exact ih (h.of_isPrefix (List.dropLast_prefix l)) hnames hadvance
        rw [if_neg hdot, if_neg hdots] at hadvance
        split at hadvance
        case isTrue => cases hadvance
        case isFalse hshort =>
          split at hadvance
          case h_1 => cases hadvance
          case h_2 =>
            cases hadvance
            exact ⟨h, hnames⟩
          case h_3 =>
            exact ih (h.concat hl hname hdot hdots (Nat.le_of_not_lt hshort)) hnames hadvance

theorem of_leads (h : d.IsRooted l) (hnames : ∀ name ∈ names, IsPiece name)
    (hleads : d.Leads links l names m) : d.IsRooted m := by
  induction hleads with
  | arrives hhalt => exact h.of_advance hnames hhalt
  | @goesOn links l m dir names mid target hhalt _ ih =>
      obtain ⟨hdir, hmid⟩ := h.of_advance hnames hhalt
      refine ih ?_ fun name hname => ?_
      · split
        · exact .nil
        · exact hdir
      · rcases List.mem_append.mp hname with hname | hname
        · exact isPiece_of_mem_pathNames hname
        · exact hmid name hname

/-- Such a location is where its own names lead. -/
theorem advance (h : d.IsRooted l) (hl : d.lookup? l = some .dir) :
    d.advance [] l = .ok (.arrived l) := by
  have hdirs : ∀ m, m <+: l → d.lookup? m = some .dir := fun m hm => by
    by_cases heq : m = l
    · rwa [heq]
    · exact h.dirs m hm heq
  have hwalk := advance_dirs (d := d) [] l [] hdirs fun name hname => ⟨?_, ?_, h.short name hname⟩
  · rwa [List.append_nil] at hwalk
  · rintro rfl
    exact (h.loud _ hname).ne_here rfl
  · rintro rfl
    exact h.isName _ hname rfl

end IsRooted

theorem hasSlash_of_slot {cwd : Location} {p : Path} {e : Slot} (h : d.slot cwd p = .ok e) :
    e.hasSlash = decide (p.chars.getLast? = some '/') := by
  unfold slot at h
  obtain ⟨-, -, h⟩ := bind_eq_ok.mp h
  obtain ⟨l, -, h⟩ := bind_eq_ok.mp h
  split at h
  case h_2 => cases h
  case h_1 =>
    split at h
    case isTrue => cases h
    case isFalse =>
      cases h
      rfl

end Disk

namespace Host

variable {h : Host} {p : Path} {x : List Char} {dir : Location} {name : String}

theorem Stands.isRooted_of_locate {l : Location} (hcwd : h.Stands)
    (hlocate : h.disk.locate h.cwd p = .ok l) : h.disk.IsRooted l := by
  obtain ⟨u, -, hfollow⟩ := bind_eq_ok.mp hlocate
  refine Disk.IsRooted.of_leads ?_ (fun name => Disk.isPiece_of_mem_pathNames)
    (Disk.follow_eq_ok.mp hfollow)
  split
  · exact .nil
  · exact ⟨fun m hm _ => hcwd.dirs m hm, hcwd.loud, hcwd.isName, hcwd.short⟩

/-! ## Entries and their keys -/

/-- The path leads to the entry that it names: its last name is no link. -/
def NamesItself (h : Host) (p : Path) : Prop :=
  ∃ e, h.disk.slot h.cwd p = .ok e ∧ h.disk.locate h.cwd p = .ok e.location

theorem namesItself_iff : h.NamesItself p ↔
    (h.disk.slot h.cwd p).toOption.any
      (fun e => (h.disk.locate h.cwd p).toOption = some e.location) = true := by
  rw [Option.any_eq_true]
  simp only [decide_eq_true_eq, toOption_eq_some]
  rfl

instance : Decidable (h.NamesItself p) := decidable_of_iff' _ namesItself_iff

/-- The path of a location names it in its directory. -/
theorem namesIn_path (hroot : h.disk.IsRooted (dir ++ [name])) (hdir : h.disk.lookup? dir = some .dir)
    (hcheck : Disk.checkPath (Location.path (dir ++ [name])) = .ok ()) :
    h.NamesIn dir (Location.path (dir ++ [name])) name.toList := by
  have htidy := Location.tidy_path hroot.loud hroot.isName
  have hplain : Disk.plainNames (Location.path (dir ++ [name])) = dir ++ [name] := by
    have hne : ∀ n ∈ dir ++ [name], decide (n ≠ "") = true := fun n hn =>
      decide_eq_true fun hempty => (hroot.loud n hn).ne_nil (by rw [hempty]; rfl)
    have hid : (String.ofList ∘ String.toList) = id := funext fun _ => String.ofList_toList
    rw [Disk.plainNames_eq, htidy.pieces (by simp), List.map_map, hid, List.map_id,
      List.filter_eq_self.mpr hne]
  rw [List.map_append, List.map_singleton] at htidy
  refine ⟨hcheck, htidy.endsIn, htidy.last_loud, ?_, hdir⟩
  rw [htidy.isAbsolute, if_pos rfl, hplain, List.dropLast_concat]
  exact .arrives ((hroot.of_isPrefix (List.prefix_append ..)).advance hdir)

/-- The key of a file that the path itself names, names the same entry. -/
theorem exists_namesIn_key (hcwd : h.Stands) (hfile : h.isFile p = true) (hself : h.NamesItself p)
    (hcheck : Disk.checkPath (h.key p) = .ok ()) :
    ∃ dir x, h.NamesIn dir p x ∧ h.NamesIn dir (h.key p) x ∧
      h.disk.node h.cwd (h.key p) = h.disk.node h.cwd p := by
  obtain ⟨e, hslot, hlocate⟩ := hself
  have hroot : h.disk.IsRooted e.location := hcwd.isRooted_of_locate hlocate
  have hlast : e.name ∈ e.location := List.mem_append_right _ (List.mem_singleton_self _)
  obtain ⟨y, hy, hyloud⟩ := endsIn_of_isFile hfile
  obtain ⟨hslash, -⟩ := exists_pathNames hy hyloud
  -- no walk arrives at a dot, so the entry is that of a name
  have hrelative : e.isRelative = false := by
    have hdot : e.name ≠ "." := fun heq => (hroot.loud _ hlast).ne_here (by rw [heq]; rfl)
    have hdots : e.name ≠ ".." := fun heq => hroot.isName _ hlast (by rw [heq]; rfl)
    simp [Disk.Slot.isRelative, hdot, hdots]
  have hfor := Disk.isFor_of_slot hslot
    ((Disk.hasSlash_of_slot hslot).trans (decide_eq_false hslash)) hrelative
  have hp : h.NamesIn e.dir p e.name.toList := by
    obtain ⟨init, hnames, hdir⟩ := hfor.names
    have hplain : Disk.plainNames p = Disk.pathNames p := (if_neg hslash).symm
    refine ⟨hfor.check, hfor.endsIn, hfor.loud, ?_, hfor.dir⟩
    rw [hplain, hnames, List.dropLast_concat]
    exact Disk.follow_eq_ok.mp hdir
  obtain ⟨n, hn, hlink⟩ : ∃ n, h.disk.lookup? e.location = some n ∧
      ∀ target, n ≠ .link target := by
    unfold isFile Disk.isFile Disk.node at hfile
    rw [hlocate, ok_bind] at hfile
    cases hn : h.disk.lookup? e.location with
    | none => simp [hn] at hfile
    | some n =>
        refine ⟨n, rfl, ?_⟩
        rintro target rfl
        rw [hn] at hfile
        cases hfile
  have hkey : h.key p = e.location.path := by
    unfold key Disk.node
    rw [hlocate, ok_bind, hn]
    rfl
  rw [hkey] at hcheck ⊢
  have hq : h.NamesIn e.dir e.location.path e.name.toList := namesIn_path hroot hfor.dir hcheck
  have hname : h.disk.lookup? (e.dir ++ [String.ofList e.name.toList]) = some n := by
    rwa [String.ofList_toList]
  refine ⟨e.dir, _, hp, hq, ?_⟩
  unfold Disk.node
  rw [hq.locate_eq hfor.isName (by rw [String.ofList_toList]; exact hfor.short) hname hlink, hlocate,
    String.ofList_toList]
  rfl

end Host

end ScriptWorks
