import ScriptWorks.FileSystem.Disk
import ScriptWorks.Proofs.Failing

/-!
# Walks on a disk

A walk over names may be cut in two at any place, and dots in it ask for nothing but directories.
-/

namespace ScriptWorks

namespace Disk

/-! ## Walks without dots -/

/-- A dot that comes before another name asks for nothing that the name does not ask for. -/
inductive Undotted : List String → List String → Prop
  | nil : Undotted [] []
  | keep {names names' : List String} (name : String) : Undotted names names' →
      Undotted (name :: names) (name :: names')
  | drop {names names' : List String} : names ≠ [] → Undotted names names' →
      Undotted ("." :: names) names'

variable {d : Disk} {links : Nat} {l m : Location} {names names' rest : List String}

namespace Undotted

theorem append_right (h : Undotted names names') (rest : List String) :
    Undotted (names ++ rest) (names' ++ rest) := by
  induction h with
  | nil =>
      induction rest with
      | nil => exact .nil
      | cons name rest ih => exact .keep name ih
  | keep name _ ih => exact .keep name ih
  | drop hne _ ih => exact .drop (by simp [hne]) ih

theorem refl (names : List String) : Undotted names names := append_right .nil names

theorem append_left (h : Undotted names names') (front : List String) :
    Undotted (front ++ names) (front ++ names') := by
  induction front with
  | nil => exact h
  | cons name front ih => exact .keep name ih

theorem filter_concat (names : List String) (name : String) :
    Undotted (names ++ [name]) (names.filter (· ≠ ".") ++ [name]) := by
  induction names with
  | nil => exact refl [name]
  | cons n names ih =>
      by_cases hn : n = "."
      · subst hn
        exact .drop (by simp) (by simpa using ih)
      · simpa [hn] using Undotted.keep n ih

end Undotted

theorem advance_dot (d : Disk) (l : Location) (h : names ≠ []) :
    d.advance l ("." :: names) = d.advance l names := by
  obtain ⟨name, rest, rfl⟩ := List.exists_cons_of_ne_nil h
  rw [advance]
  cases hl : d.lookup? l with
  | none => simp [advance, hl]
  | some n => cases n <;> simp [advance, hl]

/-- Walks over names without dots meet the same links. -/
theorem advance_of_undotted (h : Undotted names names') (l : Location) :
    d.advance l names = d.advance l names' ∨
      ∃ dir target rest rest', Undotted rest rest' ∧
        d.advance l names = .ok (.atLink dir target rest) ∧
        d.advance l names' = .ok (.atLink dir target rest') := by
  induction h generalizing l with
  | nil => exact .inl rfl
  | @keep names names' name h ih =>
      simp only [advance]
      cases d.lookup? l with
      | none => exact .inl rfl
      | some n =>
          cases n with
          | file | link => exact .inl rfl
          | dir =>
              by_cases hdot : name = "."
              · simpa [hdot] using ih l
              by_cases hdots : name = ".."
              · simpa [hdots] using ih l.dropLast
              by_cases hlong : maxNameLength < name.utf8ByteSize
              · simp [hdot, hdots, hlong]
              simp only [hdot, hdots, hlong, if_false]
              cases d.lookup? (l ++ [name]) with
              | none => exact .inl rfl
              | some n =>
                  cases n with
                  | dir | file => exact ih (l ++ [name])
                  | link target => exact .inr ⟨l, target, names, names', h, rfl, rfl⟩
  | drop hne h ih =>
      rw [advance_dot d l hne]
      exact ih l

theorem follow_of_undotted (h : Undotted names names') (links : Nat) (l : Location) :
    d.follow links l names = d.follow links l names' := by
  induction links generalizing l names names' with
  | zero =>
      rcases advance_of_undotted (d := d) h l with heq | ⟨dir, target, rest, rest', -, hn, hn'⟩
      · simp only [follow, heq]
      · simp only [follow, hn, hn']
  | succ links ih =>
      rcases advance_of_undotted (d := d) h l with heq | ⟨dir, target, rest, rest', hrest, hn, hn'⟩
      · rw [follow, follow, heq]
      · unfold follow
        simp only [hn, hn']
        exact ih (hrest.append_left _) _

/-- Names that stand for directories one below the other are walked to the last of them. -/
theorem advance_dirs (l : Location) (names rest : List String)
    (hdirs : ∀ m, m <+: names → d.lookup? (l ++ m) = some .dir)
    (hnames : ∀ name ∈ names, name ≠ "." ∧ name ≠ ".." ∧ name.utf8ByteSize ≤ maxNameLength) :
    d.advance l (names ++ rest) = d.advance (l ++ names) rest := by
  induction names generalizing l with
  | nil => simp
  | cons name names ih =>
      obtain ⟨⟨hdot, hdots, hlong⟩, hnames⟩ := List.forall_mem_cons.mp hnames
      have hhere : d.lookup? l = some .dir := by simpa using hdirs [] List.nil_prefix
      have hnext : d.lookup? (l ++ [name]) = some .dir := hdirs [name] ⟨names, rfl⟩
      have hrest := ih (l ++ [name]) (fun m hm => by
        simpa using hdirs (name :: m) ((List.prefix_cons_inj name).mpr hm)) hnames
      rw [List.cons_append, advance]
      simp only [hhere, hdot, hdots, Nat.not_lt.mpr hlong, hnext, if_false, hrest]
      simp

/-! ## Walks in two parts -/

/-- Where a walk goes on from where another one halted. -/
def Halt.andThen (d : Disk) (rest : List String) : Halt → Except FileError Halt
  | .arrived l => d.advance l rest
  | .atLink dir target names => .ok (.atLink dir target (names ++ rest))

theorem advance_append (d : Disk) (l : Location) (names rest : List String) :
    d.advance l (names ++ rest) = d.advance l names >>= Halt.andThen d rest := by
  induction names generalizing l with
  | nil => rfl
  | cons name names ih =>
      simp only [List.cons_append, advance]
      cases d.lookup? l with
      | none => rfl
      | some n =>
          cases n with
          | file | link => rfl
          | dir =>
              by_cases hdot : name = "."
              · simp only [hdot, if_true, ih]
              by_cases hdots : name = ".."
              · simp only [hdots, if_true, ih]
                rfl
              by_cases hlong : maxNameLength < name.utf8ByteSize
              · simp [hdot, hdots, hlong]
              simp only [hdot, hdots, hlong, if_false]
              cases d.lookup? (l ++ [name]) with
              | none => rfl
              | some n =>
                  cases n with
                  | dir | file => exact ih (l ++ [name])
                  | link target => rfl

/-- A walk leads to a place: it arrives, or goes on from a link. -/
inductive Leads (d : Disk) : Nat → Location → List String → Location → Prop
  | arrives {links : Nat} {l m : Location} {names : List String} :
      d.advance l names = .ok (.arrived m) → Leads d links l names m
  | goesOn {links : Nat} {l m dir : Location} {names mid : List String} {target : Path} :
      d.advance l names = .ok (.atLink dir target mid) →
      Leads d links (if target.isAbsolute then [] else dir) (pathNames target ++ mid) m →
      Leads d (links + 1) l names m

theorem follow_eq_ok : d.follow links l names = .ok m ↔ d.Leads links l names m := by
  constructor
  · intro h
    induction links generalizing l names with
    | zero =>
        rw [follow] at h
        split at h
        case h_1 => cases h
        case h_2 hhalt =>
          cases h
          exact .arrives hhalt
        case h_3 => cases h
    | succ links ih =>
        rw [follow] at h
        split at h
        case h_1 => cases h
        case h_2 hhalt =>
          cases h
          exact .arrives hhalt
        case h_3 hhalt => exact .goesOn hhalt (ih h)
  · intro h
    induction h with
    | arrives hhalt =>
        unfold follow
        simp only [hhalt]
    | goesOn hhalt _ ih =>
        rw [follow, hhalt]
        exact ih

namespace Leads

/-- A walk has come to a place after its first names. -/
theorem exists_of_append (h : d.Leads links l (names ++ rest) m) :
    ∃ dir fewer, d.Leads links l names dir ∧ d.Leads fewer dir rest m := by
  generalize hall : names ++ rest = all at h
  induction h generalizing names with
  | @arrives links l m all hhalt =>
      subst hall
      rw [advance_append] at hhalt
      obtain ⟨halt, hfirst, hrest⟩ := bind_eq_ok.mp hhalt
      cases halt with
      | arrived dir => exact ⟨dir, 0, .arrives hfirst, .arrives hrest⟩
      | atLink dir target mid => cases hrest
  | @goesOn links l m dir all mid target hhalt hrest ih =>
      subst hall
      rw [advance_append] at hhalt
      obtain ⟨halt, hfirst, hhalt⟩ := bind_eq_ok.mp hhalt
      cases halt with
      | arrived dir' => exact ⟨dir', links + 1, .arrives hfirst, .goesOn hhalt hrest⟩
      | atLink dir' target' mid' =>
          cases hhalt
          obtain ⟨dir', fewer, hdir, hm⟩ := ih (List.append_assoc ..)
          exact ⟨dir', fewer, .goesOn hfirst hdir, hm⟩

/-- From where the first names lead, a walk without links goes on. -/
theorem append {dir : Location} (h : d.Leads links l names dir)
    (hrest : d.advance dir rest = .ok (.arrived m)) : d.Leads links l (names ++ rest) m := by
  induction h with
  | arrives hhalt =>
      refine .arrives ?_
      rw [advance_append, hhalt, ok_bind]
      exact hrest
  | goesOn hhalt _ ih =>
      have ih := ih hrest
      rw [List.append_assoc] at ih
      refine .goesOn ?_ ih
      rw [advance_append, hhalt, ok_bind]
      rfl

theorem dot_iff :
    d.Leads links l (names ++ ["."]) m ↔ d.Leads links l names m ∧ d.lookup? m = some .dir := by
  have hdot (dir : Location) (halt : Halt) :
      d.advance dir ["."] = .ok halt ↔ halt = .arrived dir ∧ d.lookup? dir = some .dir := by
    simp only [advance]
    cases d.lookup? dir with
    | none => simp
    | some n => cases n <;> simp [eq_comm]
  constructor
  · intro h
    obtain ⟨dir, fewer, hdir, hm⟩ := h.exists_of_append
    cases hm with
    | arrives hhalt =>
        obtain ⟨harrived, hdirectory⟩ := (hdot dir _).mp hhalt
        cases harrived
        exact ⟨hdir, hdirectory⟩
    | goesOn hhalt =>
        obtain ⟨hlink, -⟩ := (hdot dir _).mp hhalt
        cases hlink
  · rintro ⟨h, hdirectory⟩
    exact h.append ((hdot m _).mpr ⟨rfl, hdirectory⟩)

/-- The entry that the last name asks for is in a directory. -/
theorem exists_entry {name : String} (h : d.Leads links l (names ++ name :: rest) m) :
    ∃ dir, d.Leads links l names dir ∧ d.lookup? dir = some .dir ∧
      (name = "." ∨ name = ".." ∨
        name.utf8ByteSize ≤ maxNameLength ∧ (d.lookup? (dir ++ [name])).isSome) := by
  obtain ⟨dir, fewer, hdir, hm⟩ := h.exists_of_append
  refine ⟨dir, hdir, ?_⟩
  obtain ⟨halt, hhalt⟩ : ∃ halt, d.advance dir (name :: rest) = .ok halt := by
    cases hm with
    | arrives hhalt | goesOn hhalt => exact ⟨_, hhalt⟩
  rw [advance] at hhalt
  split at hhalt
  case h_1 hdirectory =>
    refine ⟨hdirectory, ?_⟩
    by_cases hdot : name = "."
    · exact .inl hdot
    by_cases hdots : name = ".."
    · exact .inr (.inl hdots)
    rw [if_neg hdot, if_neg hdots] at hhalt
    split at hhalt
    case isTrue => cases hhalt
    case isFalse hshort =>
      refine .inr (.inr ⟨Nat.le_of_not_lt hshort, ?_⟩)
      split at hhalt
      case h_1 => cases hhalt
      case h_2 hn => rw [hn]; rfl
      case h_3 hn => rw [hn]; rfl
  case h_2 => cases hhalt
  case h_3 => cases hhalt

end Leads
end Disk

end ScriptWorks
