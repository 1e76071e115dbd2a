import ScriptWorks.Proofs.FileSystem.Rewriting
import ScriptWorks.Proofs.Path.Roles

/-!
# Disks that gain outputs

Where scripts and source maps are written, directories are made and files change under such names only.
Walks go as they went. No path comes to lead to another file, unless it goes up out of a directory that
was not there, or through a link that led nowhere.
-/

namespace ScriptWorks

/-- The last name of the location is that of a script or a source map. -/
def Location.namesOutput (l : Location) : Bool := l.getLast?.any Path.namesOutput

@[simp] theorem Location.namesOutput_concat (dir : Location) (name : String) :
    Location.namesOutput (dir ++ [name]) = Path.namesOutput name := by
  simp [Location.namesOutput]

namespace Disk

/-- What stands at a location before and after outputs are written. -/
inductive Gain (l : Location) : Option Node → Option Node → Prop
  | same {n : Option Node} : Gain l n n
  | dir : Gain l none (some .dir)
  | created {content : Content} {behaviour : Option Behaviour} : l.namesOutput = true →
      Gain l none (some (.file content behaviour))
  | replaced {content content' : Content} {behaviour behaviour' : Option Behaviour} :
      l.namesOutput = true →
      Gain l (some (.file content behaviour)) (some (.file content' behaviour'))

/-- The disk gains directories and outputs. -/
def Gains (d d' : Disk) : Prop := ∀ l, Gain l (d.lookup? l) (d'.lookup? l)

/-- What is there stands in a directory. -/
def Closed (d : Disk) : Prop := ∀ l name, d.lookup? (l ++ [name]) ≠ none → d.lookup? l = some .dir

/-- No link has the name of an output. -/
def Unlinked (d : Disk) : Prop :=
  ∀ l target, d.lookup? l = some (.link target) → l.namesOutput = false

variable {d d' d'' : Disk} {cwd l l' m m' : Location} {names front rest : List String}
  {name : String} {links links' : Nat} {halt : Halt} {n n' : Option Node} {content : Content}
  {behaviour : Option Behaviour}

namespace Gain

theorem trans {n'' : Option Node} (h : Gain l n n') (h' : Gain l n' n'') : Gain l n n'' := by
  cases h with
  | same => exact h'
  | dir =>
      cases h'
      exact .dir
  | created hl =>
      cases h' with
      | same | replaced => exact .created hl
  | replaced hl =>
      cases h' with
      | same | replaced => exact .replaced hl

theorem of_input (h : Gain l n n') (hl : l.namesOutput = false) :
    n' = n ∨ n = none ∧ n' = some .dir := by
  cases h with
  | same => exact .inl rfl
  | dir => exact .inr ⟨rfl, rfl⟩
  | created hout | replaced hout =>
      rw [hl] at hout
      cases hout

theorem eq_none_or_dir (h : Gain l n (some .dir)) : n = none ∨ n = some .dir := by
  cases h with
  | same => exact .inr rfl
  | dir => exact .inl rfl

end Gain

namespace Gains

theorem refl (d : Disk) : Gains d d := fun _ => .same

theorem trans (h : Gains d d') (h' : Gains d' d'') : Gains d d'' := fun l => (h l).trans (h' l)

theorem dir (h : Gains d d') (hl : d.lookup? l = some .dir) : d'.lookup? l = some .dir := by
  have hgain := h l
  rw [hl] at hgain
  generalize d'.lookup? l = n at hgain ⊢
  cases hgain
  rfl

theorem link_iff (h : Gains d d') {target : Path} :
    d'.lookup? l = some (.link target) ↔ d.lookup? l = some (.link target) := by
  have hgain := h l
  generalize d.lookup? l = n at hgain ⊢
  generalize d'.lookup? l = n' at hgain ⊢
  cases hgain <;> simp

theorem file (h : Gains d d') (hl : d.lookup? l = some (.file content behaviour)) :
    ∃ content' behaviour', d'.lookup? l = some (.file content' behaviour') := by
  have hgain := h l
  rw [hl] at hgain
  generalize d'.lookup? l = n' at hgain ⊢
  cases hgain with
  | same | replaced => exact ⟨_, _, rfl⟩

/-- What is a file now was one if it was there. -/
theorem exists_file (h : Gains d d') (hl : d'.lookup? l = some (.file content behaviour))
    (hthere : d.lookup? l ≠ none) :
    ∃ content' behaviour', d.lookup? l = some (.file content' behaviour') := by
  have hgain := h l
  rw [hl] at hgain
  generalize d.lookup? l = n at hgain hthere ⊢
  cases hgain with
  | same | replaced => exact ⟨_, _, rfl⟩
  | created => exact absurd rfl hthere

theorem unlinked (h : Gains d d') (hd : d.Unlinked) : d'.Unlinked :=
  fun l target hl => hd l target (h.link_iff.mp hl)

/-- A file under another name than that of an output was there already. -/
theorem lookup?_of_file (h : Gains d d') (hl : l.namesOutput = false) :
    d'.lookup? l = some (.file content behaviour) ↔ d.lookup? l = some (.file content behaviour) := by
  rcases (h l).of_input hl with heq | ⟨hnone, hdir⟩
  · rw [heq]
  · simp [hnone, hdir]

/-- Walks go as they went. -/
theorem advance (h : Gains d d') (hhalt : d.advance l names = .ok halt) :
    d'.advance l names = .ok halt := by
  induction names generalizing l with
  | nil => exact hhalt
  | cons name names ih =>
      have hl : d.lookup? l = some .dir := by
        rw [Disk.advance] at hhalt
        split at hhalt
        · assumption
        · cases hhalt
        · cases hhalt
      simp only [Disk.advance, hl, h.dir hl] at hhalt ⊢
      by_cases hdot : name = "."
      · simp only [hdot, if_true] at hhalt ⊢
        exact ih hhalt
      by_cases hdots : name = ".."
      · simp only [hdots, if_true] at hhalt ⊢
        exact ih hhalt
      by_cases hlong : maxNameLength < name.utf8ByteSize
      · simp [hdot, hdots, hlong] at hhalt
      simp only [hdot, hdots, hlong, if_false] at hhalt ⊢
      cases hn : d.lookup? (l ++ [name]) with
      | none =>
          rw [hn] at hhalt
          cases hhalt
      | some found =>
          rw [hn] at hhalt
          cases found with
          | link target =>
              rw [h.link_iff.mpr hn]
              exact hhalt
          | dir =>
              rw [h.dir hn]
              exact ih hhalt
          | file content behaviour =>
              obtain ⟨content', behaviour', hn'⟩ := h.file hn
              rw [hn']
              exact ih hhalt

theorem leads (h : Gains d d') (hl : d.Leads links l names m) : d'.Leads links l names m := by
  induction hl with
  | arrives hhalt => exact .arrives (h.advance hhalt)
  | goesOn hhalt _ ih => exact .goesOn (h.advance hhalt) ih

/-- A walk that arrived before the disk gained anything needed no more links then. -/
theorem leads_back (h : Gains d d') (hl : d.Leads links l names m) (hl' : d'.Leads links' l names m') :
    d.Leads links' l names m := by
  induction hl generalizing links' with
  | arrives hhalt => exact .arrives hhalt
  | goesOn hhalt _ ih =>
      cases hl' with
      | arrives hhalt' => cases hhalt'.symm.trans (h.advance hhalt)
      | goesOn hhalt' hrest =>
          cases hhalt'.symm.trans (h.advance hhalt)
          exact .goesOn hhalt (ih hrest)

end Gains

/-! ## Where walks arrive -/

/-- The names lead from one location to another, through however many links. -/
def Arrives (d : Disk) (l : Location) (names : List String) (m : Location) : Prop :=
  ∃ links, d.Leads links l names m

namespace Arrives

theorem nil (d : Disk) (l : Location) : d.Arrives l [] l := ⟨0, .arrives rfl⟩

theorem concat (h : d.Arrives l names m) (hname : d.advance m [name] = .ok (.arrived m')) :
    d.Arrives l (names ++ [name]) m' := by
  obtain ⟨links, h⟩ := h
  exact ⟨links, h.append hname⟩

end Arrives

/-- The place that a walk has come to. -/
def Halt.place : Halt → Location
  | .arrived l => l
  | .atLink dir _ _ => dir

theorem advance_there (hd : d.Closed) (hl : d.lookup? l ≠ none) (h : d.advance l names = .ok halt) :
    d.lookup? halt.place ≠ none := by
  induction names generalizing l with
  | nil =>
      cases h
      exact hl
  | cons name names ih =>
      rw [advance] at h
      split at h
      case h_1 =>
        split at h
        case isTrue => exact ih hl h
        case isFalse =>
          split at h
          case isTrue =>
            refine ih ?_ h
            rcases List.eq_nil_or_concat l with rfl | ⟨dir, last, rfl⟩
            · exact hl
            · rw [List.concat_eq_append] at hl ⊢
              rw [List.dropLast_concat, hd dir last hl]
              exact Option.some_ne_none _
          case isFalse =>
            split at h
            case isTrue => cases h
            case isFalse =>
              split at h
              case h_1 => cases h
              case h_2 =>
                cases h
                exact hl
              case h_3 hn =>
                refine ih ?_ h
                rw [hn]
                exact Option.some_ne_none _
      case h_2 => cases h
      case h_3 => cases h

/-- A walk from a place that is there arrives at one that is there. -/
theorem Leads.there (h : d.Leads links l names m) (hd : d.Closed) (hl : d.lookup? l ≠ none) :
    d.lookup? m ≠ none := by
  induction h with
  | arrives hhalt => exact advance_there hd hl hhalt
  | goesOn hhalt _ ih =>
      refine ih ?_
      have hdir := advance_there hd hl hhalt
      split
      · rw [lookup?_nil]
        exact Option.some_ne_none _
      · exact hdir

/-! ## Below what was not there -/

theorem Closed.lookup?_append (hd : d.Closed) (hl : d.lookup? l = none) (rest : List String) :
    d.lookup? (l ++ rest) = none := by
  induction rest generalizing l with
  | nil => rwa [List.append_nil]
  | cons name rest ih =>
      rw [List.append_cons]
      refine ih (Option.eq_none_iff_forall_ne_some.mpr fun n hn => ?_)
      rw [hd l name (by simp [hn])] at hl
      cases hl

/-- Two walks that go the same way arrive at the same place. -/
theorem Leads.congr (h : d.Leads links l names m) (heq : d.advance l' rest = d.advance l names) :
    d.Leads links l' rest m := by
  cases h with
  | arrives hhalt => exact .arrives (heq.trans hhalt)
  | goesOn hhalt hrest => exact .goesOn (heq.trans hhalt) hrest

theorem advance_child (hl : d.lookup? l = some .dir) (hdot : name ≠ ".") (hdots : name ≠ "..")
    (hshort : name.utf8ByteSize ≤ maxNameLength) {found : Node}
    (hn : d.lookup? (l ++ [name]) = some found) (hlink : ∀ target, found ≠ .link target)
    (rest : List String) :
    d.advance l (name :: rest) = d.advance (l ++ [name]) rest := by
  cases found with
  | dir | file => simp only [advance, hl, hdot, hdots, Nat.not_lt.mpr hshort, hn, if_false]
  | link target => exact absurd rfl (hlink target)

namespace Leads

theorem entry (h : d.Leads links l (name :: rest) m) :
    d.lookup? l = some .dir ∧ (name = "." ∨ name = ".." ∨
      name.utf8ByteSize ≤ maxNameLength ∧ (d.lookup? (l ++ [name])).isSome) := by
  obtain ⟨dir, hdir, hentry⟩ := (show d.Leads links l ([] ++ name :: rest) m from h).exists_entry
  exact hdir.eq_of_nil ▸ hentry

/-- A walk goes on from an entry that is no link. -/
theorem child (h : d.Leads links l (name :: rest) m) (hdot : name ≠ ".") (hdots : name ≠ "..")
    (hlink : ∀ target, d.lookup? (l ++ [name]) ≠ some (.link target)) :
    d.Leads links (l ++ [name]) rest m := by
  obtain ⟨hl, hentry⟩ := h.entry
  obtain ⟨hshort, hthere⟩ := (hentry.resolve_left hdot).resolve_left hdots
  obtain ⟨n, hn⟩ := Option.isSome_iff_exists.mp hthere
  refine h.congr (advance_child hl hdot hdots hshort hn (fun target heq => ?_) rest).symm
  exact hlink target (heq ▸ hn)

end Leads

/-- Where nothing was there are no links, so that names lead down from it. -/
theorem Gains.leads_below (h : Gains d d') (hd : d.Closed) (hl : d.lookup? l = none)
    (hnames : ∀ name ∈ rest, name ≠ "." ∧ name ≠ "..") (hleads : d'.Leads links l rest m) :
    m = l ++ rest := by
  induction rest generalizing l with
  | nil => rw [hleads.eq_of_nil, List.append_nil]
  | cons name rest ih =>
      obtain ⟨⟨hdot, hdots⟩, hrest⟩ := List.forall_mem_cons.mp hnames
      have hnone : d.lookup? (l ++ [name]) = none := hd.lookup?_append hl [name]
      have hlink : ∀ target, d'.lookup? (l ++ [name]) ≠ some (.link target) := fun target hn => by
        rw [h.link_iff.mp hn] at hnone
        cases hnone
      rw [ih hnone hrest (hleads.child hdot hdots hlink), ← List.append_cons]

/-- No file is found below what was not there, but for outputs. -/
theorem Gains.not_file_below (h : Gains d d') (hd : d.Closed) (hl : d.lookup? l = none)
    (hnames : ∀ name ∈ rest, name ≠ "." ∧ name ≠ "..") (hleads : d'.Leads links l rest m)
    (hlast : Location.namesOutput (l ++ rest) = false) :
    d'.lookup? m ≠ some (.file content behaviour) := by
  intro hfile
  rw [h.leads_below hd hl hnames hleads, h.lookup?_of_file hlast, hd.lookup?_append hl] at hfile
  cases hfile

/-! ## Walks that are not led elsewhere -/

/-- No output that the disk gains can lead a walk over the names elsewhere. -/
structure Sure (d : Disk) (l : Location) (names : List String) : Prop where
  /-- The walk goes up only from where it arrives. -/
  up {front rest : List String} : names = front ++ ".." :: rest → ∃ m, d.Arrives l front m
  /-- It goes on from each link that it meets. -/
  link {front rest : List String} {name : String} {m : Location} {target : Path} :
    names = front ++ name :: rest → d.Arrives l front m →
    d.lookup? (m ++ [name]) = some (.link target) → ∃ m', d.Arrives l (front ++ [name]) m'
  /-- It does not end at an output. -/
  file {m : Location} {content : Content} {behaviour : Option Behaviour} : d.Arrives l names m →
    d.lookup? m = some (.file content behaviour) → m.namesOutput = false

/-- A walk that finds a file after the disk has gained outputs arrived there before. -/
theorem Gains.arrives (h : Gains d d') (hd : d.Closed) (hl : d.lookup? l ≠ none)
    (hsure : d.Sure l names) (hdots : "." ∉ names)
    (hlast : names.getLast?.any Path.namesOutput = false)
    (hleads : d'.Leads links l names m) (hfile : d'.lookup? m = some (.file content behaviour)) :
    d.Arrives l names m := by
  -- the invariant is that the names so far arrive somewhere on the old disk
  suffices hwalk : ∀ rest front dir, names = front ++ rest → d.Arrives l front dir →
      d.Arrives l names m from hwalk names [] l rfl (.nil d l)
  intro rest
  induction rest with
  | nil =>
      rintro front dir rfl ⟨k, hk⟩
      rw [List.append_nil] at hleads ⊢
      rw [hleads.unique (h.leads hk)]
      exact ⟨k, hk⟩
  | cons name rest ih =>
      intro front dir hnames harrives
      have hnext : ∀ m', d.Arrives l (front ++ [name]) m' → d.Arrives l names m :=
        fun m' => ih (front ++ [name]) m' (by rw [hnames, List.append_cons])
      obtain ⟨k, hk⟩ := harrives
      rw [hnames] at hleads
      obtain ⟨dir', k', hdir', hrest⟩ := hleads.exists_of_append
      obtain rfl := hdir'.unique (h.leads hk)
      obtain ⟨hdirectory', hentry⟩ := hrest.entry
      have hdirectory : d.lookup? dir' = some .dir := by
        have hgain := h dir'
        rw [hdirectory'] at hgain
        exact hgain.eq_none_or_dir.resolve_left (hk.there hd hl)
      by_cases hup : name = ".."
      · refine hnext dir'.dropLast (Arrives.concat ⟨k, hk⟩ ?_)
        simp [Disk.advance, hdirectory, hup]
      have hdot : name ≠ "." := fun heq => hdots (by simp [hnames, heq])
      obtain ⟨hshort, hthere⟩ := (hentry.resolve_left hdot).resolve_left hup
      cases hn : d.lookup? (dir' ++ [name]) with
      | some n =>
          cases n with
          | dir | file =>
              have hstep := advance_child hdirectory hdot hup hshort hn (by simp) []
              exact hnext _ (Arrives.concat ⟨k, hk⟩ hstep)
          | link target =>
              obtain ⟨m', hm'⟩ := hsure.link hnames ⟨k, hk⟩ hn
              exact hnext m' hm'
      | none =>
          -- what is there only now is a directory or an output, and nothing goes up out of it
          have hlink : ∀ target, d'.lookup? (dir' ++ [name]) ≠ some (.link target) := by
            intro target hlink
            rw [h.link_iff.mp hlink] at hn
            cases hn
          refine absurd hfile (h.not_file_below hd hn (fun other hother => ⟨?_, ?_⟩)
            (hrest.child hdot hup hlink) ?_)
          · rintro rfl
            exact hdots (by simp [hnames, hother])
          · rintro rfl
            obtain ⟨between, after, rfl⟩ := List.append_of_mem hother
            have hcut : names = (front ++ name :: between) ++ ".." :: after := by simp [hnames]
            obtain ⟨m', k', hk'⟩ := hsure.up hcut
            obtain ⟨dir, fewer, hdir, hbetween⟩ := hk'.exists_of_append
            obtain rfl := hdir.unique hk
            have hthere' := ((hbetween.entry.2.resolve_left hdot).resolve_left hup).2
            rw [hn] at hthere'
            cases hthere'
          · rw [hnames] at hlast
            simpa [Location.namesOutput, List.getLast?_append, List.getLast?_cons] using hlast

end Disk

end ScriptWorks
