import ScriptWorks.Proofs.FileSystem.Writing

/-!
# Files that are written over

A text that is written to a file that is there is what the file holds from then on, and the file can be
written to again. Paths above it that lead to a directory still do.
-/

namespace ScriptWorks

namespace Disk

variable {d : Disk} {links links' : Nat} {l m m' dir : Location} {front names rest : List String}
  {name : String} {halt : Halt}

/-! ## Walks that meet a file -/

namespace Leads

theorem unique (h : d.Leads links l names m) (h' : d.Leads links' l names m') : m = m' := by
  induction h generalizing links' with
  | arrives hhalt =>
      cases h' with
      | arrives hhalt' =>
          cases hhalt.symm.trans hhalt'
          rfl
      | goesOn hhalt' => cases hhalt.symm.trans hhalt'
  | goesOn hhalt _ ih =>
      cases h' with
      | arrives hhalt' => cases hhalt.symm.trans hhalt'
      | goesOn hhalt' hrest =>
          cases hhalt.symm.trans hhalt'
          exact ih hrest

theorem eq_of_nil (h : d.Leads links l [] m) : m = l :=
  h.unique (.arrives rfl : d.Leads 0 l [] l)

/-- Only a directory has names in it. -/
theorem isDir_of_cons (h : d.Leads links l (name :: rest) m) : d.lookup? l = some .dir := by
  obtain ⟨dir, hdir, hdirectory, -⟩ :=
    (show d.Leads links l ([] ++ name :: rest) m from h).exists_entry
  exact hdir.eq_of_nil ▸ hdirectory

end Leads

/-- An entry that stands for a file: it is one, or a link that leads to one. -/
def IsFileIn (d : Disk) (dir : Location) (name : String) : Prop :=
  ∃ links l content behaviour, d.Leads links dir [name] l ∧
    d.lookup? l = some (.file content behaviour)

/-- No walk to a directory passes through an entry that stands for a file. -/
theorem IsFileIn.not_through (hfile : d.IsFileIn dir name)
    (h : d.Leads links l (front ++ name :: rest) m) (hfront : d.advance l front = .ok (.arrived dir)) :
    d.lookup? m ≠ some .dir := by
  obtain ⟨_, file, content, behaviour, hleads, hlookup⟩ := hfile
  obtain ⟨dir', fewer, hdir, hrest⟩ := h.exists_of_append
  obtain rfl : dir' = dir := hdir.unique (.arrives hfront : d.Leads 0 l front dir)
  obtain ⟨file', fewer', hfile', hend⟩ :=
    (show d.Leads fewer dir' ([name] ++ rest) m from hrest).exists_of_append
  obtain rfl := hleads.unique hfile'
  cases rest with
  | nil =>
      rw [hend.eq_of_nil, hlookup]
      nofun
  | cons name rest =>
      rw [hend.isDir_of_cons] at hlookup
      cases hlookup

/-! ## Walks past a file -/

/-- Where an entry is replaced, walks go as before unless they pass through it. -/
theorem advance_put (hentry : d.lookup? (dir ++ [name]) ≠ some .dir) (n : Node)
    (h : d.advance l names = .ok halt) :
    (d.put (dir ++ [name]) n).advance l names = .ok halt ∨
      ∃ front rest, names = front ++ name :: rest ∧ d.advance l front = .ok (.arrived dir) := by
  induction names generalizing l with
  | nil => exact .inl h
  | cons next names ih =>
      have step {m : Location} (hnext : ∀ rest, d.advance l (next :: rest) = d.advance m rest)
          (h : d.advance m names = .ok halt) :
          (d.put (dir ++ [name]) n).advance m names = .ok halt ∨
            ∃ front rest, next :: names = front ++ name :: rest ∧
              d.advance l front = .ok (.arrived dir) :=
        (ih h).imp_right fun ⟨front, rest, hnames, hfront⟩ =>
          ⟨next :: front, rest, congrArg _ hnames, (hnext front).trans hfront⟩
      have hput := lookup?_put d (List.concat_ne_nil name dir) n
      have hl : d.lookup? l = some .dir := by
        rw [advance] at h
        split at h
        · assumption
        · cases h
        · cases h
      have hl' : (d.put (dir ++ [name]) n).lookup? l = some .dir := by
        have hne : l ≠ dir ++ [name] := by
          rintro rfl
          exact hentry hl
        rw [hput, if_neg hne, hl]
      simp only [advance, hl, hl'] at h step ⊢
      by_cases hdot : next = "."
      · simp only [hdot, if_true] at h step ⊢
        exact step (fun _ => rfl) h
      by_cases hdots : next = ".."
      · simp only [hdots, if_true] at h step ⊢
        exact step (fun _ => rfl) h
      by_cases hlong : maxNameLength < next.utf8ByteSize
      · simp [hdot, hdots, hlong] at h
      by_cases hhere : l ++ [next] = dir ++ [name]
      · obtain ⟨rfl, hnext⟩ := List.append_inj' hhere rfl
        cases hnext
        exact .inr ⟨[], names, rfl, rfl⟩
      simp only [hdot, hdots, hlong, hput, hhere, if_false] at h step ⊢
      cases hnext : d.lookup? (l ++ [next]) with
      | none =>
          rw [hnext] at h
          cases h
      | some found =>
          rw [hnext] at h step
          cases found with
          | link target => exact .inl h
          | dir | file => exact step (fun _ => rfl) h

theorem Leads.put (hfile : d.IsFileIn dir name) (hentry : d.lookup? (dir ++ [name]) ≠ some .dir)
    (n : Node) (h : d.Leads links l names m) (hm : d.lookup? m = some .dir) :
    (d.put (dir ++ [name]) n).Leads links l names m := by
  induction h with
  | arrives hhalt =>
      rcases advance_put hentry n hhalt with hsame | ⟨front, rest, rfl, hfront⟩
      · exact .arrives hsame
      · exact absurd hm (hfile.not_through (.arrives hhalt : d.Leads 0 _ _ _) hfront)
  | goesOn hhalt hrest ih =>
      rcases advance_put hentry n hhalt with hsame | ⟨front, rest, rfl, hfront⟩
      · exact .goesOn hsame (ih hm)
      · exact absurd hm (hfile.not_through (.goesOn hhalt hrest) hfront)

/-! ## What stands at a path -/

theorem node_eq_ok_iff {cwd : Location} {p : Path} {n : Node} :
    d.node cwd p = .ok (l, n) ↔ checkPath p = .ok () ∧
      d.Leads linkLimit (if p.isAbsolute then [] else cwd) (pathNames p) l ∧ d.lookup? l = some n := by
  rw [← follow_eq_ok]
  unfold node locate
  cases checkPath p with
  | error e => simp
  | ok u =>
      cases d.follow linkLimit (if p.isAbsolute then [] else cwd) (pathNames p) with
      | error e => simp
      | ok m =>
          rw [ok_bind, ok_bind]
          cases hm : d.lookup? m with
          | none =>
              simp only [throw_eq_error, reduceCtorEq, Except.ok.injEq, true_and, false_iff, not_and]
              rintro rfl
              simp [hm]
          | some found =>
              simp only [pure, Except.pure, Except.ok.injEq, Prod.mk.injEq, true_and, and_congr_right_iff]
              rintro rfl
              simp [hm]

/-- A file can be moved to the entry. -/
structure Replaceable (d : Disk) (dir : Location) (name : String) : Prop where
  short : name.utf8ByteSize ≤ maxNameLength
  isName : name ≠ ".."
  notDir : d.lookup? (dir ++ [name]) ≠ some .dir

end Disk

namespace Host

variable {h h' : Host} {p q : Path} {x : List Char} {dir : Location} {s : String}

theorem isFile_iff :
    h.isFile p = true ↔
      ∃ l content behaviour, h.disk.node h.cwd p = .ok (l, .file content behaviour) := by
  unfold isFile Disk.isFile
  split
  · simp [*]
  · rename_i hother
    simp only [Bool.false_eq_true, false_iff]
    rintro ⟨l, content, behaviour, hnode⟩
    exact hother l content behaviour hnode

/-- A file is under a name in a directory. -/
theorem exists_namesIn_of_isFile (hfile : h.isFile p = true) :
    ∃ dir x, h.NamesIn dir p x ∧ h.disk.IsFileIn dir (String.ofList x) := by
  obtain ⟨x, hends, hloud⟩ := endsIn_of_isFile hfile
  obtain ⟨l, content, behaviour, hnode⟩ := isFile_iff.mp hfile
  obtain ⟨hcheck, hleads, hlookup⟩ := Disk.node_eq_ok_iff.mp hnode
  obtain ⟨hslash, init, hnames, -⟩ := exists_pathNames hends hloud
  rw [Disk.pathNames, if_neg hslash, hnames] at hleads
  obtain ⟨dir, fewer, hdir, hentry⟩ := hleads.exists_of_append
  have hplain : (Disk.plainNames p).dropLast = init := by
    rw [Disk.plainNames, hnames, List.dropLast_concat]
  exact ⟨dir, x, ⟨hcheck, hends, hloud, hplain ▸ hdir, hentry.isDir_of_cons⟩,
    fewer, l, content, behaviour, hentry, hlookup⟩

/-- The disk with a text in place of an entry. -/
def replace (h : Host) (dir : Location) (x : List Char) (s : String) : Host :=
  { h with disk := h.disk.put (dir ++ [String.ofList x]) (.file (.text s) none) }

theorem lookup?_replace (h : Host) (dir : Location) (x : List Char) (s : String) (l : Location) :
    (h.replace dir x s).disk.lookup? l =
      if l = dir ++ [String.ofList x] then some (.file (.text s) none) else h.disk.lookup? l :=
  Disk.lookup?_put h.disk (List.concat_ne_nil _ _) _ l

namespace NamesIn

theorem writeText_eq_ok_iff (hp : h.NamesIn dir p x) :
    FileSystem.writeText h p s = (.ok (), h') ↔
      h.disk.Replaceable dir (String.ofList x) ∧ h' = h.replace dir x s := by
  have hwrite : FileSystem.writeText h p s = ((h.disk.writeText h.cwd p s).1,
    { h with disk := (h.disk.writeText h.cwd p s).2 }) := rfl
  rw [hwrite]
  unfold Disk.writeText
  rw [hp.makeDirs_eq]
  dsimp only
  constructor
  · intro hw
    split at hw
    case h_1 => cases hw
    case h_2 made hreplace =>
      cases hw
      obtain ⟨e, hslot, hfor, hentry, rfl⟩ := Disk.isFor_of_replaceFile hreplace
      rw [hp.slot_eq] at hslot
      split at hslot
      case isTrue => cases hslot
      case isFalse hshort =>
        cases hslot
        exact ⟨⟨Nat.le_of_not_lt hshort, hfor.ne_parent, hentry⟩, rfl⟩
  · rintro ⟨⟨hshort, hname, hentry⟩, rfl⟩
    have hnul : p.chars.contains '\x00' = false := by
      simpa using (Disk.checkPath_eq_ok.mp hp.check).2.1
    have hreplace : h.disk.replaceFile h.cwd p (.file (.text s) none) =
        .ok (h.disk.put (dir ++ [String.ofList x]) (.file (.text s) none)) := by
      unfold Disk.replaceFile
      simp only [hnul, hp.slot_eq, Nat.not_lt.mpr hshort, Bool.false_eq_true, if_false, ok_bind,
        Disk.Slot.isRelative, hp.loud.ofList_ne_here, hname, decide_false, Bool.or_false, Disk.Slot.location]
      rfl
    rw [hreplace]
    rfl

/-- What names an entry still names it when the file there has been written over. -/
theorem replace (hp : h.NamesIn dir p x) (hfile : h.disk.IsFileIn dir (String.ofList x))
    (hentry : h.disk.Replaceable dir (String.ofList x)) (s : String) :
    (h.replace dir x s).NamesIn dir p x := by
  refine ⟨hp.check, hp.endsIn, hp.loud, hp.leads.put hfile hentry.notDir _ hp.isDir, ?_⟩
  have hne : dir ≠ dir ++ [String.ofList x] := by simp
  rw [lookup?_replace, if_neg hne, hp.isDir]

/-- The text that was written is at the path. -/
theorem node_replace (hp : h.NamesIn dir p x) (hfile : h.disk.IsFileIn dir (String.ofList x))
    (hentry : h.disk.Replaceable dir (String.ofList x)) (s : String) :
    (h.replace dir x s).disk.node h.cwd p =
      .ok (dir ++ [String.ofList x], .file (.text s) none) := by
  have hfound := lookup?_replace h dir x s (dir ++ [String.ofList x])
  rw [if_pos rfl] at hfound
  have hname : x ≠ Path.up := fun heq => hentry.isName (by rw [heq])
  have hlocate := (hp.replace hfile hentry s).locate_eq hname hentry.short hfound nofun
  unfold Disk.node
  rw [show (h.replace dir x s).disk.locate h.cwd p = _ from hlocate, ok_bind, hfound]
  rfl

/-- A path above a file that has been written over does not become a file. -/
theorem isFile_replace_above (hp : h.NamesIn dir p x) (hfile : h.disk.IsFileIn dir (String.ofList x))
    (hentry : h.disk.Replaceable dir (String.ofList x)) (s : String) (hthere : h.isFile p = true)
    {r : Path} (hpath : p = q.join r) (hr : r.isAbsolute = false) (hq : h.isFile q = false) :
    (h.replace dir x s).isFile q = false := by
  refine Bool.eq_false_iff.mpr fun hnew => ?_
  obtain ⟨y, hends, hloud⟩ := endsIn_of_isFile hnew
  obtain ⟨found, content, behaviour, hnode⟩ := isFile_iff.mp hnew
  obtain ⟨hcheck, hfound, hlookup⟩ := Disk.node_eq_ok_iff.mp hnode
  have hne := (Disk.checkPath_eq_ok.mp hcheck).1
  rw [← Disk.follow_eq_ok, follow_pathNames hends hloud, Disk.follow_eq_ok] at hfound
  -- the file is where the rest of its path leads from where the path above it leads
  obtain ⟨l, content', behaviour', hfileNode⟩ := isFile_iff.mp hthere
  obtain ⟨-, hleads, hfileLookup⟩ := Disk.node_eq_ok_iff.mp hfileNode
  rw [← Disk.follow_eq_ok, follow_pathNames hp.endsIn hp.loud, Disk.follow_eq_ok, hpath,
    Path.components_join hr hne, Path.isAbsolute_join_of_relative hr hne, Path.steps_append] at hleads
  obtain ⟨top, fewer, htop, hrest⟩ := hleads.exists_of_append
  cases hsteps : Path.steps (r.components.filter (· ≠ .here)) with
  | nil =>
      rw [hsteps] at hrest
      rw [← hrest.eq_of_nil, ← Disk.follow_eq_ok, ← follow_pathNames hends hloud, Disk.follow_eq_ok]
        at htop
      have hqnode := Disk.node_eq_ok_iff.mpr ⟨hcheck, htop, hfileLookup⟩
      rw [isFile_iff.mpr ⟨_, _, _, hqnode⟩] at hq
      cases hq
  | cons name rest =>
      rw [hsteps] at hrest
      have hdir := hrest.isDir_of_cons
      have hkept := htop.put hfile hentry.notDir (.file (.text s) none) hdir
      have hother : top ≠ dir ++ [String.ofList x] := by
        rintro rfl
        exact hentry.notDir hdir
      rw [hfound.unique hkept, lookup?_replace, if_neg hother, hdir] at hlookup
      cases hlookup

end NamesIn

end Host

/-! ## Worlds -/

/-- What holds once a text has been written to a path. -/
structure Rewritten {ω : Type} [FileSystem ω] (w : ω) (p : Path) (s : String) (w' : ω) : Prop where
  isFile : FileSystem.isFile w' p = true
  readText : FileSystem.readText w' p = .ok s
  writable (t : String) : ∃ w'', FileSystem.writeText w' p t = (.ok (), w'')
  /-- A path above the file does not become one. -/
  above {q r : Path} : p = q.join r → r.isAbsolute = false → FileSystem.isFile w q = false →
    FileSystem.isFile w' q = false

/-- Worlds in which files can be written over: whether a text can be written does not depend on the text,
and what is written over a file is there from then on. -/
class RewritableFileSystem (ω : Type) [FileSystem ω] : Prop where
  writable {w w' : ω} {p : Path} {s : String} : FileSystem.isFile w p = true →
    FileSystem.writeText w p s = (.ok (), w') → ∀ t, ∃ w'', FileSystem.writeText w p t = (.ok (), w'')
  rewritten {w w' : ω} {p : Path} {s : String} : FileSystem.isFile w p = true →
    FileSystem.writeText w p s = (.ok (), w') → Rewritten w p s w'

/-! ## Disks -/

theorem Host.rewritable {h h' : Host} {p : Path} {s : String} (hfile : h.isFile p = true)
    (hw : FileSystem.writeText h p s = (.ok (), h')) :
    (∀ t, ∃ h'', FileSystem.writeText h p t = (.ok (), h'')) ∧ Rewritten h p s h' := by
  obtain ⟨dir, x, hp, hentry⟩ := exists_namesIn_of_isFile hfile
  obtain ⟨hopen, rfl⟩ := hp.writeText_eq_ok_iff.mp hw
  have hnode := hp.node_replace hentry hopen s
  have hname := hp.replace hentry hopen s
  have hagain : (h.replace dir x s).disk.Replaceable dir (String.ofList x) :=
    ⟨hopen.short, hopen.isName, by rw [lookup?_replace, if_pos rfl]; nofun⟩
  refine ⟨fun t => ⟨_, hp.writeText_eq_ok_iff.mpr ⟨hopen, rfl⟩⟩, isFile_iff.mpr ⟨_, _, _, hnode⟩, ?_,
    fun t => ⟨_, hname.writeText_eq_ok_iff.mpr ⟨hagain, rfl⟩⟩,
    hp.isFile_replace_above hentry hopen s hfile⟩
  show (h.replace dir x s).disk.readText h.cwd p = .ok s
  unfold Disk.readText
  rw [hnode]
  rfl

instance : RewritableFileSystem Host where
  writable hfile hw := (Host.rewritable hfile hw).1
  rewritten hfile hw := (Host.rewritable hfile hw).2

theorem Workstation.writeText_eq_ok {w : Workstation} {h : Host} {p : Path} {s : String}
    (hw : FileSystem.writeText w.host p s = (.ok (), h)) :
    FileSystem.writeText w p s = (.ok (), { w with host := h }) := by
  have hwrite : FileSystem.writeText w p s = ((FileSystem.writeText w.host p s).1,
    { w with host := (FileSystem.writeText w.host p s).2 }) := rfl
  rw [hwrite, hw]

instance : RewritableFileSystem Workstation where
  writable hfile hw t := by
    obtain ⟨h, ht⟩ := (Host.rewritable hfile (Workstation.host_of_writeText hw)).1 t
    exact ⟨_, Workstation.writeText_eq_ok ht⟩
  rewritten hfile hw := by
    have hhost := (Host.rewritable hfile (Workstation.host_of_writeText hw)).2
    exact ⟨hhost.isFile, hhost.readText, fun t => (hhost.writable t).imp' _ fun _ ht =>
      Workstation.writeText_eq_ok ht, hhost.above⟩

/-! ## Files in memory -/

theorem Memory.get?_insert (m : Memory) (p : Path) (s : String) (q : Path) :
    (m.insert p s).get? q = if p.components = q.components then some s else m.get? q :=
  textAt?_insert m p s q.components

namespace Rehearsal

variable {w w' : Rehearsal} {p : Path} {s : String}

theorem writeText_eq_ok_iff :
    FileSystem.writeText w p s = (.ok (), w') ↔
      w.memory.readOnly.any (p.startsWith ·) = false ∧ w' = { w with memory := w.memory.insert p s } := by
  have hwrite : FileSystem.writeText w p s =
    ((w.memory.writeText p s).1, { w with memory := (w.memory.writeText p s).2 }) := rfl
  rw [hwrite]
  unfold Memory.writeText
  cases w.memory.readOnly.any (p.startsWith ·) <;> simp [eq_comm]

instance : RewritableFileSystem Rehearsal where
  writable _ hw t := ⟨_, writeText_eq_ok_iff.mpr ⟨(writeText_eq_ok_iff.mp hw).1, rfl⟩⟩
  rewritten {w w' p s} hfile hw := by
    obtain ⟨hopen, rfl⟩ := writeText_eq_ok_iff.mp hw
    have hget := Memory.get?_insert w.memory p s
    have hhere : (w.memory.insert p s).get? p = some s := by rw [hget, if_pos rfl]
    refine ⟨?_, ?_, fun t => ⟨_, writeText_eq_ok_iff.mpr ⟨hopen, rfl⟩⟩, fun {q r} _ _ hq => ?_⟩
    · show ((w.memory.insert p s).get? p).isSome = true
      rw [hhere]
      rfl
    · show (w.memory.insert p s).readText p = .ok s
      unfold Memory.readText
      rw [hhere]
    · have hne : ¬ p.components = q.components := fun heq => by
        have hsame : w.memory.get? p = w.memory.get? q := congrArg w.memory.textAt? heq
        have hq' : (w.memory.get? q).isSome = false := hq
        have hfile' : (w.memory.get? p).isSome = true := hfile
        rw [hsame, hq'] at hfile'
        cases hfile'
      show ((w.memory.insert p s).get? q).isSome = false
      rw [hget, if_neg hne]
      exact hq

end Rehearsal

end ScriptWorks
