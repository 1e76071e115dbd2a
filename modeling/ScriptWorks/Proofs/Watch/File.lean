import ScriptWorks.Proofs.Compilation.Committing
import ScriptWorks.Proofs.Compilation.Preparing
import ScriptWorks.Watch.Session

/-!
# Watched files

What stays as it is while a watched file is edited, what is prepared for a text of the file, and what is
found where its script stands once that is committed.
-/

namespace ScriptWorks

open LawfulFileSystem

/-- A watched file with its session and all paths under which it is compiled. -/
structure WatchedFile (ω : Type) [FileSystem ω] [LawfulFileSystem ω] where
  session : WatchSession
  spellings : List Path
  options : Options
  /-- The path of the script, by the path under which the file is compiled. -/
  script : Path → Path
  /-- Where the script of the session stands. -/
  output : Place ω
  asksForFile : session.request.target = .ok (.file session.key)
  key_mem : session.key ∈ spellings

namespace WatchedFile

variable {ω π : Type} [FileSystem ω] [LawfulFileSystem ω]

def path (f : WatchedFile ω) : Path := f.session.key

/-- The text of the file, unless it cannot be read. -/
def source (f : WatchedFile ω) (w : ω) : Except FileError String := FileSystem.readText w f.path

def SameOptions (f : WatchedFile ω) (r : CompileRequest) : Prop :=
  r.outputDir = f.session.request.outputDir ∧ r.sourceMap = f.session.request.sourceMap

/-- In this state of the world, all spellings are paths of the file, with its key at the gate, its options
and the paths of its script. -/
structure Stable (e : Engine ω π) (f : WatchedFile ω) (w : ω) : Prop where
  key : ∀ q ∈ f.spellings, ((FileSystem.host w).key q).same f.session.key = true
  source : ∀ q ∈ f.spellings, FileSystem.readText w q = f.source w
  options : ∀ q ∈ f.spellings,
    (e.resolve w q (f.session.request.overrides (FileSystem.host w))).options = f.options
  script : ∀ q ∈ f.spellings,
    Draft.scriptPath w q (e.resolve w q (f.session.request.overrides (FileSystem.host w))) =
      f.script q
  output : placeOf w (f.script f.path) = f.output

/-- The engine makes this of a text of the file, in a state of the world in which the file has it. -/
def Transpiles (e : Engine ω π) (f : WatchedFile ω) (q : Path) (text : String) (t : Transpiled) :
    Prop :=
  q ∈ f.spellings ∧ ∃ w left, f.Stable e w ∧ f.source w = .ok text ∧
    (e.transpile text q.text f.options).run w = .ok t left

def IsDraft (e : Engine ω π) (f : WatchedFile ω) (q : Path) (text : String) (d : Draft) : Prop :=
  ∃ t code, f.Transpiles e q text t ∧ t.code = some code ∧
    d.files = Draft.outputs (f.script q) f.options code t.sourceMap

/-- What is left of a text of the file where its script stands: the script. Where the path of the source
map leads to the very file of the script, the map is written over it. -/
inductive Shows (e : Engine ω π) (f : WatchedFile ω) (text : String) (w : ω) : Prop
  | script {q t code} : f.Transpiles e q text t → t.code = some code →
      contentAt w f.output = some (.text code) → Shows e f text w
  | map {q t code map before after} : f.Transpiles e q text t → t.code = some code →
      f.options.isOn .sourceMap = true → t.sourceMap = some map → f.Stable e before →
      FileSystem.writeText before (f.script q) code = (.ok (), after) →
      placeOf after (Program.mapPath (f.script q)) = f.output →
      contentAt w f.output = some (.text map) → Shows e f text w

variable {e : Engine ω π} {f : WatchedFile ω} {w w' : ω} {q : Path}

theorem SameOptions.overrides {r : CompileRequest} (h : f.SameOptions r) (host : Host) :
    r.overrides host = f.session.request.overrides host := by
  unfold CompileRequest.overrides
  rw [h.1, h.2]

/-- A draft that is complete is one of the text that the file has. -/
theorem Stable.isDraft (hw : f.Stable e w) (hq : q ∈ f.spellings) {r : CompileRequest}
    (hr : f.SameOptions r) {d : Draft} (h : Draft.prepare e r (.file q) w = (.ok d, w'))
    (hcomplete : d.incomplete = false) : ∃ text, f.source w = .ok text ∧ f.IsDraft e q text d := by
  have hprepared := Draft.isPrepared (e := e) (r := r) (w := w) (.file q)
  rw [h] at hprepared
  obtain ⟨found, hfinds, rfl⟩ := hprepared
  cases hfinds with
  | @transpiled _ _ source t code _ _ hresolved _ hread hrun hcode =>
      rw [hr.overrides] at hresolved
      subst hresolved
      rw [hw.options q hq] at hrun
      have htext := (hw.source q hq).symm.trans hread
      refine ⟨source, htext, t, code, ⟨hq, w, w', hw, htext, hrun⟩, hcode, ?_⟩
      rw [Finding.draft_produced, hw.script q hq, hw.options q hq]
  | fileMisconfigured | fileBroken | noScript => cases hcomplete

theorem contentAt_of_map {script : Path} {options : Options} {map : Option String} {w w' : ω}
    (h : Writes w (if options.isOn .sourceMap then
      (map.map (⟨Program.mapPath script, ·⟩)).toList else []) w') (l : Place ω) :
    contentAt w' l = contentAt w l ∨
      options.isOn .sourceMap = true ∧ ∃ text, map = some text ∧
        placeOf w (Program.mapPath script) = l ∧ contentAt w' l = some (.text text) := by
  split at h
  case isFalse =>
    cases h
    exact .inl rfl
  case isTrue hon =>
    cases map with
    | none =>
        cases h
        exact .inl rfl
    | some text =>
        obtain _ | ⟨hmap, hnil⟩ := h
        cases hnil
        have hwrote := Wrote.of_writeText hmap
        by_cases hl : placeOf w (Program.mapPath script) = l
        · exact .inr ⟨hon, text, rfl, hl, hl ▸ hwrote.here⟩
        · exact .inl (hwrote.elsewhere l (Ne.symm hl))

/-- Once all files of a draft are written, the place of the script shows the text, unless the script was
written elsewhere and this place is as it was. -/
theorem IsDraft.shows {text : String} {d : Draft} (hd : f.IsDraft e q text d) (hw : f.Stable e w)
    {c : Compilation} (h : d.commit w = (c, w')) (hall : c.outputFiles = d.files) :
    f.Shows e text w' ∨
      contentAt w' f.output = contentAt w f.output ∧ placeOf w (f.script q) ≠ f.output := by
  obtain ⟨t, code, ht, hcode, hfiles⟩ := hd
  obtain ⟨rest, stop, after, hrest, hwrites, hstops, -, -⟩ := Draft.commit_eq h
  rw [hall] at hrest hwrites
  have hdone : after = w' := by
    cases hstops with
    | finished => rfl
    | failed => simp at hrest
  rw [hdone, hfiles] at hwrites
  obtain _ | ⟨hscript, hmaps⟩ := hwrites
  rcases contentAt_of_map hmaps f.output with hkept | ⟨hon, map, hmap, hplace, hheld⟩
  · have hwrote := Wrote.of_writeText hscript
    by_cases hplace : placeOf w (f.script q) = f.output
    · exact .inl (.script ht hcode (hkept.trans (hplace ▸ hwrote.here)))
    · exact .inr ⟨hkept.trans (hwrote.elsewhere f.output (Ne.symm hplace)), hplace⟩
  · exact .inl (.map ht hcode hon hmap hw hscript hplace hheld)

/-! ## Files in memory -/

/-- A file in memory that is compiled for the options that are built in. -/
def inMemory (p : Path) (subscription : Nat) : WatchedFile Rehearsal where
  session := ⟨p, .ofFile p, subscription⟩
  spellings := [p]
  options := (Resolved.ofProject none {} {}).options
  script := Path.scriptPath
  output := p.scriptPath.components
  asksForFile := rfl
  key_mem := List.mem_singleton.mpr rfl

theorem stable_inMemory {e : Engine Rehearsal π} {p : Path} (subscription : Nat) {w : Rehearsal}
    (hkey : ((FileSystem.host w).key p).same p = true) (hconfig : e.findConfig w p = none) :
    (inMemory p subscription).Stable e w := by
  have hresolve (q : Path) (hq : q ∈ (inMemory p subscription).spellings) :
      q = p ∧ e.resolve w q {} = .ofProject none {} {} := by
    obtain rfl := List.mem_singleton.mp hq
    refine ⟨rfl, ?_⟩
    unfold Engine.resolve
    rw [hconfig]
  have hscript : Draft.scriptPath w p (.ofProject none {} {}) = p.scriptPath := by
    have hdir : (Resolved.ofProject none {} {}).options.text? .outDir = none := rfl
    unfold Draft.scriptPath
    rw [hdir]
  exact
    { key := fun q hq => (hresolve q hq).1 ▸ hkey
      source := fun q hq => (hresolve q hq).1 ▸ rfl
      options := fun q hq => congrArg Resolved.options (hresolve q hq).2
      script := fun q hq => by
        obtain ⟨rfl, hresolved⟩ := hresolve q hq
        exact (congrArg (Draft.scriptPath w q) hresolved).trans hscript
      output := rfl }

end WatchedFile

end ScriptWorks
