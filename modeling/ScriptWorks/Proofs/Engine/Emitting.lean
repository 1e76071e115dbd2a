import ScriptWorks.Proofs.Compilation.Preparing

/-!
# What the engine on a host emits

A type checker may keep a program from being written, but it changes neither the host nor what is
written.
-/

namespace ScriptWorks

namespace Work

variable {α β : Type} {h : Host}

/-- A computation on the host leaves it as it is, and its result is as expected. -/
def Gives (h : Host) (m : Work Workstation α) (post : α → Prop) : Prop :=
  ∀ w a w', w.host = h → m.run w = .ok a w' → w'.host = h ∧ post a

theorem gives_pure {a : α} {post : α → Prop} (ha : post a) : Gives h (pure a) post := by
  rintro w b w' hw ⟨⟩
  exact ⟨hw, ha⟩

theorem gives_bind {m : Work Workstation α} {f : α → Work Workstation β} {mid : α → Prop}
    {post : β → Prop} (hm : Gives h m mid) (hf : ∀ a, mid a → Gives h (f a) post) :
    Gives h (m >>= f) post := by
  intro w b w' hw hrun
  rw [EStateM.run_bind] at hrun
  cases hfirst : m.run w with
  | ok a w₁ =>
      rw [hfirst] at hrun
      obtain ⟨hw₁, ha⟩ := hm w a w₁ hw hfirst
      exact hf a ha w₁ b w' hw₁ hrun
  | error reason w₁ =>
      rw [hfirst] at hrun
      cases hrun

end Work

open Work

variable {h : Host}

namespace CheckedProgram

theorem consult_gives (checker : Path) (p : CheckedProgram) :
    Gives h (p.consult checker) fun result => result.2.program = p.program := by
  unfold consult
  cases p.verdict with
  | some v => exact gives_pure rfl
  | none =>
      rintro w a w' rfl ⟨⟩
      exact ⟨rfl, rfl⟩

theorem preEmit_gives (p : CheckedProgram) :
    Gives h p.preEmit fun result => result.2.program = p.program := by
  unfold preEmit
  split
  · refine gives_bind (consult_gives _ p) fun result hresult => ?_
    split <;> exact gives_pure hresult
  · exact gives_pure rfl

/-- Nothing is emitted, or all that the program wants written. -/
theorem emit_gives (p : CheckedProgram) :
    Gives h p.emit fun result => result.1.files = [] ∨ result.1.files = p.program.emit.files := by
  unfold emit
  split
  · refine gives_bind p.preEmit_gives fun result hresult => ?_
    split
    · exact gives_pure (.inr (by rw [← hresult]))
    · exact gives_pure (.inl rfl)
  · exact gives_pure (.inr rfl)

end CheckedProgram

theorem Compiler.engine_produce_gives (compiler : Compiler) (checker : Option Path)
    (rootFiles : List Path) (options : Options) :
    Gives h ((compiler.engine checker).produce rootFiles options) fun result =>
      result.2.files = [] ∨
        result.2.files = (Program.build compiler h rootFiles options).emit.files := by
  unfold Engine.produce
  have hcreate : Gives h ((compiler.engine checker).createProgram rootFiles options) fun p =>
      p.program = Program.build compiler h rootFiles options := by
    rintro w a w' rfl ⟨⟩
    exact ⟨rfl, rfl⟩
  refine gives_bind hcreate fun p hp => gives_bind (CheckedProgram.preEmit_gives p) fun found hfound =>
    gives_bind (CheckedProgram.emit_gives found.2) fun result hresult => gives_pure ?_
  rwa [hfound, hp] at hresult

theorem Engine.fileNames_resolveWith {ω π : Type} [FileSystem ω] (e : Engine ω π) (w : ω)
    (config : Path) (overrides : Options) :
    (e.resolveWith w config overrides).fileNames = (e.readProject w config).fileNames := rfl

theorem Compiler.readProject_engine (compiler : Compiler) (checker : Option Path) (w : Workstation)
    (config : Path) : (compiler.engine checker).readProject w config = Project.read w.host config := by
  simp only [engine]

/-- A project wants nothing written, or what the program of its root files does. -/
theorem Finds.files_of_project {compiler : Compiler} {checker : Option Path} {r : CompileRequest}
    {w left : Workstation} {dir : Path} {f : Finding}
    (hfinds : Finds (compiler.engine checker) r w (.project dir) f left) :
    f.files = [] ∨ left.host = w.host ∧ ∃ options, f.files =
      (Program.build compiler w.host (Project.read w.host (dir.child "tsconfig.json")).fileNames
        options).emit.files := by
  cases hfinds with
  | projectMisconfigured | projectBroken => exact .inl rfl
  | @emitted _ resolved found emission _ hresolved _ hrun =>
      have hnames : resolved.fileNames =
          (Project.read w.host (dir.child "tsconfig.json")).fileNames := by
        unfold Engine.resolveProject at hresolved
        dsimp only at hresolved
        split at hresolved
        · rw [← Except.ok.inj hresolved, Engine.fileNames_resolveWith]
          exact congrArg Project.fileNames (compiler.readProject_engine checker w _)
        · nomatch hresolved
      obtain ⟨hleft, hfiles⟩ := compiler.engine_produce_gives checker _ _ w _ left rfl hrun
      rw [hnames] at hfiles
      exact hfiles.imp_right fun hfiles => ⟨hleft, _, hfiles⟩

/-- A file wants nothing written, or its script and its source map. -/
theorem Finds.files_of_file {compiler : Compiler} {checker : Option Path} {r : CompileRequest}
    {w left : Workstation} {p : Path} {f : Finding}
    (hfinds : Finds (compiler.engine checker) r w (.file p) f left) :
    f.files = [] ∨ left = w ∧ ∃ resolved code map, f.files =
      Draft.outputs (Draft.scriptPath w p resolved) resolved.options code map := by
  cases hfinds with
  | fileMisconfigured | fileBroken | noScript => exact .inl rfl
  | transpiled _ _ _ _ hrun _ =>
      cases hrun
      exact .inr ⟨rfl, _, _, _, rfl⟩

end ScriptWorks
