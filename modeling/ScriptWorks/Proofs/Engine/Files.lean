import ScriptWorks.Proofs.FileSystem.Lawful

/-!
# Engines and files

An engine hands over the files of a program and writes none itself. The engine on a host and the one
that works by rules are of this kind.
-/

namespace ScriptWorks

namespace Work

variable {ω α β : Type} [FileSystem ω] [LawfulFileSystem ω]

/-- The world in which a computation ends, with a result or without. -/
def world (m : Work ω α) (w : ω) : ω :=
  match m.run w with
  | .ok _ w' => w'
  | .error _ w' => w'

/-- Whatever the computation does, every file stays as it is. -/
def KeepsFiles (m : Work ω α) : Prop := ∀ w, SameFiles w (m.world w)

theorem keepsFiles_pure (a : α) : KeepsFiles (pure a : Work ω α) := fun w => .refl w

theorem keepsFiles_throw (reason : Breakdown) : KeepsFiles (throw reason : Work ω α) :=
  fun w => .refl w

theorem keepsFiles_get : KeepsFiles (get : Work ω ω) := fun w => .refl w

theorem keepsFiles_modify {f : ω → ω} (h : ∀ w, SameFiles w (f w)) :
    KeepsFiles (modify f : Work ω PUnit) := h

theorem keepsFiles_bind {m : Work ω α} {f : α → Work ω β} (hm : m.KeepsFiles)
    (hf : ∀ a, (f a).KeepsFiles) : KeepsFiles (m >>= f) := by
  intro w
  have hw := hm w
  simp only [world, EStateM.run_bind] at hw ⊢
  cases h : m.run w with
  | ok a w₁ =>
      rw [h] at hw
      exact hw.trans (hf a w₁)
  | error reason w₁ =>
      rw [h] at hw
      exact hw

theorem keepsFiles_forIn {f : α → β → Work ω (ForInStep β)} (hf : ∀ a b, (f a b).KeepsFiles)
    (l : List α) (b : β) : KeepsFiles (forIn l b f) := by
  induction l generalizing b with
  | nil =>
      rw [List.forIn_nil]
      exact keepsFiles_pure b
  | cons a l ih =>
      rw [List.forIn_cons]
      refine keepsFiles_bind (hf a b) fun s => ?_
      cases s with
      | done b => exact keepsFiles_pure b
      | yield b => exact ih b

theorem KeepsFiles.of_run_ok {m : Work ω α} (h : m.KeepsFiles) {w w' : ω} {a : α}
    (hrun : m.run w = .ok a w') : SameFiles w w' := by
  have hw := h w
  unfold world at hw
  rw [hrun] at hw
  exact hw

theorem KeepsFiles.of_run_error {m : Work ω α} (h : m.KeepsFiles) {w w' : ω} {reason : Breakdown}
    (hrun : m.run w = .error reason w') : SameFiles w w' := by
  have hw := h w
  unfold world at hw
  rw [hrun] at hw
  exact hw

end Work

/-- Whatever the engine is asked, every file stays as it is. -/
structure Engine.KeepsFiles {ω π : Type} [FileSystem ω] [LawfulFileSystem ω] (e : Engine ω π) :
    Prop where
  createProgram : ∀ rootFiles options, (e.createProgram rootFiles options).KeepsFiles
  preEmit : ∀ program, (e.preEmit program).KeepsFiles
  syntaxErrors : ∀ program, (e.syntaxErrors program).KeepsFiles
  emit : ∀ program, (e.emit program).KeepsFiles
  transpile : ∀ source fileName options, (e.transpile source fileName options).KeepsFiles

open Work

/-! ## The engine on a host -/

namespace CheckedProgram

theorem consult_keepsFiles (checker : Path) (p : CheckedProgram) :
    (p.consult checker).KeepsFiles := by
  unfold consult
  cases p.verdict with
  | some v => exact keepsFiles_pure _
  | none => exact fun w => .refl w

theorem preEmit_keepsFiles (p : CheckedProgram) : p.preEmit.KeepsFiles := by
  unfold preEmit
  split
  · refine keepsFiles_bind (consult_keepsFiles _ p) fun a => ?_
    split <;> exact keepsFiles_pure _
  · exact keepsFiles_pure _

theorem emit_keepsFiles (p : CheckedProgram) : p.emit.KeepsFiles := by
  unfold emit
  split
  · refine keepsFiles_bind p.preEmit_keepsFiles fun a => ?_
    split <;> exact keepsFiles_pure _
  · exact keepsFiles_pure _

end CheckedProgram

theorem Compiler.engine_keepsFiles (compiler : Compiler) (checker : Option Path) :
    (compiler.engine checker).KeepsFiles where
  createProgram _ _ := keepsFiles_bind keepsFiles_get fun _ => keepsFiles_pure _
  preEmit := CheckedProgram.preEmit_keepsFiles
  syntaxErrors _ := keepsFiles_pure _
  emit := CheckedProgram.emit_keepsFiles
  transpile _ _ _ := keepsFiles_pure _

/-! ## The engine that works by rules -/

namespace Engine.Scripted

theorem consider_keepsFiles (source : String) : (consider source).KeepsFiles := by
  unfold consider
  split
  · exact keepsFiles_throw _
  · exact keepsFiles_pure _

theorem createProgram_keepsFiles (rootFiles : List Path) (options : Options) :
    (createProgram rootFiles options).KeepsFiles := by
  unfold createProgram
  refine keepsFiles_bind (keepsFiles_modify fun w => .refl w) fun _ => ?_
  refine keepsFiles_bind keepsFiles_get fun w => ?_
  refine keepsFiles_bind (keepsFiles_forIn (fun file _ => ?_) _ _) fun _ => keepsFiles_pure _
  exact keepsFiles_bind (consider_keepsFiles file.2.text) fun _ => keepsFiles_pure _

theorem transpile_keepsFiles (rules : List Rule) (source fileName : String) (options : Options) :
    (transpile rules source fileName options).KeepsFiles := by
  unfold transpile
  refine keepsFiles_bind (keepsFiles_modify fun w => .refl w) fun _ => ?_
  refine keepsFiles_bind (consider_keepsFiles source) fun _ => ?_
  split <;> exact keepsFiles_pure _

end Engine.Scripted

theorem Engine.scripted_keepsFiles (rules emitRules : List Rule) :
    (Engine.scripted rules emitRules).KeepsFiles where
  createProgram := Scripted.createProgram_keepsFiles
  preEmit _ := keepsFiles_pure _
  syntaxErrors _ := keepsFiles_pure _
  emit _ := keepsFiles_pure _
  transpile := Scripted.transpile_keepsFiles rules

end ScriptWorks
