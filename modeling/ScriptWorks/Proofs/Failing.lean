/-!
# Computations that can fail

How a sequence of steps comes to its result.
-/

namespace ScriptWorks

variable {ε α β : Type}

/-- A sequence succeeds if its first step does and the rest does with its result. -/
theorem bind_eq_ok {x : Except ε α} {f : α → Except ε β} {b : β} :
    (x >>= f) = .ok b ↔ ∃ a, x = .ok a ∧ f a = .ok b := by
  cases x <;> simp [bind, Except.bind]

@[simp] theorem throw_eq_error {e : ε} : (throw e : Except ε α) = .error e := rfl

@[simp] theorem error_bind {e : ε} {f : α → Except ε β} : (Except.error e >>= f) = .error e := rfl

@[simp] theorem ok_bind {a : α} {f : α → Except ε β} : (Except.ok a >>= f) = f a := rfl

theorem map_eq_ok {x : Except ε α} {f : α → β} {b : β} :
    x.map f = .ok b ↔ ∃ a, x = .ok a ∧ f a = b := by
  cases x <;> simp [Except.map]

theorem toOption_eq_some {x : Except ε α} {a : α} : x.toOption = some a ↔ x = .ok a := by
  cases x <;> simp [Except.toOption]

theorem exists_of_isOk {x : Except ε α} (h : x.isOk = true) : ∃ a, x = .ok a := by
  cases x with
  | error e => cases h
  | ok a => exact ⟨a, rfl⟩

/-- What a computation gives along with a state, when it gives something. -/
theorem eq_ok_of_toOption {σ : Type} {x : Except ε α × σ} {a : α} (h : x.1.toOption = some a) :
    x = (.ok a, x.2) := Prod.ext (toOption_eq_some.mp h) rfl

/-- What is known of a result shows that there is one. -/
theorem exists_ok_of_toOption_map {σ : Type} {x : Except ε α × σ} {f : α → β} {b : β}
    (h : x.1.toOption.map f = some b) : ∃ a s, x = (.ok a, s) ∧ f a = b := by
  obtain ⟨a, ha, hb⟩ := Option.map_eq_some_iff.mp h
  exact ⟨a, x.2, eq_ok_of_toOption ha, hb⟩

end ScriptWorks
