/-!
# Computations that may fail

A sequence of computations succeeds exactly if each of them does, each on the value of the one
before, and it fails with the failure of the first that does not. These lemmas take such a sequence
apart.
-/

namespace Trisort

variable {ε α β : Type}

/-- A computation that only returns a value succeeds with that value. -/
@[simp] theorem pure_eq_ok_iff {a b : α} : (pure a : Except ε α) = .ok b ↔ a = b := by
  simp [pure, Except.pure]

/-- A sequence succeeds exactly if its first part does and the second does on the value of the
first. -/
@[simp] theorem bind_eq_ok_iff {x : Except ε α} {f : α → Except ε β} {b : β} :
    x >>= f = .ok b ↔ ∃ a, x = .ok a ∧ f a = .ok b := by
  cases x <;> simp [bind, Except.bind]

/-- A computation that only returns a value does not fail. -/
@[simp] theorem pure_ne_error {a : α} {e : ε} : (pure a : Except ε α) ≠ .error e := nofun

/-- A sequence fails with the failure of its first part, or else with that of the second. -/
theorem bind_eq_error_iff {x : Except ε α} {f : α → Except ε β} {e : ε} :
    x >>= f = .error e ↔ x = .error e ∨ ∃ a, x = .ok a ∧ f a = .error e := by
  cases x <;> simp [bind, Except.bind]

/-- Success does not depend on how failures are named. -/
@[simp] theorem mapError_eq_ok_iff {ε' : Type} {k : ε → ε'} {x : Except ε α} {a : α} :
    x.mapError k = .ok a ↔ x = .ok a := by
  cases x with
  | error e => exact ⟨nofun, nofun⟩
  | ok b =>
    show (.ok b : Except ε' α) = .ok a ↔ _
    rw [Except.ok.injEq, Except.ok.injEq]

end Trisort
