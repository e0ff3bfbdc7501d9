import Trisort.Label

/-!
# Variables

A variable is a name together with an index: `x@i` refers to the `i`-th enclosing binder labelled
`x`, counted from the inside out. Binders with other labels do not count. An index lies below
`2 ^ 32`, and the two operations that change one fail rather than leave that range. For `Var.under`,
which only adds one, this is a choice: a plain increment is read with overflow checks, so at the
largest index it fails, where without them it would wrap around to `0`.
-/

namespace Trisort

/-- Indices are smaller than this bound. -/
def Var.indexBound : Nat := 0x1_0000_0000

/-- The variable `name@index`. -/
structure Var where
  /-- The label of the binders that count. -/
  name : Label
  /-- How many binders labelled `name` lie between the occurrence and the one it refers to. -/
  index : Nat
  /-- The index is in range. -/
  index_lt : index < Var.indexBound
deriving DecidableEq

/-- Why an index could not be changed. -/
inductive IndexFault where
  /-- Moving the occurrence `v` by `δ` gives no valid index. -/
  | outOfScope (v : Var) (δ : Int)
  /-- A variable with the largest index was carried under one more binder of its name. -/
  | overflow
deriving DecidableEq

namespace Var

/-- Two variables with the same name and the same index are equal. -/
@[ext] theorem ext {v w : Var} (hname : v.name = w.name) (hindex : v.index = w.index) : v = w := by
  cases v; cases w; simp_all

/-- The variable that refers to the nearest binder labelled `x`. -/
def nearest (x : Label) : Var := ⟨x, 0, by decide⟩

@[simp] theorem nearest_name (x : Label) : (nearest x).name = x := rfl

@[simp] theorem nearest_index (x : Label) : (nearest x).index = 0 := rfl

/-- The same variable as seen from under a binder labelled `x`: if `x` is its own name, there is one
more binder to count. -/
def under (v : Var) (x : Label) : Except IndexFault Var :=
  if v.name = x then
    if h : v.index + 1 < indexBound then .ok ⟨v.name, v.index + 1, h⟩ else .error .overflow
  else .ok v

/-- The variable with its index moved by `δ`. -/
def move (v : Var) (δ : Int) : Except IndexFault Var :=
  if h : 0 ≤ v.index + δ ∧ v.index + δ < indexBound then
    .ok ⟨v.name, (v.index + δ).toNat, by omega⟩
  else .error (.outOfScope v δ)

/-- `x` for the nearest `x`, and `x@i` for the others. -/
def display (v : Var) : String :=
  if v.index = 0 then v.name else v.name ++ "@" ++ toString v.index

/-- Going under a binder keeps the name, and counts the binder exactly if it has that name. -/
theorem under_eq_ok_iff {v w : Var} {x : Label} :
    v.under x = .ok w ↔
      w.name = v.name ∧ w.index = v.index + if v.name = x then 1 else 0 := by
  unfold under
  split
  · split
    · simp only [Except.ok.injEq, Var.ext_iff, eq_comm]
    · have := w.index_lt
      simp only [reduceCtorEq, false_iff]
      omega
  · simp only [Except.ok.injEq, Var.ext_iff, eq_comm, Nat.add_zero]

/-- A variable cannot go under a binder exactly if it has the largest index and the binder's
name. -/
theorem under_eq_error_iff {v : Var} {x : Label} {e : IndexFault} :
    v.under x = .error e ↔ e = .overflow ∧ v.name = x ∧ v.index + 1 = indexBound := by
  have := v.index_lt
  unfold under
  split
  · split
    · simp only [reduceCtorEq, false_iff]
      omega
    · simp only [Except.error.injEq]
      constructor
      · rintro rfl
        exact ⟨rfl, by assumption, by omega⟩
      · rintro ⟨rfl, -⟩
        rfl
  · simp_all

/-- Moving an index is integer addition. -/
theorem move_eq_ok_iff {v w : Var} {δ : Int} :
    v.move δ = .ok w ↔ w.name = v.name ∧ (w.index : Int) = v.index + δ := by
  unfold move
  split
  · simp only [Except.ok.injEq, Var.ext_iff, eq_comm, and_congr_right_iff]
    omega
  · have := w.index_lt
    simp only [reduceCtorEq, false_iff]
    omega

/-- An index cannot be moved exactly if the sum is out of range, and the fault names the
variable. -/
theorem move_eq_error_iff {v : Var} {δ : Int} {e : IndexFault} :
    v.move δ = .error e ↔
      e = .outOfScope v δ ∧ ((v.index : Int) + δ < 0 ∨ (indexBound : Int) ≤ v.index + δ) := by
  unfold move
  split
  · simp only [reduceCtorEq, false_iff]
    omega
  · simp only [Except.error.injEq]
    constructor
    · rintro rfl
      exact ⟨rfl, by omega⟩
    · rintro ⟨rfl, -⟩
      rfl

end Var

namespace IndexFault

/-- The fault in words. -/
def message : IndexFault → String
  | outOfScope v δ => "shifting " ++ v.display ++ " by " ++ toString δ ++ " takes it out of scope"
  | overflow => "attempt to add with overflow"

end IndexFault

end Trisort
