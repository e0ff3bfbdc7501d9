import Trisort.Log.Journal

/-!
# Answers that more effort does not change

A computation that gives up for want of fuel says so by a particular failure. `x.Approximates e y`
states that `y` does the same as `x`, except that where `x` gives up with the failure `e`, `y` may
do anything. The relation is kept by everything computations are built from.
-/

namespace Trisort.Log.Logged

variable {ω ε α β : Type} {e : ε}

/-- Unless `x` fails with `e`, the two computations are the same. -/
def Approximates (e : ε) (x y : Logged ω ε α) : Prop := x.result ≠ .error e → y = x

/-- Every computation approximates itself. -/
theorem Approximates.refl (x : Logged ω ε α) : Approximates e x x := fun _ => rfl

/-- A computation that fails with `e` approximates every other. -/
theorem Approximates.of_result_eq {x y : Logged ω ε α} (h : x.result = .error e) :
    Approximates e x y := fun hx => absurd h hx

/-- Approximation is transitive. -/
theorem Approximates.trans {x y z : Logged ω ε α} (hxy : Approximates e x y)
    (hyz : Approximates e y z) : Approximates e x z := by
  intro hx
  have hy : y = x := hxy hx
  rw [hyz (hy ▸ hx), hy]

/-- Sequences approximate each other if their parts do. -/
theorem Approximates.bind {x y : Logged ω ε α} {f g : α → Logged ω ε β}
    (hxy : Approximates e x y) (hfg : ∀ a, Approximates e (f a) (g a)) :
    Approximates e (x >>= f) (y >>= g) := by
  intro h
  have hx : x.result ≠ .error e := by
    intro hx
    apply h
    rw [result_bind, hx]
    rfl
  rw [hxy hx]
  rcases x with ⟨j, e' | a⟩
  · rfl
  · have hf : (f a).result ≠ .error e := by
      rw [result_bind] at h
      exact h
    change andThen ⟨j, .ok a⟩ g = andThen ⟨j, .ok a⟩ f
    simp only [andThen, hfg a hf]

/-- Maps over a list approximate each other if they do so at each element. -/
theorem Approximates.mapList {f g : α → Logged ω ε β} (h : ∀ a, Approximates e (f a) (g a))
    (as : List α) : Approximates e (Logged.mapList f as) (Logged.mapList g as) := by
  induction as with
  | nil => exact .refl _
  | cons a as ih => exact .bind (h a) fun b => .bind ih fun bs => .refl _

/-- Loops over a list approximate each other if their bodies do. -/
theorem Approximates.forM {f g : α → Logged ω ε PUnit} (h : ∀ a, Approximates e (f a) (g a))
    (as : List α) : Approximates e (as.forM f) (as.forM g) := by
  induction as with
  | nil => exact .refl _
  | cons a as ih => exact .bind (h a) fun _ => ih

/-- Approximation is kept when failures are seen as failures of another kind. -/
theorem Approximates.mapFailure {ε' : Type} {k : ε → ε'} {x y : Logged ω ε α}
    (h : Approximates e x y) : Approximates (k e) (x.mapFailure k) (y.mapFailure k) := by
  intro hx
  have hx' : x.result ≠ .error e := by
    intro h'
    exact hx (by rw [result_mapFailure, h']; rfl)
  rw [h hx']

end Trisort.Log.Logged
