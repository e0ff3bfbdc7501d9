import Trisort.Log.Journal
import Mathlib.Data.List.Forall2

/-!
# Two runs side by side

`Agree τ R x y` compares how two computations end. If both end with a value, the values are related
by `R`. If both fail, the failures count as the same. One failure excuses everything: a run that
meets a fault is not compared with the other. What counts as a fault and which failures are the same
is laid down by the tolerance `τ`.

The relation is kept by everything computations are built from, so two runs of one algorithm on
related inputs are compared step by step.
-/

namespace Trisort.Log.Logged

/-- Which failures are compared, and how. -/
structure Tolerance (ε : Type) where
  /-- A run that fails in this way is not compared. -/
  Fault : ε → Prop
  /-- The failures count as the same. -/
  Same : ε → ε → Prop

variable {ω ε ε' α β γ δ : Type} {τ : Tolerance ε}

/-- The two computations end in the same way, up to what is tolerated. -/
inductive Agree (τ : Tolerance ε) (R : α → β → Prop) (x : Logged ω ε α) (y : Logged ω ε β) : Prop
  | ok {a : α} {b : β} (hx : x.result = .ok a) (hy : y.result = .ok b) (h : R a b)
  | error {e e' : ε} (hx : x.result = .error e) (hy : y.result = .error e') (h : τ.Same e e')
  | faultLeft {e : ε} (hx : x.result = .error e) (h : τ.Fault e)
  | faultRight {e : ε} (hy : y.result = .error e) (h : τ.Fault e)

namespace Agree

variable {R : α → β → Prop} {S : γ → δ → Prop} {x : Logged ω ε α} {y : Logged ω ε β}

/-- Two computations that only return related values agree. -/
protected theorem pure {a : α} {b : β} (h : R a b) :
    Agree τ R (pure a : Logged ω ε α) (pure b) :=
  .ok rfl rfl h

/-- Two computations that only fail agree if the failures count as the same. -/
protected theorem fail {e e' : ε} (h : τ.Same e e') :
    Agree τ R (fail e : Logged ω ε α) (fail e' : Logged ω ε β) :=
  .error rfl rfl h

/-- Recordings of single events agree, whatever the events are. -/
protected theorem record (e e' : ω) :
    Agree τ (fun _ _ => True) (record e : Logged ω ε Unit) (record e') :=
  .ok rfl rfl trivial

/-- Only the results count. -/
theorem of_result_eq {x' : Logged ω ε α} {y' : Logged ω ε β} (h : Agree τ R x y)
    (hx : x'.result = x.result) (hy : y'.result = y.result) : Agree τ R x' y' := by
  rcases h with ⟨hx', hy', h⟩ | ⟨hx', hy', h⟩ | ⟨hx', h⟩ | ⟨hy', h⟩
  · exact .ok (hx.trans hx') (hy.trans hy') h
  · exact .error (hx.trans hx') (hy.trans hy') h
  · exact .faultLeft (hx.trans hx') h
  · exact .faultRight (hy.trans hy') h

/-- What is known of the values may be used to relate them in another way. -/
theorem mono {R' : α → β → Prop} (h : Agree τ R x y)
    (hR : ∀ a b, x.result = .ok a → y.result = .ok b → R a b → R' a b) : Agree τ R' x y := by
  rcases h with ⟨hx, hy, h⟩ | ⟨hx, hy, h⟩ | ⟨hx, h⟩ | ⟨hy, h⟩
  · exact .ok hx hy (hR _ _ hx hy h)
  · exact .error hx hy h
  · exact .faultLeft hx h
  · exact .faultRight hy h

/-- Sequences agree if their first parts do, and their second parts do on related values. -/
theorem bind {f : α → Logged ω ε γ} {g : β → Logged ω ε δ} (h : Agree τ R x y)
    (hfg : ∀ a b, R a b → Agree τ S (f a) (g b)) : Agree τ S (x >>= f) (y >>= g) := by
  have herror {α γ : Type} {x : Logged ω ε α} {e : ε} (f : α → Logged ω ε γ)
      (hx : x.result = .error e) : (x >>= f).result = .error e := by
    rw [result_bind, hx]
    rfl
  have hok {α γ : Type} {x : Logged ω ε α} {a : α} (f : α → Logged ω ε γ)
      (hx : x.result = .ok a) : (x >>= f).result = (f a).result := by
    rw [result_bind, hx]
    rfl
  rcases h with ⟨hx, hy, h⟩ | ⟨hx, hy, h⟩ | ⟨hx, h⟩ | ⟨hy, h⟩
  · exact (hfg _ _ h).of_result_eq (hok f hx) (hok g hy)
  · exact .error (herror f hx) (herror g hy) h
  · exact .faultLeft (herror f hx) h
  · exact .faultRight (herror g hy) h

/-- Agreement is kept when failures are seen as failures of another kind, by a map that respects the
tolerances. -/
theorem mapFailure {τ' : Tolerance ε'} {k : ε → ε'} (h : Agree τ R x y)
    (hfault : ∀ e, τ.Fault e → τ'.Fault (k e))
    (hsame : ∀ e e', τ.Same e e' → τ'.Same (k e) (k e')) :
    Agree τ' R (x.mapFailure k) (y.mapFailure k) := by
  rcases h with ⟨hx, hy, h⟩ | ⟨hx, hy, h⟩ | ⟨hx, h⟩ | ⟨hy, h⟩
  · exact .ok (by rw [result_mapFailure, hx]; rfl) (by rw [result_mapFailure, hy]; rfl) h
  · exact .error (by rw [result_mapFailure, hx]; rfl) (by rw [result_mapFailure, hy]; rfl)
      (hsame _ _ h)
  · exact .faultLeft (by rw [result_mapFailure, hx]; rfl) (hfault _ h)
  · exact .faultRight (by rw [result_mapFailure, hy]; rfl) (hfault _ h)

/-- Computations whose failures are all faults agree as soon as their values do. -/
theorem ofExcept {x : Except ε α} {y : Except ε β} (hx : ∀ e, x = .error e → τ.Fault e)
    (hy : ∀ e, y = .error e → τ.Fault e) (h : ∀ a b, x = .ok a → y = .ok b → R a b) :
    Agree τ R (ofExcept x : Logged ω ε α) (ofExcept y) := by
  rcases x with e | a
  · exact .faultLeft rfl (hx e rfl)
  · rcases y with e | b
    · exact .faultRight rfl (hy e rfl)
    · exact .ok rfl rfl (h a b rfl rfl)

/-- Maps over related lists agree if they do so at related elements. -/
theorem mapList {P : α → β → Prop} {f : α → Logged ω ε γ} {g : β → Logged ω ε δ} {as : List α}
    {bs : List β} (h : List.Forall₂ P as bs) (hfg : ∀ a b, P a b → Agree τ S (f a) (g b)) :
    Agree τ (List.Forall₂ S) (Logged.mapList f as) (Logged.mapList g bs) := by
  induction h with
  | nil => exact .pure .nil
  | cons hab _ ih =>
    refine .bind (hfg _ _ hab) fun c d hcd => .bind ih fun cs ds hcds => ?_
    exact .pure (.cons hcd hcds)

/-- Loops over related lists agree if their bodies do at related elements. -/
theorem forM {P : α → β → Prop} {f : α → Logged ω ε PUnit} {g : β → Logged ω ε PUnit}
    {as : List α} {bs : List β} (h : List.Forall₂ P as bs)
    (hfg : ∀ a b, P a b → Agree τ Eq (f a) (g b)) : Agree τ Eq (as.forM f) (bs.forM g) := by
  induction h with
  | nil => exact .pure rfl
  | cons hab _ ih => exact .bind (hfg _ _ hab) fun _ _ _ => ih

end Agree

end Trisort.Log.Logged
