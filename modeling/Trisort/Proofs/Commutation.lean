import Trisort.Proofs.AlphaEquivalence

/-!
# Filling a binder, then shifting or substituting

A binder labelled `x` is filled, and then a variable `v` of the outcome is replaced, or the outcome
is shifted up over `v`. The same term comes of doing this first, to the argument as it stands and to
the body with `v` as it is seen from under the binder. And a term that is shifted over a binder does
not change when the binder is filled.

These are equations between terms, labels included. They follow from equations between nameless
terms, because the form of a term with its labels determines the term (`eq_of_form_eq`). The forms
are taken in a scope that has as many binders of the name of `v` as `v` passes over, so that
replacing `v` is replacing the variable of the next binder, and shifting over `v` is making room for
binders behind those. Which labels are crossed on the way to an occurrence, and whether `v` has the
name `x`, is accounted for by the forms.
-/

namespace Trisort

namespace Var

/-- As many binders of the name of the variable as its index says. It refers to the next one behind
these. -/
def skipped (v : Var) : Scope := List.replicate v.index v.name

/-- A scope in which the variable refers to the last binder. -/
def reach (v : Var) : Scope := v.skipped ++ [v.name]

/-- The index of a variable counts the binders of its name that it passes over. -/
theorem index_eq_count_skipped (v : Var) : v.index = v.skipped.count v.name :=
  List.count_replicate_self.symm

end Var

namespace Term

open Nameless

variable {x : Label} {v v' : Var} {b b' a a' c c' t l r : Term}

/-! ### Substitution -/

/-- Replacing a variable is replacing that of the last binder. -/
theorem form_subst_reach (m : Marking) (h : t.subst v c = .ok l) :
    l.form m v.reach =
      (t.form m v.reach).substitute (replace v.skipped.length (c.form m v.reach)) :=
  form_subst m v.skipped v.index_eq_count_skipped h

/-- Under a binder, a replacement that was carried there is the nameless one lifted. -/
theorem form_subst_reach_under (m : Marking) (hv : v.under x = .ok v')
    (hc : c.shift 1 (.nearest x) = .ok c') (hb : b.subst v' c' = .ok b') :
    b'.form m (x :: v.reach) = (b.form m (x :: v.reach)).substitute
      (lift (replace v.skipped.length (c.form m v.reach))) := by
  obtain ⟨hname, hindex⟩ := behind_under v.index_eq_count_skipped hv
  rw [← hname] at hindex
  have hform : b'.form m (x :: v.skipped ++ [v'.name]) = _ :=
    form_subst m (x :: v.skipped) hindex hb
  rw [hname] at hform
  rw [lift_replace, ← form_shift_nearest m hc]
  exact hform

/-- A variable may be replaced before a binder is filled or after that. -/
theorem subst_instantiate (ht : b.instantiate x a = .ok t) (hl : t.subst v c = .ok l)
    (hv : v.under x = .ok v') (hc : c.shift 1 (.nearest x) = .ok c') (hb : b.subst v' c' = .ok b')
    (ha : a.subst v c = .ok a') (hr : b'.instantiate x a' = .ok r) : l = r := by
  apply eq_of_form_eq (Γ := v.reach)
  -- Both sides are forms of `b` and `a`, and the nameless substitution lemma equates them.
  rw [form_subst_reach .labelled hl, form_instantiate .labelled ht, substitute_instantiate,
    ← form_subst_reach_under .labelled hv hc hb, ← form_subst_reach .labelled ha,
    form_instantiate .labelled hr]

/-! ### Shifting up -/

/-- A term corresponds to the term shifted up: there are new binders behind those that the cutoff
passes over. -/
theorem corresponds_shift_up (m : Marking) {n : Nat} (h : t.shift n v = .ok l) :
    Corresponds m (insertion v.skipped.length)^[n] v.skipped
      (v.skipped ++ List.replicate n v.name) t l := by
  have hform := form_shift_by m v.skipped [] v.index_eq_count_skipped h
  rwa [List.append_nil, List.append_nil] at hform

/-- Seen from under a binder, a shift up makes room behind the binders that are skipped. -/
theorem corresponds_shift_up_under (m : Marking) {n : Nat} (hv : v.under x = .ok v')
    (h : b.shift n v' = .ok b') :
    Corresponds m (liftRenaming (insertion v.skipped.length)^[n]) (x :: v.skipped)
      (x :: (v.skipped ++ List.replicate n v.name)) b b' := by
  obtain ⟨hname, hindex⟩ := behind_under v.index_eq_count_skipped hv
  rw [← hname] at hindex
  have hform := form_shift_by m (x :: v.skipped) [] hindex h
  rw [List.append_nil, List.append_nil, hname, List.length_cons, insertion,
    ← liftRenaming_iterate] at hform
  exact hform

/-- A term may be shifted up before a binder is filled or after that. -/
theorem shift_instantiate {n : Nat} (ht : b.instantiate x a = .ok t) (hl : t.shift n v = .ok l)
    (hv : v.under x = .ok v') (hb : b.shift n v' = .ok b') (ha : a.shift n v = .ok a')
    (hr : b'.instantiate x a' = .ok r) : l = r := by
  have hbody := corresponds_shift_up_under .labelled hv hb
  have hargument := corresponds_shift_up .labelled ha
  exact (corresponds_shift_up .labelled hl).unique (hbody.instantiate hargument ht hr)

/-! ### Filling a binder that nothing refers to -/

/-- Filling a binder gives back the term that was shifted over it. -/
theorem instantiate_shift_nearest (ht : t.shift 1 (.nearest x) = .ok b)
    (hr : b.instantiate x a = .ok r) : r = t := by
  apply eq_of_form_eq (Γ := [])
  rw [form_instantiate .labelled hr, form_shift_nearest .labelled ht, instantiate_weaken]

/-- **The substitution lemma.** Whenever the operations involved return, filling a binder labelled
`x` and then replacing a variable `v`, or shifting up over it, gives the same term as doing this to
the body and to the argument and then filling the binder, where the body sees `v` and the value of
the replacement from under the binder. Filling the binder of a term that was shifted over it gives
the term back. -/
theorem instantiate_commutes (x : Label) (v : Var) :
    (∀ b a c l r : Term,
      (do (← b.instantiate x a).subst v c) = .ok l →
      (do (← b.subst (← v.under x) (← c.shift 1 (.nearest x))).instantiate x (← a.subst v c)) =
        .ok r → l = r) ∧
    (∀ (b a l r : Term) (δ : Int), 0 ≤ δ →
      (do (← b.instantiate x a).shift δ v) = .ok l →
      (do (← b.shift δ (← v.under x)).instantiate x (← a.shift δ v)) = .ok r → l = r) ∧
    ∀ t a r : Term, (do (← t.shift 1 (.nearest x)).instantiate x a) = .ok r → r = t := by
  simp only [bind_eq_ok_iff]
  refine ⟨?_, ?_, ?_⟩
  · rintro b a c l r ⟨t, ht, hl⟩ ⟨v', hv, c', hc, b', hb, a', ha, hr⟩
    exact subst_instantiate ht hl hv hc hb ha hr
  · rintro b a l r δ hδ ⟨t, ht, hl⟩ ⟨v', hv, b', hb, a', ha, hr⟩
    obtain ⟨n, rfl⟩ := Int.eq_ofNat_of_zero_le hδ
    exact shift_instantiate ht hl hv hb ha hr
  · rintro t a r ⟨b, hb, hr⟩
    exact instantiate_shift_nearest hb hr

/-- `λ(x : x) → x@1 x@2 y`. Under a binder `x` to be filled, the type and `x@1` are its variable,
and `x@2` is the free variable `x`. -/
def recurring : Term :=
  .lam "x" (.nearby "x" 0) (.app (.app (.nearby "x" 1) (.nearby "x" 2)) (.nearby "y" 0))

/-- The argument `x y`. -/
def recurringArgument : Term := .app (.nearby "x" 0) (.nearby "y" 0)

/-- The value `λ(y : x) → x y`. -/
def recurringValue : Term := .lam "y" (.nearby "x" 0) (.app (.nearby "x" 0) (.nearby "y" 0))

/-- `λ(x : (λ(y : x) → x y) y) → ((λ(y : x@1) → x@1 y) y) (λ(y : x@1) → x@1 y) y`. -/
def recurringReplaced : Term :=
  .lam "x" (.app recurringValue (.nearby "y" 0))
    (.app (.app (.app
      (.lam "y" (.nearby "x" 1) (.app (.nearby "x" 1) (.nearby "y" 0))) (.nearby "y" 0))
      (.lam "y" (.nearby "x" 1) (.app (.nearby "x" 1) (.nearby "y" 0)))) (.nearby "y" 0))

/-- `λ(x : x@2 y) → (x@3 y) x@3 y`. -/
def recurringShifted : Term :=
  .lam "x" (.app (.nearby "x" 2) (.nearby "y" 0))
    (.app (.app (.app (.nearby "x" 3) (.nearby "y" 0)) (.nearby "x" 3)) (.nearby "y" 0))

/-- All three laws at a body whose own binder has the name of the variable. -/
theorem instantiate_commutes_recurring :
    ((do (← recurring.instantiate "x" recurringArgument).subst (.nearest "x") recurringValue) =
        .ok recurringReplaced ∧
      ∃ r, (do
        (← recurring.subst (← (Var.nearest "x").under "x")
          (← recurringValue.shift 1 (.nearest "x"))).instantiate "x"
          (← recurringArgument.subst (.nearest "x") recurringValue)) = .ok r ∧
        recurringReplaced = r) ∧
    ((do (← recurring.instantiate "x" recurringArgument).shift 2 (.nearest "x")) =
        .ok recurringShifted ∧
      ∃ r, (do
        (← recurring.shift 2 (← (Var.nearest "x").under "x")).instantiate "x"
          (← recurringArgument.shift 2 (.nearest "x"))) = .ok r ∧
        recurringShifted = r) ∧
    ∃ r, (do (← recurring.shift 1 (.nearest "x")).instantiate "x" recurringArgument) = .ok r ∧
      r = recurring := by
  have hsubst : (do
      (← recurring.instantiate "x" recurringArgument).subst (.nearest "x") recurringValue) =
      .ok recurringReplaced := by decide +kernel
  have hsubst' : (do
      (← recurring.subst (← (Var.nearest "x").under "x")
        (← recurringValue.shift 1 (.nearest "x"))).instantiate "x"
        (← recurringArgument.subst (.nearest "x") recurringValue)) =
      .ok recurringReplaced := by decide +kernel
  have hshift : (do (← recurring.instantiate "x" recurringArgument).shift 2 (.nearest "x")) =
      .ok recurringShifted := by decide +kernel
  have hshift' : (do
      (← recurring.shift 2 (← (Var.nearest "x").under "x")).instantiate "x"
        (← recurringArgument.shift 2 (.nearest "x"))) = .ok recurringShifted := by decide +kernel
  have hback : (do (← recurring.shift 1 (.nearest "x")).instantiate "x" recurringArgument) =
      .ok recurring := by decide +kernel
  obtain ⟨h₁, h₂, h₃⟩ := instantiate_commutes "x" (.nearest "x")
  exact ⟨⟨hsubst, _, hsubst', h₁ _ _ _ _ _ hsubst hsubst'⟩,
    ⟨hshift, _, hshift', h₂ _ _ _ _ 2 (by decide) hshift hshift'⟩, _, hback, h₃ _ _ _ hback⟩

end Term

end Trisort
