import Trisort.Normalization.Fuel
import Trisort.Proofs.Commutation
import Trisort.Proofs.Faults
import Trisort.Proofs.Lockstep

/-!
# Normalization does not look at names

Normalization shifts and substitutes on names and indices, so it might depend on the labels of the
binders and on where a variable was declared. It does not. Terms that correspond to each other are
normalized in lockstep (`normalize_agree`), so if one of them has a normal form, the other run ends
too, with a term that corresponds to it or because an index had to grow beyond the largest one
(`normalize_of_corresponds`).

There are two ways in which terms correspond to each other here. Terms that differ only in the
labels of their binders do so if labels do not count. A term and the term shifted up do so even if
labels count, and then the outcome is not just some term that corresponds to the normal form: it is
the normal form shifted up.
-/

namespace Trisort.Term

open Nameless

variable {m : Marking} {ξ : Nat → Nat} {Γ Δ : Scope} {fuel n : Nat} {t t' u w : Term}

/-- What a term normalizes to is found for every term that corresponds to it, unless an index had to
grow beyond the largest one. -/
theorem normalize_of_corresponds (h : Corresponds m ξ Γ Δ t t')
    (hu : (t.normalize fuel).result = .ok u) (hn : fuel ≤ n) :
    (∃ u', (t'.normalize n).result = .ok u' ∧ Corresponds m ξ Γ Δ u u') ∨
      ∃ e, (t'.normalize n).result = .error (.fault e) ∧ e.AtTop := by
  replace hu := normalize_ok_of_le hn hu
  have hagree : SameForm m ξ Γ Δ (t.normalize n) (t'.normalize n) := normalize_agree h
  rcases hagree with ⟨hx, hy, hcorr⟩ | ⟨hx, -, -⟩ | ⟨hx, -⟩ | ⟨hy, e, rfl⟩
  · rw [hu] at hx
    obtain rfl := Except.ok.inj hx
    exact .inl ⟨_, hy, hcorr⟩
  · rw [hu] at hx
    cases hx
  · rw [hu] at hx
    cases hx
  · exact .inr ⟨e, hy, normalize_atTop n t' _ hy⟩

/-! ### Labels of binders -/

/-- Terms that differ in labels only have normal forms that differ in labels only. -/
theorem resolve_normalize_eq {k : Nat} {u' : Term} (h : t.resolve [] = t'.resolve [])
    (hu : (t.normalize fuel).result = .ok u) (hu' : (t'.normalize k).result = .ok u') :
    u.resolve [] = u'.resolve [] := by
  have hmore := normalize_ok_of_le (Nat.le_max_right fuel k) hu'
  rcases normalize_of_corresponds (corresponds_of_resolve_eq h) hu (Nat.le_max_left fuel k) with
    ⟨w, hw, hcorr⟩ | ⟨e, he, -⟩
  · obtain rfl := normalize_unique hu' hw
    exact (hcorr.resolve.trans (rename_id _)).symm
  · rw [hmore] at he
    cases he

/-- **Normalization respects the renaming of bound variables.** Let two terms have the same nameless
form. If the one has a normal form, normalizing the other ends as well: with as much fuel or more,
it gives a term with the same nameless form, or else an index had to grow beyond the largest one. So
the form by which a term is compared is that of its anonymous form. -/
theorem normalize_respects_relabelling :
    (∀ (a b u : Term) (fuel : Nat), a.resolve [] = b.resolve [] →
      (a.normalize fuel).result = .ok u → ∀ n, fuel ≤ n →
        (∃ u', (b.normalize n).result = .ok u' ∧ u'.resolve [] = u.resolve []) ∨
          ∃ e, (b.normalize n).result = .error (.fault e) ∧ e.AtTop) ∧
    ∀ (t t' w w' : Term) (m n : Nat), t.anonymize = .ok t' → (t.canonical m).result = .ok w →
      (t'.canonical n).result = .ok w' → w = w' := by
  constructor
  · intro a b u fuel h hu n hn
    rcases normalize_of_corresponds (corresponds_of_resolve_eq h) hu hn with
      ⟨u', hu', hcorr⟩ | hfault
    · exact .inl ⟨u', hu', hcorr.resolve.trans (rename_id _)⟩
    · exact .inr hfault
  · intro t t' w w' m n ht' hw hw'
    simp only [canonical, Log.Logged.bind_result_eq_ok_iff, liftM_result_eq_ok_iff] at hw hw'
    obtain ⟨u, hu, hw⟩ := hw
    obtain ⟨u', hu', hw'⟩ := hw'
    refine (anonymize_eq_iff hw hw' []).mpr ?_
    exact resolve_normalize_eq (resolve_anonymize ht' []).symm hu hu'

/-- `y@i y@j`. -/
def juxtaposed (i j : Nat) : Term := .app (.nearby "y" i) (.nearby "y" j)

/-- `(λ(x : Natural) → λ(y : x) → x@i y x@i) a`, which copies the argument under a binder. -/
def duplicating (x y : Label) (i : Nat) (a : Term) : Term :=
  .app (.lam x (.const .naturalType)
    (.lam y (.nearby x 0) (.app (.app (.nearby x i) (.nearby y 0)) (.nearby x i)))) a

/-- `λ(y : a) → b y b`. -/
def duplicated (y : Label) (a b : Term) : Term := .lam y a (.app (.app b (.nearby y 0)) b)

/-- The argument is copied under a binder that has the name of its variables in one of the two
terms. -/
theorem normalize_respects_relabelling_duplicating :
    ((duplicating "x" "y" 0 (juxtaposed 0 1)).resolve [] =
        (duplicating "y" "x" 0 (juxtaposed 0 1)).resolve [] ∧
      ((duplicating "x" "y" 0 (juxtaposed 0 1)).normalize 8).result =
        .ok (duplicated "y" (juxtaposed 0 1) (juxtaposed 1 2)) ∧
      ∃ u', ((duplicating "y" "x" 0 (juxtaposed 0 1)).normalize 8).result = .ok u' ∧
        u'.resolve [] = (duplicated "y" (juxtaposed 0 1) (juxtaposed 1 2)).resolve []) ∧
    ((duplicating "x" "y" 0 (juxtaposed 0 1)).anonymize =
        .ok (duplicating "_" "_" 1 (juxtaposed 0 1)) ∧
      ∃ w w', ((duplicating "x" "y" 0 (juxtaposed 0 1)).canonical 8).result = .ok w ∧
        ((duplicating "_" "_" 1 (juxtaposed 0 1)).canonical 8).result = .ok w' ∧ w = w') := by
  have hsame : (duplicating "x" "y" 0 (juxtaposed 0 1)).resolve [] =
      (duplicating "y" "x" 0 (juxtaposed 0 1)).resolve [] := rfl
  have hnormal : ((duplicating "x" "y" 0 (juxtaposed 0 1)).normalize 8).result =
      .ok (duplicated "y" (juxtaposed 0 1) (juxtaposed 1 2)) := by decide +kernel
  have hreturns : ((duplicating "y" "x" 0 (juxtaposed 0 1)).normalize 8).result.isOk = true := by
    decide +kernel
  have hanonymize : (duplicating "x" "y" 0 (juxtaposed 0 1)).anonymize =
      .ok (duplicating "_" "_" 1 (juxtaposed 0 1)) := by decide +kernel
  have hcanonical : ((duplicating "x" "y" 0 (juxtaposed 0 1)).canonical 8).result =
      .ok (duplicated "_" (juxtaposed 0 1) (juxtaposed 0 1)) := by decide +kernel
  have hcanonical' : ((duplicating "_" "_" 1 (juxtaposed 0 1)).canonical 8).result =
      .ok (duplicated "_" (juxtaposed 0 1) (juxtaposed 0 1)) := by decide +kernel
  obtain ⟨hrelabelled, hanonymous⟩ := normalize_respects_relabelling
  refine ⟨⟨hsame, hnormal, ?_⟩, hanonymize, _, _, hcanonical, hcanonical',
    hanonymous _ _ _ _ _ _ hanonymize hcanonical hcanonical'⟩
  rcases hrelabelled _ _ _ _ hsame hnormal 8 (Nat.le_refl 8) with hok | ⟨e, he, -⟩
  · exact hok
  · rw [he] at hreturns
    cases hreturns

/-! ### Shifting up -/

/-- **Normalization commutes with shifting up.** Let a term have a normal form, and let both be
shifted up over the same variable. Normalizing the shifted term ends: with as much fuel or more, it
gives exactly the shifted normal form, labels included, or else an index had to grow beyond the
largest one. -/
theorem normalize_shift_up {δ : Int} {v : Var} (hδ : 0 ≤ δ)
    (hu : (t.normalize fuel).result = .ok u) (ht' : t.shift δ v = .ok t')
    (hw : u.shift δ v = .ok w) (hn : fuel ≤ n) :
    (t'.normalize n).result = .ok w ∨
      ∃ e, (t'.normalize n).result = .error (.fault e) ∧ e.AtTop := by
  obtain ⟨k, rfl⟩ := Int.eq_ofNat_of_zero_le hδ
  rcases normalize_of_corresponds (corresponds_shift_up .labelled ht') hu hn with
    ⟨u', hu', hcorr⟩ | hfault
  · rw [hu', hcorr.unique (corresponds_shift_up .labelled hw)]
    exact .inl rfl
  · exact .inr hfault

theorem one_lt_indexBound : 1 < Var.indexBound := by decide

/-- The variable `y@1`. -/
def secondY : Var := ⟨"y", 1, one_lt_indexBound⟩

/-- Under the binder `y` the cutoff `y@1` is `y@2`, both before and after normalization. -/
theorem normalize_shift_up_duplicating :
    ((duplicating "x" "y" 0 (juxtaposed 0 1)).normalize 8).result =
        .ok (duplicated "y" (juxtaposed 0 1) (juxtaposed 1 2)) ∧
      (duplicating "x" "y" 0 (juxtaposed 0 1)).shift 2 secondY =
        .ok (duplicating "x" "y" 0 (juxtaposed 0 3)) ∧
      (duplicated "y" (juxtaposed 0 1) (juxtaposed 1 2)).shift 2 secondY =
        .ok (duplicated "y" (juxtaposed 0 3) (juxtaposed 1 4)) ∧
      ((duplicating "x" "y" 0 (juxtaposed 0 3)).normalize 8).result =
        .ok (duplicated "y" (juxtaposed 0 3) (juxtaposed 1 4)) := by
  have hnormal : ((duplicating "x" "y" 0 (juxtaposed 0 1)).normalize 8).result =
      .ok (duplicated "y" (juxtaposed 0 1) (juxtaposed 1 2)) := by decide +kernel
  have hterm : (duplicating "x" "y" 0 (juxtaposed 0 1)).shift 2 secondY =
      .ok (duplicating "x" "y" 0 (juxtaposed 0 3)) := by decide +kernel
  have hform : (duplicated "y" (juxtaposed 0 1) (juxtaposed 1 2)).shift 2 secondY =
      .ok (duplicated "y" (juxtaposed 0 3) (juxtaposed 1 4)) := by decide +kernel
  have hreturns : ((duplicating "x" "y" 0 (juxtaposed 0 3)).normalize 8).result.isOk = true := by
    decide +kernel
  refine ⟨hnormal, hterm, hform, ?_⟩
  rcases normalize_shift_up (by decide) hnormal hterm hform (Nat.le_refl 8) with hok | ⟨e, he, -⟩
  · exact hok
  · rw [he] at hreturns
    cases hreturns

end Trisort.Term
