import Trisort.Normalization
import Trisort.Log.Approximation

/-!
# More fuel changes no answer

A normalization that ends without exhausting its fuel ends in the same way, with the same events,
for every larger amount (`Term.normalize_of_le`); likewise for the comparison of terms. So a term
has at most one normal form, whatever the fuel.
-/

namespace Trisort.Term

open Log

/-- One more unit of fuel changes only the answer that there was too little. -/
theorem normalize_approximates_succ (n : Nat) (t : Term) :
    (normalize n t).Approximates .exhausted (normalize (n + 1) t) := by
  induction n generalizing t with
  | zero => exact .of_result_eq rfl
  | succ n ih =>
    cases t with
    | const c => exact .refl _
    | var v => exact .refl _
    | binder k x A b =>
      simp only [normalize, relay_eq]
      exact .bind (ih A) fun A' => .bind (ih b) fun b' => .refl _
    | app f a =>
      simp only [normalize, relay_eq]
      refine .bind (ih f) fun f' => .bind (ih a) fun a' => ?_
      split
      · exact .bind (.refl _) fun _ => .bind (.refl _) fun c => ih c
      · exact .refl _
    | annot e A =>
      simp only [normalize, relay_eq]
      exact ih e
    | arith op l r =>
      simp only [normalize, relay_eq]
      exact .bind (ih l) fun l' => .bind (ih r) fun r' => .refl _
    | nil A =>
      simp only [normalize, relay_eq]
      exact .bind (ih A) fun A' => .refl _
    | list e es =>
      simp only [normalize, relay_eq]
      exact .bind (ih e) fun e' => .bind (.mapList ih es) fun es' => .refl _

/-- More fuel for normalization changes only the answer that there was too little. -/
theorem normalize_approximates {m n : Nat} (h : m ≤ n) (t : Term) :
    (normalize m t).Approximates .exhausted (normalize n t) := by
  induction h with
  | refl => exact .refl _
  | step _ ih => exact ih.trans (normalize_approximates_succ _ t)

/-- A normalization that ends does not depend on how much fuel is left over. -/
theorem normalize_of_le {m n : Nat} (h : m ≤ n) {t : Term}
    (hm : (t.normalize m).result ≠ .error .exhausted) : t.normalize n = t.normalize m :=
  normalize_approximates h t hm

/-- A normal form that is found is found with more fuel as well. -/
theorem normalize_ok_of_le {m n : Nat} (h : m ≤ n) {t u : Term}
    (hu : (t.normalize m).result = .ok u) : (t.normalize n).result = .ok u := by
  rw [normalize_of_le h (by simp [hu]), hu]

/-- More fuel for the canonical form changes only the answer that there was too little. -/
theorem canonical_approximates {m n : Nat} (h : m ≤ n) (t : Term) :
    (canonical m t).Approximates .exhausted (canonical n t) :=
  .bind (normalize_approximates h t) fun _ => .refl _

/-- More fuel for a comparison changes only the answer that there was too little. -/
theorem convertible_approximates {m n : Nat} (h : m ≤ n) (t u : Term) :
    (convertible m t u).Approximates .exhausted (convertible n t u) :=
  .bind (canonical_approximates h t) fun _ => .bind (canonical_approximates h u) fun _ => .refl _

/-- A term has at most one normal form. -/
theorem normalize_unique {m n : Nat} {t u v : Term} (hu : (t.normalize m).result = .ok u)
    (hv : (t.normalize n).result = .ok v) : u = v := by
  have hm : (t.normalize m).result ≠ .error .exhausted := by simp [hu]
  have hn : (t.normalize n).result ≠ .error .exhausted := by simp [hv]
  have heq : t.normalize m = t.normalize n := by
    rcases Nat.le_total m n with h | h
    · exact (normalize_of_le h hm).symm
    · exact normalize_of_le h hn
  rw [heq, hv] at hu
  exact (Except.ok.inj hu).symm

end Trisort.Term
