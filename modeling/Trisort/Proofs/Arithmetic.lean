import Trisort.Normalization.Fuel
import Trisort.Proofs.NormalForm

/-!
# Arithmetic is exact

The polynomials among the terms are those that the operations build from natural literals and
variables. Once natural numbers of any size are assigned to the variables, a polynomial has an exact
value. Literals only go up to sixty-four bits, so an operation on two literals becomes a literal
only if the exact result is one, and otherwise it stays, with all that is around it.

`Exact t u` says what a normal form `u` of a polynomial `t` is to be: a polynomial with the same
exact values, and a literal exactly if `t` has no variable and no exact value inside `t` is too
large. Arithmetic on normal operands keeps this (`Exact.operation`), so normalization arrives at
it (`exists_exact_normalize`).
-/

namespace Trisort.Term

/-! ### Polynomials -/

/-- The term is built from natural literals and variables by the operations alone. -/
inductive Polynomial : Term → Prop where
  | natural (n : UInt64) : Polynomial (.natural n)
  | var (v : Var) : Polynomial (.var v)
  | arith (op : Operation) {l r : Term} (hl : Polynomial l) (hr : Polynomial r) :
      Polynomial (.arith op l r)

/-- The value of a polynomial, computed with natural numbers of any size, where `ρ` gives those of
the variables. Other terms count as zero. -/
def exactValue (ρ : Var → Nat) : Term → Nat
  | .natural n => n.toNat
  | .var v => ρ v
  | .arith op l r => op.onNat (l.exactValue ρ) (r.exactValue ρ)
  | _ => 0

/-- The term has no variable in it, and the exact values of it and of all that is inside it fit into
sixty-four bits. -/
def Computes (t : Term) : Prop :=
  (∀ v, .var v ∉ t.subterms) ∧ ∀ s ∈ t.subterms, ∀ ρ, s.exactValue ρ < UInt64.size

/-- A literal has no variable, and its value fits. -/
theorem computes_natural (n : UInt64) : (natural n).Computes := by
  constructor
  · intro v hv
    cases List.mem_singleton.mp hv
  · intro s hs ρ
    rw [List.mem_singleton.mp hs]
    exact n.toNat_lt_size

/-- A variable is not computed to a literal. -/
theorem not_computes_var (v : Var) : ¬ (var v).Computes := fun h =>
  h.1 v (List.mem_singleton_self _)

/-- An operation is computed exactly if its operands are and its own exact value fits. -/
theorem computes_arith {op : Operation} {l r : Term} :
    (arith op l r).Computes ↔
      l.Computes ∧ r.Computes ∧ ∀ ρ, (arith op l r).exactValue ρ < UInt64.size := by
  simp only [Computes, subterms, List.mem_cons, List.mem_append, reduceCtorEq, false_or, not_or,
    or_imp, forall_and, forall_eq]
  tauto

/-! ### One operation -/

/-- An operation can be performed exactly if the operands are literals and the exact result fits. -/
theorem isRedex_arith {op : Operation} {l r : Term} :
    (arith op l r).isRedex ↔
      ∃ m n, l = .natural m ∧ r = .natural n ∧ op.onNat m.toNat n.toNat < UInt64.size := by
  constructor
  · intro h
    unfold isRedex at h
    split at h
    case h_3 op' m n heq =>
      obtain ⟨rfl, rfl, rfl⟩ := arith.inj heq
      exact ⟨m, n, rfl, rfl, of_decide_eq_true h⟩
    all_goals simp_all
  · rintro ⟨m, n, rfl, rfl, hsmall⟩
    exact decide_eq_true hsmall

/-- An operation on polynomials always has an outcome, with the exact values of the operation. The
outcome is a literal only where two literals have a literal result. -/
theorem exists_reduceArith (op : Operation) {l r : Term} (hl : l.Polynomial) (hr : r.Polynomial) :
    ∃ u, (reduceArith op l r).result = .ok u ∧ u.Polynomial ∧
      (∀ ρ, u.exactValue ρ = (arith op l r).exactValue ρ) ∧
      ((∃ k, u = .natural k) ↔ (arith op l r).isRedex) := by
  by_cases hredex : (arith op l r).isRedex
  · obtain ⟨m, n, rfl, rfl, hsmall⟩ := isRedex_arith.mp hredex
    rcases heval : op.eval? m n with _ | k
    · exact absurd (Operation.eval?_eq_none_iff.mp heval) (Nat.not_le_of_lt hsmall)
    · refine ⟨.natural k, by rw [reduceArith, heval]; rfl, .natural k, ?_, ?_⟩
      · intro ρ
        exact (Operation.eval?_eq_some_iff.mp heval).symm
      · exact iff_of_true ⟨k, rfl⟩ hredex
  · -- Nothing is computed, whether the result would be too large or an operand is no literal.
    refine ⟨.arith op l r, (reduceArith_settles hredex).1, .arith op hl hr, fun ρ => rfl, ?_⟩
    refine iff_of_false ?_ hredex
    rintro ⟨k, hk⟩
    cases hk

/-! ### Normal forms of polynomials -/

/-- The term `u` has the exact values of `t`, and it is a literal exactly if it can be one without
any exact value being too large. -/
structure Exact (t u : Term) : Prop where
  polynomial : u.Polynomial
  value (ρ : Var → Nat) : u.exactValue ρ = t.exactValue ρ
  literal : (∃ k, u = .natural k) ↔ t.Computes

namespace Exact

variable {l l' r r' : Term}

/-- The operands became literals with a literal result exactly if the whole operation computes. -/
theorem isRedex_iff (op : Operation) (hl : Exact l l') (hr : Exact r r') :
    (arith op l' r').isRedex ↔ (arith op l r).Computes := by
  have hvalue (ρ : Var → Nat) :
      (arith op l' r').exactValue ρ = (arith op l r).exactValue ρ := by
    rw [exactValue, hl.value, hr.value, exactValue]
  rw [isRedex_arith, computes_arith]
  constructor
  · rintro ⟨m, n, rfl, rfl, hsmall⟩
    refine ⟨hl.literal.mp ⟨m, rfl⟩, hr.literal.mp ⟨n, rfl⟩, fun ρ => ?_⟩
    rw [← hvalue]
    exact hsmall
  · rintro ⟨hl', hr', hsmall⟩
    obtain ⟨m, rfl⟩ := hl.literal.mpr hl'
    obtain ⟨n, rfl⟩ := hr.literal.mpr hr'
    have hzero := hsmall fun _ => 0
    rw [← hvalue] at hzero
    exact ⟨m, n, rfl, rfl, hzero⟩

/-- Arithmetic on exact operands is exact. -/
theorem operation (op : Operation) (hl : Exact l l') (hr : Exact r r') :
    ∃ u, (reduceArith op l' r').result = .ok u ∧ Exact (arith op l r) u := by
  obtain ⟨u, hu, hpolynomial, hvalue, hliteral⟩ :=
    exists_reduceArith op hl.polynomial hr.polynomial
  refine ⟨u, hu, hpolynomial, fun ρ => ?_, hliteral.trans (isRedex_iff op hl hr)⟩
  rw [hvalue, exactValue, hl.value, hr.value, exactValue]

end Exact

/-- A polynomial has an exact normal form. -/
theorem exists_exact_normalize {t : Term} (ht : t.Polynomial) :
    ∃ u, (t.normalize t.size).result = .ok u ∧ Exact t u := by
  induction ht with
  | natural n =>
    exact ⟨.natural n, rfl, .natural n, fun ρ => rfl, iff_of_true ⟨n, rfl⟩ (computes_natural n)⟩
  | var v =>
    refine ⟨.var v, rfl, .var v, fun ρ => rfl, iff_of_false ?_ (not_computes_var v)⟩
    rintro ⟨k, hk⟩
    cases hk
  | @arith op l r _ _ ihl ihr =>
    obtain ⟨l', hl', hl⟩ := ihl
    obtain ⟨r', hr', hr⟩ := ihr
    obtain ⟨u, hu, hexact⟩ := hl.operation op hr
    refine ⟨u, ?_, hexact⟩
    simp only [size, normalize, relay_eq, Log.Logged.bind_result_eq_ok_iff]
    -- The operands have more fuel than they need.
    exact ⟨l', normalize_ok_of_le (by omega) hl', r', normalize_ok_of_le (by omega) hr', hu⟩

/-- **Arithmetic is never wrong.** Normalizing a polynomial always gives a term, and this is a
polynomial with the same exact value, whatever natural numbers are assigned to the variables. It is
a literal exactly if the polynomial has no variable and the exact value of every expression in it
fits into sixty-four bits. -/
theorem normalize_exact {t : Term} (ht : t.Polynomial) :
    ∃ u, (∀ n, t.size ≤ n → (t.normalize n).result = .ok u) ∧ u.Polynomial ∧
      (∀ ρ, u.exactValue ρ = t.exactValue ρ) ∧
      ((∃ k, u = .natural k) ↔
        (∀ v, .var v ∉ t.subterms) ∧ ∀ s ∈ t.subterms, ∀ ρ, s.exactValue ρ < UInt64.size) := by
  obtain ⟨u, hu, hpolynomial, hvalue, hliteral⟩ := exists_exact_normalize ht
  exact ⟨u, fun n hn => normalize_ok_of_le hn hu, hpolynomial, hvalue, hliteral⟩

/-- `4294967296 * 4294967295 + 4294967295`, the largest number that is a literal. -/
def brimming : Term :=
  .arith .plus (.arith .times (.natural 4294967296) (.natural 4294967295)) (.natural 4294967295)

/-- `(4294967296 * 4294967295 + 4294967295 + 1) * 0 + 2 * 3`, a small number on the way to which
there is one that is no literal. -/
def spilling : Term :=
  .arith .plus (.arith .times (.arith .plus brimming (.natural 1)) (.natural 0))
    (.arith .times (.natural 2) (.natural 3))

/-- The largest literal is computed. A product with zero is not, if the other factor is too
large. -/
theorem normalize_exact_brimming :
    (brimming.Polynomial ∧ ∃ k, (brimming.normalize 8).result = .ok (.natural k) ∧
      k.toNat = UInt64.size - 1) ∧
    (spilling.Polynomial ∧ ∃ u, (spilling.normalize 16).result = .ok u ∧
      (∀ ρ, u.exactValue ρ = 6) ∧ ¬ ∃ k, u = .natural k) := by
  have hbrimming : brimming.Polynomial :=
    .arith _ (.arith _ (.natural _) (.natural _)) (.natural _)
  have hspilling : spilling.Polynomial :=
    .arith _ (.arith _ (.arith _ hbrimming (.natural _)) (.natural _))
      (.arith _ (.natural _) (.natural _))
  obtain ⟨u, hu, -, hvalue, hliteral⟩ := normalize_exact hbrimming
  obtain ⟨w, hw, -, hvalue', hliteral'⟩ := normalize_exact hspilling
  refine ⟨⟨hbrimming, ?_⟩, hspilling, w, hw 16 (by decide), hvalue', ?_⟩
  · have hcomputes : brimming.Computes := by
      refine computes_arith.mpr ⟨computes_arith.mpr ⟨computes_natural _, computes_natural _, ?_⟩,
        computes_natural _, ?_⟩
      · intro ρ
        change 4294967296 * 4294967295 < UInt64.size
        decide
      · intro ρ
        change 4294967296 * 4294967295 + 4294967295 < UInt64.size
        decide
    obtain ⟨k, rfl⟩ := hliteral.mpr hcomputes
    exact ⟨k, hu 8 (by decide), hvalue fun _ => 0⟩
  · intro hk
    -- The sum that is too large is inside the term.
    have hsmall := (hliteral'.mp hk).2 (.arith .plus brimming (.natural 1)) (by simp [spilling])
      fun _ => 0
    exact absurd hsmall (by decide)

end Trisort.Term
