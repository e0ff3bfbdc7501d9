import Trisort.Proofs.Typing.Checking

/-!
# The type of a term is a type

Some rules return a type that no rule has looked at: the type of an application is the codomain of a
function type with the argument filled in, an empty list and an annotated term have the type that
was written, and the type of a variable is an entry of the context, shifted over all binders since
it was entered. Each of these is a type nevertheless, of some universe, unless it is `Sort`, which
has no type (`regular_of_check`).

So the type that was found may be checked in turn. It is not rejected, except for being nested too
deeply, and neither is the term annotated with it.
-/

namespace Trisort.Term

open Log Nameless

variable {Γ : Context} {fuel maxDepth : Nat} {t T : Term}

/-- A type that is found is `Sort` or belongs to a universe. -/
theorem regular_of_check (hΓ : Γ.assumptions.WellFormed)
    (h : (t.check fuel maxDepth Γ).result = .ok T) :
    T = .univ .sort ∨ ∃ u, SortedTyping Γ.assumptions (T.resolve Γ.scope) (.univ u) := by
  rcases (check_sound hΓ h).regular hΓ with hsort | hu
  · exact .inl (eq_const_of_resolve hsort)
  · exact .inr hu

/-- What is found for the type of a type normalizes to the universe that the type belongs to. -/
theorem normalize_eq_univ {S N : Term} {u : Universe} {n : Nat} (hΓ : Γ.assumptions.WellFormed)
    (hT : SortedTyping Γ.assumptions (T.resolve Γ.scope) (.univ u))
    (hS : (T.check fuel maxDepth Γ).result = .ok S) (hN : (S.normalize n).result = .ok N) :
    N = .univ u := by
  have hconv := (check_sound hΓ hS).unique hT
  exact normalize_eq_const hN hconv

/-- An annotated term that is accepted has the type as it is written. -/
theorem eq_of_check_annot {A : Term}
    (h : ((annot t A).check fuel maxDepth Γ).result = .ok T) : T = A := by
  obtain ⟨depth, hrule⟩ := rule_of_check h
  cases hrule with
  | annot _ _ _ => rfl

/-- A term may be annotated with a type that it has. -/
theorem check_annot_complete {u : Universe} (hΓ : Γ.assumptions.WellFormed)
    (ht : Sorted Γ t T) (hT : SortedTyping Γ.assumptions (T.resolve Γ.scope) (.univ u)) :
    NeverRejects maxDepth ((annot t T).check fuel maxDepth Γ) := by
  apply check_complete hΓ (T := T.resolve Γ.scope)
  exact .annot ht hT (isUniverse_univ u)

/-- **Regularity.** A type that is found, in an accepted context, is `Sort`, or it is accepted
itself, at any depth that suffices, and its type normalizes to a universe, always the same one. In
the second case the term annotated with the type is accepted too, and has that very type. -/
theorem check_regular {Γ : Context} {fuel maxDepth : Nat} {t T : Term} (hΓ : Γ.Accepted)
    (h : (t.check fuel maxDepth Γ).result = .ok T) :
    T = .univ .sort ∨ ∃ u : Universe, ∀ fuel' maxDepth',
      (∀ e, (T.check fuel' maxDepth' Γ).result = .error (.rejected e) → e = .tooDeep maxDepth') ∧
      (∀ S, (T.check fuel' maxDepth' Γ).result = .ok S →
        ∀ n N, (S.normalize n).result = .ok N → N = .univ u) ∧
      (∀ e, ((annot t T).check fuel' maxDepth' Γ).result = .error (.rejected e) →
        e = .tooDeep maxDepth') ∧
      ∀ T', ((annot t T).check fuel' maxDepth' Γ).result = .ok T' → T' = T := by
  have hwf := hΓ.wellFormed
  have ht := check_sound hwf h
  rcases regular_of_check hwf h with hsort | ⟨u, hT⟩
  · exact .inl hsort
  · right
    refine ⟨u, fun fuel' maxDepth' => ⟨?_, ?_, ?_, ?_⟩⟩
    · exact check_complete hwf hT
    · intro S hS n N hN
      exact normalize_eq_univ hwf hT hS hN
    · exact check_annot_complete hwf ht hT
    · intro T' hT'
      exact eq_of_check_annot hT'

/-- `(λ(a : Type) → a) Natural`, a type that is not in normal form. -/
def unreduced : Term :=
  .app (.lam "a" (.univ .type) (.nearby "a" 0)) (.const .naturalType)

/-- The type found for an empty list is the one that was written, not in normal form, and it is
accepted in turn. -/
theorem check_regular_unreduced :
    Context.Accepted [] ∧
      ((nil unreduced).check 16 16 []).result = .ok (listOf unreduced) ∧
      ((listOf unreduced).check 16 16 []).result = .ok (.univ .type) ∧
      (∀ n N, ((univ .type).normalize n).result = .ok N → N = .univ .type) ∧
      ∀ fuel maxDepth,
        (∀ e, ((listOf unreduced).check fuel maxDepth []).result = .error (.rejected e) →
          e = .tooDeep maxDepth) ∧
        (∀ e, ((annot (nil unreduced) (listOf unreduced)).check fuel maxDepth []).result =
          .error (.rejected e) → e = .tooDeep maxDepth) ∧
        ∀ T, ((annot (nil unreduced) (listOf unreduced)).check fuel maxDepth []).result = .ok T →
          T = listOf unreduced := by
  have hcheck : ((nil unreduced).check 16 16 []).result = .ok (listOf unreduced) := by
    decide +kernel
  have htype : ((listOf unreduced).check 16 16 []).result = .ok (.univ .type) := by
    decide +kernel
  rcases check_regular .empty hcheck with hsort | ⟨u, hall⟩
  · exact absurd hsort (by decide +kernel)
  · have hnormal : ((univ .type).normalize 1).result = .ok (.univ .type) := by decide +kernel
    have hu : univ .type = .univ u := (hall 16 16).2.1 _ htype 1 _ hnormal
    obtain rfl := Constant.univ.inj (Term.const.inj hu)
    refine ⟨.empty, hcheck, htype, (hall 16 16).2.1 _ htype, fun fuel maxDepth => ?_⟩
    obtain ⟨hT, -, hannot, heq⟩ := hall fuel maxDepth
    exact ⟨hT, hannot, heq⟩

end Trisort.Term
