import Trisort.Proofs.Typing.Judgement

/-!
# Reduction keeps types

The type of a term is unique up to conversion (`Typing.unique`). A type of a term is either `Sort`
or has a universe for its type (`Typing.regular`), and reduction keeps the type of a term
(`Typing.reduces`). From these it follows that a term can be given any universe that its type
is convertible with (`Typing.to_univ`), and that the two judgements are the same
(`hasType_iff_sorted`).
-/

namespace Trisort.Nameless

/-! ### Uniqueness -/

/-- A constant has one type at most. -/
theorem ConstantType.unique {c : Constant} {T T' : Nameless} (h : ConstantType c T)
    (h' : ConstantType c T') : T = T' := by
  cases h <;> cases h' <;> rfl

/-- The type of a term is unique up to conversion. -/
theorem Typing.unique {P : Nameless → Prop} {Γ : Assumptions} {t T T' : Nameless}
    (h : Typing P Γ t T) (h' : Typing P Γ t T') : Conv T T' := by
  induction h generalizing T' with
  | const h =>
    obtain ⟨C, hC, hconv⟩ := h'.generated
    rwa [h.unique hC]
  | var h =>
    obtain ⟨A, hA, hconv⟩ := h'.generated
    obtain rfl : _ = A := Option.some.inj (h.symm.trans hA)
    exact hconv
  | pi _ _ h ihA ihB =>
    obtain ⟨u', v', w', hA', hB', hw', hconv⟩ := h'.generated
    obtain rfl := Constant.univ.inj (ihA hA').const_inj
    obtain rfl := Constant.univ.inj (ihB hB').const_inj
    obtain rfl := Option.some.inj (h.symm.trans hw')
    exact hconv
  | lam _ _ _ ihb =>
    obtain ⟨B', w', hpi', hb', hconv⟩ := h'.generated
    exact (Conv.binder .pi (.refl _) (ihb hb')).trans hconv
  | app _ _ ihf _ =>
    obtain ⟨A', B', hf', ha', hconv⟩ := h'.generated
    exact ((ihf hf').binder_inj.2.instantiate (.refl _)).trans hconv
  | annot _ _ _ _ _ =>
    obtain ⟨K', he', hA', hK', hconv⟩ := h'.generated
    exact hconv
  | arith op _ _ _ _ =>
    obtain ⟨hl', hr', hconv⟩ := h'.generated
    exact hconv
  | nil _ _ =>
    obtain ⟨hA', hconv⟩ := h'.generated
    exact hconv
  | list _ _ _ _ ihe _ =>
    obtain ⟨A', hA', he', hes', hconv⟩ := h'.generated
    exact (ihe he').listOf.trans hconv
  | conv _ h _ _ iht _ => exact h.symm.trans (iht h')

/-- A term belongs to one universe at most. -/
theorem Typing.univ_unique {P : Nameless → Prop} {Γ : Assumptions} {t : Nameless}
    {u u' : Universe} (h : Typing P Γ t (.univ u)) (h' : Typing P Γ t (.univ u')) : u = u' :=
  Constant.univ.inj (h.unique h').const_inj

/-! ### Regularity -/

/-- Every assumed type belongs to a universe. -/
def Assumptions.WellFormed (Γ : Assumptions) : Prop :=
  ∀ (k : Nat) (A : Nameless), Γ[k]? = some A → ∃ u, SortedTyping Γ A (.univ u)

/-- Without variables the assumptions are well formed. -/
theorem Assumptions.wellFormed_nil : Assumptions.WellFormed [] := by
  intro k A h
  cases h

/-- The assumptions stay well formed under a binder whose type belongs to a universe. -/
theorem Assumptions.WellFormed.enter {Γ : Assumptions} (hΓ : Γ.WellFormed) {A : Nameless}
    {u : Universe} (hA : SortedTyping Γ A (.univ u)) : (Γ.enter A).WellFormed := by
  intro k B hB
  cases k with
  | zero =>
    rw [getElem?_enter_zero, Option.some.injEq] at hB
    subst hB
    exact ⟨u, hA.weaken A⟩
  | succ k =>
    rw [getElem?_enter_succ, Option.map_eq_some_iff] at hB
    obtain ⟨C, hC, rfl⟩ := hB
    obtain ⟨v, hv⟩ := hΓ k C hC
    exact ⟨v, hv.weaken A⟩

namespace Typing

variable {Γ : Assumptions} {t t' T : Nameless}

/-- A universe is `Sort` or belongs to one. -/
theorem univ_regular (Γ : Assumptions) (u : Universe) :
    u = .sort ∨ ∃ v, SortedTyping Γ (.univ u) (.univ v) := by
  cases u with
  | type => exact .inr ⟨.kind, .const .type⟩
  | kind => exact .inr ⟨.sort, .const .kind⟩
  | sort => exact .inl rfl

/-- The list type of a type in `Type` is in `Type`. -/
theorem listOf {A : Nameless} (hA : SortedTyping Γ A (.univ .type)) :
    SortedTyping Γ (Nameless.listOf A) (.univ .type) :=
  .app (.const .listType) hA

/-- A type is `Sort` or belongs to a universe. -/
theorem regular (hΓ : Γ.WellFormed) (h : SortedTyping Γ t T) :
    T = .univ .sort ∨ ∃ u, SortedTyping Γ T (.univ u) := by
  have huniv (u : Universe) :
      Nameless.univ u = .univ .sort ∨ ∃ v, SortedTyping Γ (.univ u) (.univ v) :=
    (univ_regular Γ u).imp_left fun h => by rw [h]
  induction h with
  | const h =>
    cases h with
    | type | kind | doubleType | boolType | naturalType | integerType => exact huniv _
    | listType => exact .inr ⟨.kind, .pi (.const .type) (.const .type) rfl⟩
    | double | bool | natural | integer => exact .inr ⟨.type, .const (by constructor)⟩
  | var h => exact .inr (hΓ _ _ h)
  | pi _ _ _ _ _ => exact huniv _
  | lam hpi _ _ _ => exact .inr ⟨_, hpi⟩
  | app _ ha ihf _ =>
    right
    obtain hpi | ⟨w, hpi⟩ := ihf hΓ huniv
    · cases hpi
    · obtain ⟨u, v, w', hA, hB, -, -⟩ := hpi.generated
      exact ⟨v, hB.instantiate ha⟩
  | annot _ hA hK _ _ =>
    obtain ⟨u, rfl⟩ := hK
    exact .inr ⟨u, hA⟩
  | arith _ _ _ _ _ => exact .inr ⟨.type, .const .naturalType⟩
  | nil hA _ => exact .inr ⟨.type, hA.listOf⟩
  | list hA _ _ _ _ _ => exact .inr ⟨.type, hA.listOf⟩
  | conv _ _ hT' hK _ _ =>
    obtain ⟨u, rfl⟩ := hK
    exact .inr ⟨u, hT'⟩

/-! ### Subject reduction -/

/-- The codomain of a function's type is a type once it is filled with an argument. -/
theorem codomain (hΓ : Γ.WellFormed) {f a A B : Nameless} (hf : SortedTyping Γ f (.pi A B))
    (ha : SortedTyping Γ a A) : ∃ v, SortedTyping Γ (B.instantiate a) (.univ v) := by
  obtain hpi | ⟨w, hpi⟩ := hf.regular hΓ
  · cases hpi
  · obtain ⟨u, v, w', hA, hB, -, -⟩ := hpi.generated
    exact ⟨v, hB.instantiate ha⟩

/-- Contracting an applied function keeps its type. -/
theorem beta (hΓ : Γ.WellFormed) {A' b a A B : Nameless}
    (hf : SortedTyping Γ (.lam A' b) (.pi A B)) (ha : SortedTyping Γ a A) :
    SortedTyping Γ (b.instantiate a) (B.instantiate a) := by
  obtain ⟨B', w, hpi, hb, hconv⟩ := hf.generated
  obtain ⟨hA, hB⟩ := hconv.binder_inj
  obtain ⟨u, v, w', hA', hB', -, -⟩ := hpi.generated
  have ha' : SortedTyping Γ a A' := .conv ha hA.symm hA' (isUniverse_univ u)
  obtain ⟨v', hcod⟩ := codomain hΓ hf ha
  exact .conv (hb.instantiate ha') (hB.instantiate (.refl a)) hcod (isUniverse_univ v')

/-- A step keeps the type of a term. -/
theorem step (hΓ : Γ.WellFormed) (h : SortedTyping Γ t T) (hstep : Step t t') :
    SortedTyping Γ t' T := by
  induction h generalizing t' with
  | const _ => cases hstep
  | var _ => cases hstep
  | pi hA hB h ihA ihB =>
    cases hstep with
    | binderType _ _ hs => exact .pi (ihA hΓ hs) (hB.exchange hA (.step hs)) h
    | binderBody _ _ hs => exact .pi hA (ihB (hΓ.enter hA) hs) h
  | @lam Γ A b B w hpi hb ihpi ihb =>
    obtain ⟨u, v, w', hA, hB, -, -⟩ := hpi.generated
    cases hstep with
    | binderType _ _ hs =>
      have hpi' := ihpi hΓ (.binderType .pi B hs)
      have hconv := (Conv.step (.binderType .pi B hs)).symm
      exact .conv (.lam hpi' (hb.exchange hA (.step hs))) hconv hpi (isUniverse_univ _)
    | binderBody _ _ hs => exact .lam hpi (ihb (hΓ.enter hA) hs)
  | @app Γ f a A B hf ha ihf iha =>
    cases hstep with
    | beta A' b _ => exact beta hΓ hf ha
    | appFunction _ hs => exact .app (ihf hΓ hs) ha
    | appArgument _ hs =>
      -- The type of the application may mention the argument, so it changes as well.
      obtain ⟨v, hcod⟩ := codomain hΓ hf ha
      have hconv := (Conv.refl B).instantiate (Conv.step hs).symm
      exact .conv (.app hf (iha hΓ hs)) hconv hcod (isUniverse_univ v)
  | annot he hA hK ihe ihA =>
    cases hstep with
    | erase => exact he
    | annotTerm _ hs => exact .annot (ihe hΓ hs) hA hK
    | annotType _ hs =>
      have hA' := ihA hΓ hs
      have hconv := Conv.step hs
      exact .conv (.annot (.conv he hconv hA' hK) hA' hK) hconv.symm hA hK
  | arith op hl hr ihl ihr =>
    cases hstep with
    | compute _ => exact .const (.natural _)
    | arithLeft _ _ hs => exact .arith op (ihl hΓ hs) hr
    | arithRight _ _ hs => exact .arith op hl (ihr hΓ hs)
  | nil hA ihA =>
    cases hstep with
    | nilType hs =>
      have hconv := (Conv.step hs).symm.listOf
      exact .conv (.nil (ihA hΓ hs)) hconv hA.listOf (isUniverse_univ _)
  | list hA he hes _ ihe ihes =>
    cases hstep with
    | listHead _ hs => exact .list hA (ihe hΓ hs) hes
    | @listTail _ before f f' after hs =>
      refine .list hA he ?_
      intro e' he'
      rcases List.mem_append.mp he' with hmem | hmem
      · exact hes e' (by simp [hmem])
      · rcases List.mem_cons.mp hmem with rfl | hmem
        · exact ihes f (by simp) hΓ hs
        · exact hes e' (by simp [hmem])
  | conv _ hconv hT' hK iht _ => exact .conv (iht hΓ hstep) hconv hT' hK

/-- Reduction keeps the type of a term. -/
theorem reduces (hΓ : Γ.WellFormed) (h : SortedTyping Γ t T) (hred : Reduces t t') :
    SortedTyping Γ t' T := by
  induction hred with
  | refl => exact h
  | tail _ hstep ih => exact ih.step hΓ hstep

/-! ### Consequences for types -/

/-- A type convertible with a universe may be exchanged for it. -/
theorem to_univ (hΓ : Γ.WellFormed) {K : Nameless} {u : Universe} (h : SortedTyping Γ t K)
    (hconv : Conv K (.univ u)) : SortedTyping Γ t (.univ u) := by
  rcases univ_regular Γ u with rfl | ⟨v, hu⟩
  · -- `Sort` has no type, so only `Sort` itself is convertible with it.
    rcases h.regular hΓ with rfl | ⟨v, hK⟩
    · exact h
    · exact absurd (hK.reduces hΓ hconv.reduces_const) not_sort
  · exact .conv h hconv hu (isUniverse_univ v)

/-- A type of a term belongs to the universe of any type convertible with it. -/
theorem type_of_conv (hΓ : Γ.WellFormed) {T' : Nameless} {u : Universe} (h : SortedTyping Γ t T)
    (hconv : Conv T T') (hT' : SortedTyping Γ T' (.univ u)) : SortedTyping Γ T (.univ u) := by
  rcases h.regular hΓ with rfl | ⟨v, hT⟩
  · exact absurd (hT'.reduces hΓ hconv.symm.reduces_const) not_sort
  · obtain ⟨N, hTN, hT'N⟩ := conv_iff_join.mp hconv
    obtain rfl := (hT'.reduces hΓ hT'N).univ_unique (hT.reduces hΓ hTN)
    exact hT

/-- A type may be exchanged for any convertible term that has a type. -/
theorem to_typed (hΓ : Γ.WellFormed) {T' K : Nameless} (h : SortedTyping Γ t T)
    (hconv : Conv T T') (hT' : SortedTyping Γ T' K) :
    SortedTyping Γ t T' ∧ ∃ u, SortedTyping Γ T' (.univ u) := by
  rcases h.regular hΓ with rfl | ⟨u, hT⟩
  · exact absurd (hT'.reduces hΓ hconv.symm.reduces_const) not_sort
  · obtain ⟨N, hTN, hT'N⟩ := conv_iff_join.mp hconv
    have hK : Conv K (.univ u) := (hT'.reduces hΓ hT'N).unique (hT.reduces hΓ hTN)
    have hT'u := hT'.to_univ hΓ hK
    exact ⟨.conv h hconv hT'u (isUniverse_univ u), u, hT'u⟩

end Typing

/-- Over well-formed assumptions the two judgements are the same. -/
theorem hasType_iff_sorted {Γ : Assumptions} (hΓ : Γ.WellFormed) {t T : Nameless} :
    HasType Γ t T ↔ SortedTyping Γ t T := by
  constructor
  · intro h
    induction h with
    | const h => exact .const h
    | var h => exact .var h
    | pi _ _ h ihA ihB =>
      have hA := ihA hΓ
      exact .pi hA (ihB (hΓ.enter hA)) h
    | lam _ _ ihpi ihb =>
      have hpi := ihpi hΓ
      obtain ⟨u, v, w', hA, -, -, -⟩ := hpi.generated
      exact .lam hpi (ihb (hΓ.enter hA))
    | app _ _ ihf iha => exact .app (ihf hΓ) (iha hΓ)
    | annot _ _ _ ihe ihA =>
      -- The annotation has some type; since a term has been given it, that type is a universe.
      obtain ⟨-, u, hA⟩ := (ihe hΓ).to_typed hΓ (.refl _) (ihA hΓ)
      exact .annot (ihe hΓ) hA (isUniverse_univ u)
    | arith op _ _ ihl ihr => exact .arith op (ihl hΓ) (ihr hΓ)
    | nil _ ihA => exact .nil (ihA hΓ)
    | list _ _ _ ihA ihe ihes =>
      exact .list (ihA hΓ) (ihe hΓ) fun e he => ihes e he hΓ
    | conv _ h _ _ iht ihT' => exact ((iht hΓ).to_typed hΓ h (ihT' hΓ)).1
  · exact Typing.hasType

end Trisort.Nameless
