import Trisort.Proofs.Leaves
import Trisort.Proofs.NormalForm
import Trisort.Proofs.Typing.Checking

/-!
# Types do not depend on values

A term is static if its type is `Sort` or belongs to a universe above `Type`: the types, the
universes and the functions on these are static, the values are not. The rule for the universe of a
function type has no row from `Type` to a higher universe. Therefore all parts of a static term are
static again (`Static.binder`, `Static.app`, `Static.annot`), and a static term has no use for a
variable whose type belongs to `Type` (`Static.unused`).

For a term with labels, `Occurs` follows the inference to each of its subterms and keeps the context
that the subterm is looked at in. Every subterm of an accepted term is reached
(`exists_occurs_of_infer`), and what is reached from a static term is static (`Occurs.static`). So
`Term.check_stratified`: an accepted closed term whose type is a universe has no literals, no
arithmetic and no lists inside, and the function types inside it whose domains belong to `Type` are
not dependent.
-/

namespace Trisort

/-- Functions to a universe above `Type` start above `Type`, and only these live there. -/
theorem Universe.function?_ne_type {u v w : Universe} (h : u.function? v = some w) :
    (w ≠ .type ↔ v ≠ .type) ∧ (v ≠ .type → u ≠ .type) := by
  cases u <;> cases v <;> cases h <;> simp

namespace Nameless

/-! ### Static terms -/

/-- The type is `Sort`, or it belongs to a universe above `Type`. -/
def Elevated (Γ : Assumptions) (T : Nameless) : Prop :=
  T = .univ .sort ∨ ∃ u ≠ .type, SortedTyping Γ T (.univ u)

/-- The term is not a value: its type is `Sort` or belongs to a universe above `Type`. -/
def Static (Γ : Assumptions) (t : Nameless) : Prop := ∃ T, SortedTyping Γ t T ∧ Elevated Γ T

variable {Γ : Assumptions} {t T T' : Nameless}

/-- The universes belong to universes above `Type`, or are `Sort`. -/
theorem Elevated.univ (Γ : Assumptions) (u : Universe) : Elevated Γ (.univ u) := by
  cases u with
  | type => exact .inr ⟨.kind, by decide, .const .type⟩
  | kind => exact .inr ⟨.sort, by decide, .const .kind⟩
  | sort => exact .inl rfl

/-- No type convertible with an elevated one belongs to `Type`. -/
theorem Elevated.ne_type (hΓ : Γ.WellFormed) (h : Elevated Γ T) (hconv : Conv T' T) {u : Universe}
    (hT' : SortedTyping Γ T' (.univ u)) : u ≠ .type := by
  rcases h with rfl | ⟨v, hv, hT⟩
  · exact absurd (hT'.reduces hΓ hconv.reduces_const) Typing.not_sort
  · obtain ⟨N, hT'N, hTN⟩ := conv_iff_join.mp hconv
    obtain rfl := (hT'.reduces hΓ hT'N).univ_unique (hT.reduces hΓ hTN)
    exact hv

namespace Static

/-- Whatever belongs to a universe is static. -/
theorem of_univ {u : Universe} (h : SortedTyping Γ t (.univ u)) : Static Γ t :=
  ⟨_, h, .univ Γ u⟩

/-- A term whose type belongs to a universe above `Type` is static. -/
theorem of_ne_type {u : Universe} (h : SortedTyping Γ t T) (hT : SortedTyping Γ T (.univ u))
    (hu : u ≠ .type) : Static Γ t :=
  ⟨T, h, .inr ⟨u, hu, hT⟩⟩

/-- A term whose type belongs to `Type` is not static. -/
theorem not_of_type (hΓ : Γ.WellFormed) (h : SortedTyping Γ t T)
    (hT : SortedTyping Γ T (.univ .type)) : ¬ Static Γ t := by
  rintro ⟨T', h', helevated⟩
  exact helevated.ne_type hΓ (h.unique h') hT rfl

/-- The type and the body of a static binder are static. -/
theorem binder (hΓ : Γ.WellFormed) {k : Binder} {A b : Nameless} (h : Static Γ (.binder k A b)) :
    (∃ u, SortedTyping Γ A (.univ u)) ∧ Static (Γ.enter A) b := by
  obtain ⟨T, ht, hT⟩ := h
  cases k with
  | lambda =>
    obtain ⟨B, w, hpi, hb, hconv⟩ := ht.generated
    obtain ⟨u, v, w', hA, hB, hw', hww'⟩ := hpi.generated
    obtain rfl := Constant.univ.inj hww'.const_inj
    have hv : v ≠ .type := (Universe.function?_ne_type hw').1.mp (hT.ne_type hΓ hconv hpi)
    exact ⟨⟨u, hA⟩, of_ne_type hb hB hv⟩
  | pi =>
    obtain ⟨u, v, w, hA, hB, -, -⟩ := ht.generated
    exact ⟨⟨u, hA⟩, of_univ hB⟩

/-- The function and the argument of a static application are static. -/
theorem app (hΓ : Γ.WellFormed) {f a : Nameless} (h : Static Γ (.app f a)) :
    Static Γ f ∧ Static Γ a := by
  obtain ⟨T, ht, hT⟩ := h
  obtain ⟨A, B, hf, ha, hconv⟩ := ht.generated
  obtain hpi | ⟨w, hpi⟩ := hf.regular hΓ
  · cases hpi
  · obtain ⟨u, v, w', hA, hB, hw', hww'⟩ := hpi.generated
    obtain rfl := Constant.univ.inj hww'.const_inj
    obtain ⟨hw, hu⟩ := Universe.function?_ne_type hw'
    -- The codomain lies above `Type`, and no function space leads there from `Type`.
    have hv : v ≠ .type := hT.ne_type hΓ hconv (hB.instantiate ha)
    exact ⟨of_ne_type hf hpi (hw.mpr hv), of_ne_type ha hA (hu hv)⟩

/-- Both parts of a static annotation are static. -/
theorem annot (hΓ : Γ.WellFormed) {e A : Nameless} (h : Static Γ (.annot e A)) :
    Static Γ e ∧ Static Γ A := by
  obtain ⟨T, ht, hT⟩ := h
  obtain ⟨K, he, hA, ⟨u, rfl⟩, hconv⟩ := ht.generated
  exact ⟨of_ne_type he hA (hT.ne_type hΓ hconv hA), of_univ hA⟩

/-- An operation is not static. -/
theorem not_arith (hΓ : Γ.WellFormed) {op : Operation} {l r : Nameless} :
    ¬ Static Γ (.arith op l r) := by
  rintro ⟨T, ht, hT⟩
  obtain ⟨hl, hr, -⟩ := ht.generated
  exact not_of_type hΓ (.arith op hl hr) (.const .naturalType) ⟨T, ht, hT⟩

/-- An empty list is not static. -/
theorem not_nil (hΓ : Γ.WellFormed) {A : Nameless} : ¬ Static Γ (.nil A) := by
  rintro ⟨T, ht, hT⟩
  obtain ⟨hA, -⟩ := ht.generated
  exact not_of_type hΓ (.nil hA) hA.listOf ⟨T, ht, hT⟩

/-- A list literal is not static. -/
theorem not_list (hΓ : Γ.WellFormed) {e : Nameless} {es : List Nameless} :
    ¬ Static Γ (.list e es) := by
  rintro ⟨T, ht, hT⟩
  obtain ⟨A, hA, he, hes, -⟩ := ht.generated
  exact not_of_type hΓ (.list hA he hes) hA.listOf ⟨T, ht, hT⟩

/-- The type of a binder may be exchanged for a convertible one. -/
theorem exchange {A A' b : Nameless} {u : Universe} (h : Static (Γ.enter A) b)
    (hA : SortedTyping Γ A (.univ u)) (hconv : Conv A A') : Static (Γ.enter A') b := by
  obtain ⟨B, hb, hB⟩ := h
  refine ⟨B, hb.exchange hA hconv, ?_⟩
  rcases hB with rfl | ⟨v, hv, hB⟩
  · exact .inl rfl
  · exact .inr ⟨v, hv, hB.exchange hA hconv⟩

/-- A static term does not use a variable whose type belongs to `Type`. -/
theorem unused (hΓ : Γ.WellFormed) (h : Static Γ t) {k : Nat} {A : Nameless}
    (hk : Γ[k]? = some A) (hA : SortedTyping Γ A (.univ .type)) :
    ∃ u : Nameless, t = u.rename (insertion k) := by
  induction t generalizing Γ k A with
  | const c => exact ⟨.const c, rfl⟩
  | bound j =>
    have hne : j ≠ k := by
      rintro rfl
      exact not_of_type hΓ (.var hk) hA h
    obtain ⟨i, rfl⟩ := exists_insertion_eq hne
    exact ⟨.bound i, rfl⟩
  | free x i =>
    obtain ⟨T, ht, -⟩ := h
    exact ht.generated.elim
  | binder kind B b ihB ihb =>
    obtain ⟨⟨u, hB⟩, hb⟩ := h.binder hΓ
    have hk' : (Γ.enter B)[k + 1]? = some A.weaken := by
      rw [Assumptions.getElem?_enter_succ, hk]
      rfl
    obtain ⟨B₀, rfl⟩ := ihB hΓ (of_univ hB) hk hA
    obtain ⟨b₀, rfl⟩ := ihb (hΓ.enter hB) hb hk' (hA.weaken _)
    exact ⟨.binder kind B₀ b₀, rfl⟩
  | app f a ihf iha =>
    obtain ⟨hf, ha⟩ := h.app hΓ
    obtain ⟨f₀, rfl⟩ := ihf hΓ hf hk hA
    obtain ⟨a₀, rfl⟩ := iha hΓ ha hk hA
    exact ⟨.app f₀ a₀, rfl⟩
  | annot e B ihe ihB =>
    obtain ⟨he, hB⟩ := h.annot hΓ
    obtain ⟨e₀, rfl⟩ := ihe hΓ he hk hA
    obtain ⟨B₀, rfl⟩ := ihB hΓ hB hk hA
    exact ⟨.annot e₀ B₀, rfl⟩
  | arith op l r _ _ => exact absurd h (not_arith hΓ)
  | nil B _ => exact absurd h (not_nil hΓ)
  | list e es _ _ => exact absurd h (not_list hΓ)

end Static

end Nameless

namespace Term

open Log Nameless

/-! ### Occurrences -/

/-- `Part Γ t Γ' t'`: the term `t'` is an immediate part of `t`, and the rule for `t` in the context
`Γ` looks at it in the context `Γ'`. Under a binder, the normal form of its type is entered. -/
inductive Part : Context → Term → Context → Term → Prop where
  | binderType {Γ : Context} (k : Binder) (x : Label) (A b : Term) : Part Γ (.binder k x A b) Γ A
  | binderBody {Γ Γ' : Context} {x : Label} {A A' : Term} {fuel : Nat} (k : Binder) (b : Term)
      (hA : (A.normalize fuel).result = .ok A') (hΓ : Γ.enter x A' = .ok Γ') :
      Part Γ (.binder k x A b) Γ' b
  | appFunction {Γ : Context} (f a : Term) : Part Γ (.app f a) Γ f
  | appArgument {Γ : Context} (f a : Term) : Part Γ (.app f a) Γ a
  | annotTerm {Γ : Context} (e A : Term) : Part Γ (.annot e A) Γ e
  | annotType {Γ : Context} (e A : Term) : Part Γ (.annot e A) Γ A
  | arithLeft {Γ : Context} (op : Operation) (l r : Term) : Part Γ (.arith op l r) Γ l
  | arithRight {Γ : Context} (op : Operation) (l r : Term) : Part Γ (.arith op l r) Γ r
  | nilType {Γ : Context} (A : Term) : Part Γ (.nil A) Γ A
  | listHead {Γ : Context} (e : Term) (es : List Term) : Part Γ (.list e es) Γ e
  | listTail {Γ : Context} {e' : Term} {es : List Term} (e : Term) (he' : e' ∈ es) :
      Part Γ (.list e es) Γ e'

/-- `Occurs Γ t Δ s`: the term `s` occurs in `t`, and if `t` is looked at in the context `Γ`, then
the occurrence is looked at in the context `Δ`. -/
inductive Occurs : Context → Term → Context → Term → Prop where
  | here (Γ : Context) (t : Term) : Occurs Γ t Γ t
  | inside {Γ Γ' Δ : Context} {t t' s : Term} (h : Part Γ t Γ' t') (hs : Occurs Γ' t' Δ s) :
      Occurs Γ t Δ s

/-- The parts of a static term are static. -/
theorem Part.static {Γ Γ' : Context} {t t' : Term} (h : Part Γ t Γ' t')
    (hΓ : Γ.assumptions.WellFormed) (ht : Static Γ.assumptions (t.resolve Γ.scope)) :
    Γ'.assumptions.WellFormed ∧ Static Γ'.assumptions (t'.resolve Γ'.scope) := by
  cases h with
  | binderType k x A b =>
    obtain ⟨⟨u, hA⟩, -⟩ := ht.binder hΓ
    exact ⟨hΓ, .of_univ hA⟩
  | binderBody k b hA henter =>
    obtain ⟨⟨u, hAu⟩, hb⟩ := ht.binder hΓ
    have hred := (normalize_sound hA Γ.scope).1
    refine ⟨wellFormed_enter hΓ (hAu.reduces hΓ hred) henter, ?_⟩
    rw [Context.assumptions_enter henter, Context.scope_enter henter]
    exact hb.exchange hAu hred.conv
  | appFunction f a => exact ⟨hΓ, (ht.app hΓ).1⟩
  | appArgument f a => exact ⟨hΓ, (ht.app hΓ).2⟩
  | annotTerm e A => exact ⟨hΓ, (ht.annot hΓ).1⟩
  | annotType e A => exact ⟨hΓ, (ht.annot hΓ).2⟩
  | arithLeft | arithRight => exact absurd ht (Static.not_arith hΓ)
  | nilType => exact absurd ht (Static.not_nil hΓ)
  | listHead | listTail => exact absurd ht (Static.not_list hΓ)

/-- All that occurs in a static term is static. -/
theorem Occurs.static {Γ Δ : Context} {t s : Term} (h : Occurs Γ t Δ s)
    (hΓ : Γ.assumptions.WellFormed) (ht : Static Γ.assumptions (t.resolve Γ.scope)) :
    Δ.assumptions.WellFormed ∧ Static Δ.assumptions (s.resolve Δ.scope) := by
  induction h with
  | here Γ t => exact ⟨hΓ, ht⟩
  | inside hpart _ ih =>
    obtain ⟨hΓ', ht'⟩ := hpart.static hΓ ht
    exact ih hΓ' ht'

/-- Where a rule accepts a term, each proper subterm lies in a part that the rule has asked
about. -/
theorem Rule.exists_part {fuel : Nat} {typeOf : Context → Term → Inference Term} {Γ : Context}
    {t T s : Term} (h : Rule fuel typeOf Γ t T) (hs : s ∈ t.subterms) :
    s = t ∨ ∃ Γ' t' T', Part Γ t Γ' t' ∧ (typeOf Γ' t').result = .ok T' ∧ s ∈ t'.subterms := by
  cases h with
  | const _ | var _ => exact .inl (by simpa using hs)
  | @lam x A _ _ b _ _ _ hA hA' hΓ' hb _ =>
    simp only [subterms, List.mem_cons, List.mem_append] at hs
    refine hs.imp_right fun hs => ?_
    rcases hs with hs | hs
    · exact ⟨Γ, A, _, .binderType .lambda x A b, hA, hs⟩
    · exact ⟨_, b, _, .binderBody .lambda b hA' hΓ', hb, hs⟩
  | @pi x A _ _ B _ _ _ _ _ hA _ hA' hΓ' hB _ _ =>
    simp only [subterms, List.mem_cons, List.mem_append] at hs
    refine hs.imp_right fun hs => ?_
    rcases hs with hs | hs
    · exact ⟨Γ, A, _, .binderType .pi x A B, hA, hs⟩
    · exact ⟨_, B, _, .binderBody .pi B hA' hΓ', hB, hs⟩
  | @app _ f a _ _ _ _ _ hf _ ha _ _ =>
    simp only [subterms, List.mem_cons, List.mem_append] at hs
    refine hs.imp_right fun hs => ?_
    rcases hs with hs | hs
    · exact ⟨Γ, f, _, .appFunction f a, hf, hs⟩
    · exact ⟨Γ, a, _, .appArgument f a, ha, hs⟩
  | @annot e _ _ _ hA he _ =>
    simp only [subterms, List.mem_cons, List.mem_append] at hs
    refine hs.imp_right fun hs => ?_
    rcases hs with hs | hs
    · exact ⟨Γ, e, _, .annotTerm e T, he, hs⟩
    · exact ⟨Γ, T, _, .annotType e T, hA, hs⟩
  | @arith op l r _ _ hl _ hr _ =>
    simp only [subterms, List.mem_cons, List.mem_append] at hs
    refine hs.imp_right fun hs => ?_
    rcases hs with hs | hs
    · exact ⟨Γ, l, _, .arithLeft op l r, hl, hs⟩
    · exact ⟨Γ, r, _, .arithRight op l r, hr, hs⟩
  | @nil A _ hA _ =>
    simp only [subterms, List.mem_cons] at hs
    exact hs.imp_right fun hs => ⟨Γ, A, _, .nilType A, hA, hs⟩
  | @list e _ _ es he _ _ hes =>
    simp only [subterms, subtermsAll_eq_flatMap, List.mem_cons, List.mem_append,
      List.mem_flatMap] at hs
    refine hs.imp_right fun hs => ?_
    rcases hs with hs | ⟨e', he', hs⟩
    · exact ⟨Γ, e, _, .listHead e es, he, hs⟩
    · obtain ⟨A', hA', -⟩ := hes e' he'
      exact ⟨Γ, e', A', .listTail e he', hA', hs⟩

/-- Every subterm of a term that is given a type occurs in some context. -/
theorem exists_occurs_of_infer {limit fuel depth : Nat} {Γ : Context} {t T s : Term}
    (h : (infer limit fuel depth Γ t).result = .ok T) (hs : s ∈ t.subterms) :
    ∃ Δ, Occurs Γ t Δ s := by
  refine infer_induction (motive := fun _ Γ t _ => s ∈ t.subterms → ∃ Δ, Occurs Γ t Δ s) ?_ h hs
  intro depth Γ t T ih hrule hs
  rcases hrule.exists_part hs with rfl | ⟨Γ', t', T', hpart, ht', hs'⟩
  · exact ⟨Γ, .here Γ s⟩
  · obtain ⟨Δ, hΔ⟩ := ih ht' hs'
    exact ⟨Δ, .inside hpart hΔ⟩

/-! ### Stratification -/

/-- Whether the term is a literal, an operation or a list. -/
def isValueForm : Term → Bool
  | .const (.bool _) | .const (.natural _) | .const (.integer _) | .const (.double _) => true
  | .arith _ _ _ | .nil _ | .list _ _ => true
  | _ => false

/-- Literals, operations and lists are not static. -/
theorem not_isValueForm_of_static {Γ : Assumptions} {Δ : Scope} {t : Term} (hΓ : Γ.WellFormed)
    (h : Static Γ (t.resolve Δ)) : ¬ t.isValueForm := by
  intro hvalue
  cases t with
  | const c =>
    have hliteral {c C : Constant} (hc : ConstantType c (.const C))
        (hC : ConstantType C (.univ .type)) : ¬ Static Γ (.const c) :=
      Static.not_of_type hΓ (.const hc) (.const hC)
    cases c with
    | bool b => exact hliteral (.bool b) .boolType h
    | natural n => exact hliteral (.natural n) .naturalType h
    | integer i => exact hliteral (.integer i) .integerType h
    | double x => exact hliteral (.double x) .doubleType h
    | _ => cases hvalue
  | arith op l r => exact Static.not_arith hΓ h
  | nil A => exact Static.not_nil hΓ h
  | list e es => exact Static.not_list hΓ h
  | _ => cases hvalue

/-- A static function type whose domain is found to belong to `Type` is not dependent. -/
theorem not_mem_freeVars_codomain {Γ : Context} {x : Label} {A B K : Term} {fuel maxDepth n : Nat}
    (hΓ : Γ.assumptions.WellFormed) (h : Static Γ.assumptions ((pi x A B).resolve Γ.scope))
    (hA : (A.check fuel maxDepth Γ).result = .ok K)
    (hK : (K.normalize n).result = .ok (.univ .type)) : (x, 0) ∉ B.freeVars := by
  have hAtype := sorted_univ hΓ (check_sound hΓ hA) hK
  obtain ⟨-, hB⟩ := h.binder hΓ
  obtain ⟨u, hu⟩ := hB.unused (hΓ.enter hAtype) (k := 0) rfl (hAtype.weaken _)
  exact not_mem_freeVars_of_unused [] hu

/-- **Types never depend on values.** Let a closed term be accepted whose type normalizes to a
universe. All its subterms are reached by the inference, in some context, and none of them is a
literal, an operation or a list. And the codomain of a function type that occurs in the term does
not mention the variable of the function type, if the domain is found to belong to `Type` in the
context of the occurrence. -/
theorem check_stratified {fuel maxDepth n : Nat} {t T : Term} {u : Universe}
    (ht : (t.check fuel maxDepth []).result = .ok T)
    (hT : (T.normalize n).result = .ok (.univ u)) :
    (∀ s ∈ t.subterms, ¬ s.isValueForm ∧ ∃ Δ, Occurs [] t Δ s) ∧
      ∀ Δ x A B, Occurs [] t Δ (.pi x A B) →
        ∀ fuel' maxDepth' n' K, (A.check fuel' maxDepth' Δ).result = .ok K →
          (K.normalize n').result = .ok (.univ .type) → (x, 0) ∉ B.freeVars := by
  have hwf : Context.assumptions [] |>.WellFormed := Assumptions.wellFormed_nil
  have hstatic : Static (Context.assumptions []) (t.resolve (Context.scope [])) :=
    .of_univ (sorted_univ hwf (check_sound hwf ht) hT)
  constructor
  · intro s hs
    rw [check_result] at ht
    obtain ⟨Δ, hΔ⟩ := exists_occurs_of_infer ht hs
    obtain ⟨hΔwf, hsstatic⟩ := hΔ.static hwf hstatic
    exact ⟨not_isValueForm_of_static hΔwf hsstatic, Δ, hΔ⟩
  · intro Δ x A B hΔ fuel' maxDepth' n' K hA hK
    obtain ⟨hΔwf, hpi⟩ := hΔ.static hwf hstatic
    exact not_mem_freeVars_codomain hΔwf hpi hA hK

/-- `∀(x : x) → (λ(y : Type) → y) x@1`. -/
def ordinary : Term :=
  .pi "x" (.nearby "x" 0)
    (.app (.lam "y" (.univ .type) (.nearby "y" 0)) (.nearby "x" 1))

/-- `∀(x : (Type : Kind)) → ∀(x : x) → (λ(y : Type) → y) x@1`. -/
def polymorphic : Term := .pi "x" (.annot (.univ .type) (.univ .kind)) ordinary

/-- A type with a function type inside it whose domain belongs to `Type`. -/
theorem check_stratified_polymorphic :
    (polymorphic.check 8 8 []).result = .ok (.univ .type) ∧
      ((univ .type).normalize 8).result = .ok (.univ .type) ∧
      (nearby "x" 1 ∈ polymorphic.subterms ∧ ¬ (nearby "x" 1).isValueForm) ∧
      Occurs [] polymorphic outer ordinary ∧
      ((nearby "x" 0).check 8 8 outer).result = .ok (.univ .type) ∧
      ("x", 0) ∉ (app (.lam "y" (.univ .type) (.nearby "y" 0)) (.nearby "x" 1)).freeVars := by
  have ht : (polymorphic.check 8 8 []).result = .ok (.univ .type) := by decide +kernel
  have hT : ((univ .type).normalize 8).result = .ok (.univ .type) := by decide +kernel
  have hs : nearby "x" 1 ∈ polymorphic.subterms := by decide +kernel
  have hdomain : ((nearby "x" 0).check 8 8 outer).result = .ok (.univ .type) := by decide +kernel
  have hnormal : ((annot (univ .type) (.univ .kind)).normalize 8).result = .ok (.univ .type) := by
    decide +kernel
  have henter : Context.enter [] "x" (.univ .type) = .ok outer := by decide +kernel
  have hoccurs : Occurs [] polymorphic outer ordinary :=
    .inside (.binderBody .pi ordinary hnormal henter) (.here _ _)
  obtain ⟨hsubterms, hpi⟩ := check_stratified ht hT
  exact ⟨ht, hT, ⟨hs, (hsubterms _ hs).1⟩, hoccurs, hdomain, hpi _ _ _ _ hoccurs 8 8 8 _ hdomain hT⟩

end Term

end Trisort
