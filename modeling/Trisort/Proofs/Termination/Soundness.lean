import Trisort.Proofs.Termination.Interpretation
import Trisort.Proofs.Typing.Stratification

/-!
# Typed terms terminate

Take values for the variables in scope, and terms that realize these values in the types of the
variables. With the terms in place of its variables, each typed term realizes its value in the value
of its type (`Typing.valid`). As all realizers terminate, so do the typed terms.

The proof is an induction on derivations with one lemma for each rule. Along with the realizer it is
shown that static terms are meaningful, which the rule of conversion needs: convertible types have
the same value only if they are meaningful. The types of terms are static, and no part of a static
term is a value (`Static.app`), so nothing needs to be known of values here. The argument of a
function may be one, though. Then the type of the result does not mention it (`Static.unused`).
-/

namespace Trisort.Nameless

open Value

variable {Γ : Assumptions} {ρ : Nat → Value} {σ : Nat → Nameless} {t T A : Nameless} {x : Value}

/-! ### Types in scope -/

/-- The type belongs to a universe, it is meaningful, and its value is of the level of the
universe. -/
def Interpreted (Γ : Assumptions) (ρ : Nat → Value) (T : Nameless) : Prop :=
  ∃ u, SortedTyping Γ T (.univ u) ∧ OfLevel u (value ρ T) ∧ Meaningful ρ T

/-- Each variable has an interpreted type, and the term for it realizes its value. -/
def Models (Γ : Assumptions) (ρ : Nat → Value) (σ : Nat → Nameless) : Prop :=
  ∀ k A, Γ[k]? = some A → Realizes (value ρ A) (ρ k) (σ k) ∧ Interpreted Γ ρ A

/-- The value of an interpreted type is a type. -/
theorem Interpreted.isType (h : Interpreted Γ ρ T) : IsType (value ρ T) := by
  obtain ⟨u, -, hlevel, -⟩ := h
  exact hlevel.isType

/-- The universe `Sort` is not interpreted. -/
theorem Interpreted.ne_sort (h : Interpreted Γ ρ T) : T ≠ .univ .sort := by
  rintro rfl
  obtain ⟨u, hT, -, -⟩ := h
  exact hT.not_sort

/-- A type stays interpreted under one more binder. -/
theorem Interpreted.weaken (h : Interpreted Γ ρ T) (A : Nameless) (x : Value) :
    Interpreted (Γ.enter A) (push x ρ) T.weaken := by
  obtain ⟨u, hT, hlevel, hmeaning⟩ := h
  refine ⟨u, hT.weaken A, ?_, (meaningful_weaken x ρ T).mpr hmeaning⟩
  rwa [value_weaken]

/-- Assumptions whose variables have values are well formed. -/
theorem Models.wellFormed (h : Models Γ ρ σ) : Γ.WellFormed := by
  intro k A hk
  obtain ⟨-, u, hA, -⟩ := h k A hk
  exact ⟨u, hA⟩

/-- Values and realizers for the variables can be extended under a binder, by any realizer in its
type. -/
theorem Models.enter (h : Models Γ ρ σ) (hA : Interpreted Γ ρ A) {a : Nameless}
    (ha : Realizes (value ρ A) x a) : Models (Γ.enter A) (push x ρ) (extend a σ) := by
  intro k B hB
  cases k with
  | zero =>
    rw [Assumptions.getElem?_enter_zero, Option.some.injEq] at hB
    subst hB
    refine ⟨?_, hA.weaken A x⟩
    rwa [value_weaken]
  | succ k =>
    rw [Assumptions.getElem?_enter_succ, Option.map_eq_some_iff] at hB
    obtain ⟨C, hC, rfl⟩ := hB
    obtain ⟨hrealizes, hinterpreted⟩ := h k C hC
    refine ⟨?_, hinterpreted.weaken A x⟩
    rwa [value_weaken]

/-- A universe is interpreted by the universe as a type. -/
theorem value_univ (ρ : Nat → Value) (u : Universe) : value ρ (.univ u) = ofUniverse u := by
  rw [value, ofConstant]

/-- Every universe but `Sort` is interpreted. -/
theorem interpreted_univ (Γ : Assumptions) (ρ : Nat → Value) (u : Universe) :
    Nameless.univ u = .univ .sort ∨ Interpreted Γ ρ (.univ u) := by
  cases u with
  | type =>
    refine .inr ⟨.kind, .const .type, .inr ⟨nofun, ?_⟩, trivial⟩
    rw [value_univ]
    exact isKind_ofUniverse_type
  | kind =>
    refine .inr ⟨.sort, .const .kind, .inr ⟨nofun, ?_⟩, trivial⟩
    rw [value_univ]
    exact isKind_ofUniverse_kind
  | sort => exact .inl rfl

/-! ### Validity -/

/-- The term realizes the set in the type. The type `Sort` has no set of elements, so for universes
it is said what is meant. -/
def Belongs (ρ : Nat → Value) : Nameless → Value → Nameless → Prop
  | .univ u, x, t => InUniverse u x ∧ Terminating t
  | T, x, t => Realizes (value ρ T) x t

/-- In any type but `Sort`, to belong is to realize. -/
theorem belongs_iff (hT : T ≠ .univ .sort) : Belongs ρ T x t ↔ Realizes (value ρ T) x t := by
  unfold Belongs
  split
  · rename_i u
    rw [value_univ, realizes_ofUniverse]
    rintro rfl
    exact hT rfl
  · exact Iff.rfl

/-- What a derivation of a type for a term says about values. -/
structure Valid (Γ : Assumptions) (ρ : Nat → Value) (σ : Nat → Nameless) (t T : Nameless) :
    Prop where
  belongs : Belongs ρ T (value ρ t) (t.substitute σ)
  meaningful : Static Γ t → Meaningful ρ t
  type : T = .univ .sort ∨ Interpreted Γ ρ T
  /-- The rule for `λ` has the function type for a premise, but not the domain. -/
  domain : ∀ A B, t = .pi A B → Interpreted Γ ρ A

namespace Valid

/-- What belongs to a universe is an interpreted type. -/
theorem interpreted {u : Universe} (h : Valid Γ ρ σ A (.univ u))
    (hA : SortedTyping Γ A (.univ u)) : Interpreted Γ ρ A :=
  ⟨u, hA, h.belongs.1.ofLevel, h.meaningful (.of_univ hA)⟩

/-- A valid term realizes its value, in any type but `Sort`. -/
theorem realizes (h : Valid Γ ρ σ t T) (hT : T ≠ .univ .sort) :
    Realizes (value ρ T) (value ρ t) (t.substitute σ) :=
  (belongs_iff hT).mp h.belongs

/-- A valid term terminates once realizers are put for its variables. -/
theorem terminating (h : Valid Γ ρ σ t T) : Terminating (t.substitute σ) := by
  rcases h.type with rfl | hT
  · exact h.belongs.2
  · exact hT.isType.terminating (h.realizes hT.ne_sort)

/-- A term whose type belongs to `Type` is valid if it has no value and its type has the simplest
one. -/
theorem of_base (hρ : Models Γ ρ σ) (h : SortedTyping Γ t T) (hT : SortedTyping Γ T (.univ .type))
    (hvalue : value ρ T = collection {∅}) (hmeaning : Meaningful ρ T) (hempty : value ρ t = ∅)
    (hterm : Terminating (t.substitute σ)) : Valid Γ ρ σ t T := by
  have hstatic : ¬ Static Γ t := Static.not_of_type hρ.wellFormed h hT
  have hlevel : OfLevel .type (value ρ T) := by
    rw [hvalue]
    exact .inl ⟨rfl, isProp_collection⟩
  have hinterpreted : Interpreted Γ ρ T := ⟨.type, hT, hlevel, hmeaning⟩
  refine ⟨?_, fun h => absurd h hstatic, .inr hinterpreted, ?_⟩
  · rw [belongs_iff hinterpreted.ne_sort, hvalue, hempty]
    exact realizes_collection.mpr ⟨ZFSet.mem_singleton.mpr rfl, hterm⟩
  · rintro A B rfl
    obtain ⟨u, v, w, hA, hB, hw, -⟩ := h.generated
    exact absurd (.of_univ (.pi hA hB hw)) hstatic

/-- A constant that is a type in a universe is valid there. -/
theorem of_universe {c : Constant} {u : Universe} (h : InUniverse u (ofConstant c)) :
    Valid Γ ρ σ (.const c) (.univ u) := by
  refine ⟨⟨?_, .const c⟩, fun _ => trivial, interpreted_univ Γ ρ u, nofun⟩
  rwa [value]

/-- The rule for variables: the realizer for a variable is given. -/
theorem var {k : Nat} (hρ : Models Γ ρ σ) (h : Γ[k]? = some A) : Valid Γ ρ σ (.bound k) A := by
  obtain ⟨hrealizes, hA⟩ := hρ k A h
  refine ⟨(belongs_iff hA.ne_sort).mpr ?_, fun _ => trivial, .inr hA, nofun⟩
  rwa [value]

section Binders

variable {b B : Nameless} {u v w : Universe} (hρ : Models Γ ρ σ)
include hρ

/-- The rule for function types: the product lies in the universe that the rule finds. -/
theorem pi (hA : SortedTyping Γ A (.univ u)) (hB : SortedTyping (Γ.enter A) B (.univ v))
    (h : u.function? v = some w) (ihA : Valid Γ ρ σ A (.univ u))
    (ihB : ∀ {ρ σ}, Models (Γ.enter A) ρ σ → Valid (Γ.enter A) ρ σ B (.univ v)) :
    Valid Γ ρ σ (.pi A B) (.univ w) := by
  have hinterpreted : Interpreted Γ ρ A := ihA.interpreted hA
  have hbody : ∀ x ∈ elements (value ρ A), ∃ a,
      Valid (Γ.enter A) (push x ρ) (extend a σ) B (.univ v) := by
    intro x hx
    obtain ⟨a, ha⟩ := mem_elements.mp hx
    exact ⟨a, ihB (hρ.enter hinterpreted ha)⟩
  have huniverse : ∀ x ∈ elements (value ρ A), InUniverse v (value (push x ρ) B) := by
    intro x hx
    obtain ⟨a, ha⟩ := hbody x hx
    exact ha.belongs.1
  have hterm : Terminating (B.substitute (lift σ)) := by
    obtain ⟨x, hx⟩ := hinterpreted.isType.nonempty
    obtain ⟨a, ha⟩ := hbody x hx
    have hinstance := ha.terminating
    rw [← instantiate_substitute_lift] at hinstance
    exact .of_instantiate hinstance
  refine ⟨⟨?_, .binder _ ihA.terminating hterm⟩, fun _ => ⟨?_, ?_, fun _ => ?_⟩,
    interpreted_univ Γ ρ w, ?_⟩
  · rw [value_pi]
    exact .product h ihA.belongs.1 huniverse
  · exact ihA.meaningful (.of_univ hA)
  · intro x hx
    obtain ⟨a, ha⟩ := hbody x hx
    exact ha.meaningful (.of_univ hB)
  · exact ⟨hinterpreted.isType, .of_level fun x hx => (huniverse x hx).ofLevel⟩
  · rintro A' B' heq
    cases heq
    exact hinterpreted

/-- The rule for functions: contracting with any realizer of the argument gives a realizer of the
value. -/
theorem lam (hpi : SortedTyping Γ (.pi A B) (.univ w)) (ihpi : Valid Γ ρ σ (.pi A B) (.univ w))
    (ihb : ∀ {ρ σ}, Models (Γ.enter A) ρ σ → Valid (Γ.enter A) ρ σ b B) :
    Valid Γ ρ σ (.lam A b) (.pi A B) := by
  have hA : Interpreted Γ ρ A := ihpi.domain A B rfl
  have hinterpreted : Interpreted Γ ρ (.pi A B) := ihpi.interpreted hpi
  obtain ⟨hmeaning, -, hk⟩ := ihpi.meaningful (.of_univ hpi)
  obtain ⟨htype, huniform⟩ := hk rfl
  have hB : B ≠ .univ .sort := by
    rintro rfl
    obtain ⟨u, v, w, -, hB, -, -⟩ := hpi.generated
    exact hB.not_sort
  have hterm : Terminating (A.substitute σ) := ihpi.terminating.part (.binderType .pi _ _)
  refine ⟨(belongs_iff hinterpreted.ne_sort).mpr ?_, fun hstatic => ?_, .inr hinterpreted, nofun⟩
  · rw [value_lam, value_pi]
    refine realizes_lam htype (fun x hx => huniform.isType hx) hterm fun ha => ?_
    rw [instantiate_substitute_lift]
    exact (ihb (hρ.enter hA ha)).realizes hB
  · obtain ⟨-, hb⟩ := hstatic.binder hρ.wellFormed
    refine ⟨hmeaning, fun x hx => ?_, nofun⟩
    obtain ⟨a, ha⟩ := mem_elements.mp hx
    exact (ihb (hρ.enter hA ha)).meaningful hb

end Binders

/-- The type of the type constructor for lists is a kind. -/
theorem listType (hρ : Models Γ ρ σ) :
    Valid Γ ρ σ (.const .listType) (.pi (.univ .type) (.univ .type)) := by
  have htype : ∀ {Γ ρ σ}, Valid Γ ρ σ (.univ .type) (.univ .kind) :=
    of_universe ofUniverse_type_mem_kinds
  have hpi : SortedTyping Γ (.pi (.univ .type) (.univ .type)) (.univ .kind) :=
    .pi (.const .type) (.const .type) rfl
  have hinterpreted : Interpreted Γ ρ (.pi (.univ .type) (.univ .type)) :=
    (pi hρ (.const .type) (.const .type) rfl htype fun _ => htype).interpreted hpi
  refine ⟨(belongs_iff hinterpreted.ne_sort).mpr ?_, fun _ => trivial, .inr hinterpreted, nofun⟩
  rw [value_pi, value_univ, value, ofConstant]
  refine realizes_product (.const _) fun {x a} ha => ?_
  have hsort : Universe.type ≠ .sort := by decide
  rw [realizes_ofUniverse hsort] at ha
  rw [value_univ, realizes_ofUniverse hsort]
  exact ⟨isProp_collection, .app_const _ ha.2⟩

/-- The rule for constants. -/
theorem const {c : Constant} (hρ : Models Γ ρ σ) (h : ConstantType c T) :
    Valid Γ ρ σ (.const c) T := by
  have hliteral : ∀ {c d}, ConstantType c (.const d) → ConstantType d (.univ .type) →
      ofConstant c = ∅ → ofConstant d = collection {∅} → Valid Γ ρ σ (.const c) (.const d) := by
    intro c d hc hd hempty hvalue
    refine of_base hρ (.const hc) (.const hd) ?_ trivial ?_ (.const c)
    · rw [value, hvalue]
    · rw [value, hempty]
  cases h with
  | type => exact of_universe ofUniverse_type_mem_kinds
  | kind => exact of_universe isKind_ofUniverse_kind
  | doubleType | boolType | naturalType | integerType => exact of_universe isProp_collection
  | listType => exact listType hρ
  | double x => exact hliteral (.double x) .doubleType rfl rfl
  | bool b => exact hliteral (.bool b) .boolType rfl rfl
  | natural n => exact hliteral (.natural n) .naturalType rfl rfl
  | integer i => exact hliteral (.integer i) .integerType rfl rfl

/-- The type of the result of a function is meaningful, also if the argument is a value. -/
theorem meaningful_codomain {a B : Nameless} {u v : Universe} (hΓ : Γ.WellFormed)
    (hA : SortedTyping Γ A (.univ u)) (hB : SortedTyping (Γ.enter A) B (.univ v))
    (ha : SortedTyping Γ a A) (iha : Valid Γ ρ σ a A)
    (hmeaning : Meaningful (push (value ρ a) ρ) B) : Meaningful ρ (B.instantiate a) := by
  by_cases hu : u = .type
  · -- Nothing is known of the argument, but the codomain has no place for it.
    subst hu
    have hk := Assumptions.getElem?_enter_zero Γ A
    obtain ⟨B', rfl⟩ := (Static.of_univ hB).unused (hΓ.enter hA) hk (hA.weaken A)
    rw [show B'.rename (insertion 0) = B'.weaken from rfl, instantiate_weaken]
    exact (meaningful_weaken _ ρ B').mp hmeaning
  · exact hmeaning.instantiate (iha.meaningful (.of_ne_type ha hA hu))

/-- The rule for applications. If the argument is a value, the type of the result does not depend on
it. -/
theorem app {f a B : Nameless} (hρ : Models Γ ρ σ) (hf : SortedTyping Γ f (.pi A B))
    (ha : SortedTyping Γ a A) (ihf : Valid Γ ρ σ f (.pi A B)) (iha : Valid Γ ρ σ a A) :
    Valid Γ ρ σ (.app f a) (B.instantiate a) := by
  have hΓ := hρ.wellFormed
  obtain ⟨w, hpi, hlevel, -, hmeaning, hk⟩ := ihf.type.resolve_left nofun
  obtain ⟨u, v, w', hA, hB, hw, hww'⟩ := hpi.generated
  obtain rfl := Constant.univ.inj hww'.const_inj
  obtain ⟨htype, huniform⟩ := hk rfl
  have hAsort : A ≠ .univ .sort := by
    rintro rfl
    exact hA.not_sort
  have hargument := iha.realizes hAsort
  have hfunction := ihf.realizes nofun
  rw [value_pi] at hlevel hfunction
  have hresult := realizes_app hfunction hargument
  rw [← value_instantiate, ← value_app] at hresult
  -- A function type is of the same level as the types of its results.
  have hresultLevel : OfLevel v (value ρ (B.instantiate a)) := by
    rw [value_instantiate]
    exact (hlevel.of_product htype huniform hargument.mem).congr (Universe.function?_ne_type hw).1
  have hinterpreted : Interpreted Γ ρ (B.instantiate a) :=
    ⟨v, hB.instantiate ha, hresultLevel,
      meaningful_codomain hΓ hA hB ha iha (hmeaning _ hargument.mem)⟩
  refine ⟨(belongs_iff hinterpreted.ne_sort).mpr hresult, fun hstatic => ?_,
    .inr hinterpreted, nofun⟩
  obtain ⟨hstaticFunction, hstaticArgument⟩ := hstatic.app hΓ
  refine ⟨ihf.meaningful hstaticFunction, iha.meaningful hstaticArgument, ?_⟩
  -- The result is static, so its type is a kind, and these do not have the empty set.
  have hv : v ≠ .type := by
    rintro rfl
    exact Static.not_of_type hΓ (.app hf ha) (hB.instantiate ha) hstatic
  rw [← value_app]
  intro hempty
  apply (hresultLevel.isKind hv).empty_notMem
  rw [← hempty]
  exact hresult.mem

/-- The rule for annotations: erasing the type goes back to a realizer. -/
theorem annot {e : Nameless} {u : Universe} (hρ : Models Γ ρ σ)
    (hA : SortedTyping Γ A (.univ u)) (ihe : Valid Γ ρ σ e A) (ihA : Valid Γ ρ σ A (.univ u)) :
    Valid Γ ρ σ (.annot e A) A := by
  have hinterpreted : Interpreted Γ ρ A := ihA.interpreted hA
  have he := ihe.realizes hinterpreted.ne_sort
  refine ⟨(belongs_iff hinterpreted.ne_sort).mpr ?_, fun hstatic => ?_, .inr hinterpreted, nofun⟩
  · rw [value]
    exact (hinterpreted.isType.candidate _ he.mem).annot he ihA.terminating
  · exact ihe.meaningful (hstatic.annot hρ.wellFormed).1

/-- The rule for operations, whose value is empty. -/
theorem arith (op : Operation) {l r : Nameless} (hρ : Models Γ ρ σ)
    (hl : SortedTyping Γ l (.const .naturalType)) (hr : SortedTyping Γ r (.const .naturalType))
    (ihl : Valid Γ ρ σ l (.const .naturalType)) (ihr : Valid Γ ρ σ r (.const .naturalType)) :
    Valid Γ ρ σ (.arith op l r) (.const .naturalType) := by
  refine of_base hρ (.arith op hl hr) (.const .naturalType) ?_ trivial ?_
    (.arith op ihl.terminating ihr.terminating)
  · rw [value, ofConstant]
  · rw [value]

/-- The value of a type of lists does not depend on the type of the elements. -/
theorem listOf (ihA : Valid Γ ρ σ A (.univ .type)) (hA : SortedTyping Γ A (.univ .type)) :
    value ρ (Nameless.listOf A) = collection {∅} ∧ Meaningful ρ (Nameless.listOf A) := by
  have hmem : value ρ A ∈ elements (ofUniverse .type) := by
    have h := ihA.realizes nofun
    rw [value_univ] at h
    exact h.mem
  have hvalue : value ρ (Nameless.listOf A) = collection {∅} := by
    rw [Nameless.listOf, value_app, value, ofConstant, app_lam hmem]
  refine ⟨hvalue, trivial, ihA.meaningful (.of_univ hA), ?_⟩
  rw [← value_app]
  exact hvalue ▸ isProp_collection.isType.ne_empty

/-- The rule of conversion: convertible types that are meaningful have the same value. -/
theorem conv {T' : Nameless} {u : Universe} (hρ : Models Γ ρ σ) (h : Conv T T')
    (hT' : SortedTyping Γ T' (.univ u)) (iht : Valid Γ ρ σ t T)
    (ihT' : Valid Γ ρ σ T' (.univ u)) : Valid Γ ρ σ t T' := by
  have hinterpreted : Interpreted Γ ρ T' := ihT'.interpreted hT'
  rcases iht.type with rfl | hT
  · exact absurd (hT'.reduces hρ.wellFormed h.symm.reduces_const) Typing.not_sort
  · have heq : value ρ T = value ρ T' := by
      obtain ⟨-, -, -, hmeaning⟩ := hT
      exact value_eq_of_conv h hmeaning (ihT'.meaningful (.of_univ hT'))
    refine ⟨(belongs_iff hinterpreted.ne_sort).mpr ?_, iht.meaningful, .inr hinterpreted,
      iht.domain⟩
    rw [← heq]
    exact iht.realizes hT.ne_sort

end Valid

/-- A typed term realizes its value in the value of its type. -/
theorem Typing.valid (h : SortedTyping Γ t T) (hρ : Models Γ ρ σ) : Valid Γ ρ σ t T := by
  induction h generalizing ρ σ with
  | const h => exact .const hρ h
  | var h => exact .var hρ h
  | pi hA hB h ihA ihB => exact .pi hρ hA hB h (ihA hρ) ihB
  | lam hpi _ ihpi ihb => exact .lam hρ hpi (ihpi hρ) ihb
  | app hf ha ihf iha => exact .app hρ hf ha (ihf hρ) (iha hρ)
  | annot _ hA hK ihe ihA =>
    obtain ⟨u, rfl⟩ := hK
    exact .annot hρ hA (ihe hρ) (ihA hρ)
  | arith op hl hr ihl ihr => exact .arith op hρ hl hr (ihl hρ) (ihr hρ)
  | nil hA ihA =>
    obtain ⟨hvalue, hmeaning⟩ := (ihA hρ).listOf hA
    refine .of_base hρ (.nil hA) hA.listOf hvalue hmeaning ?_ (.nil (ihA hρ).terminating)
    rw [value]
  | list hA he hes ihA ihe ihes =>
    obtain ⟨hvalue, hmeaning⟩ := (ihA hρ).listOf hA
    refine .of_base hρ (.list hA he hes) hA.listOf hvalue hmeaning ?_ ?_
    · rw [value]
    · rw [Nameless.substitute, substituteAll_eq_map]
      refine .list (ihe hρ).terminating fun e' he' => ?_
      obtain ⟨e, he, rfl⟩ := List.mem_map.mp he'
      exact (ihes e he hρ).terminating
  | conv _ h hT' hK iht ihT' =>
    obtain ⟨u, rfl⟩ := hK
    exact .conv hρ h hT' (iht hρ) (ihT' hρ)

/-- Typed terms terminate where the variables have values. -/
theorem Typing.terminating (h : SortedTyping Γ t T) (hρ : Models Γ ρ σ) : Terminating t :=
  .of_substitute (h.valid hρ).terminating

end Trisort.Nameless
