import Trisort.Universe
import Trisort.Proofs.Termination.Candidates
import Trisort.Proofs.Termination.Sets

/-!
# Types of values and types of types

In a type that a term can have, some set is realized, and the realizers of each of its elements are
a candidate (`Value.IsType`). There are two sorts of such types. A proposition has the empty set for
its only element (`Value.IsProp`), so nothing can be told about a value but which terms realize it.
A kind has any other elements (`Value.IsKind`). As no type is both, the two can be told apart by
what they are, without looking at the terms that they interpret.

The product of a family of types over a type has functions for its elements, and a function is
realized by the terms that take realizers of arguments to realizers of values. The universe of a
product is found from the universes of its parts by the rule for the universes of function types
(`Value.InUniverse.product`): propositions are closed under all products, the small kinds under
products over small kinds, and the kinds under products over kinds.
-/

namespace Trisort.Nameless.Value

open ZFSet

variable {T A X x f : Value} {F G : Value → Value} {t a : Nameless}

/-- Some set is realized in the type, and the realizers of each of its elements are a candidate. -/
structure IsType (T : Value) : Prop where
  nonempty : ∃ x, x ∈ elements T
  candidate : ∀ x ∈ elements T, IsCandidate (realizers T x)

/-- What realizes an element of a type terminates. -/
theorem IsType.terminating (hT : IsType T) (h : Realizes T x t) : Terminating t :=
  (hT.candidate x h.mem).terminating h

/-- The type with all elements of `X`, each of which all terminating terms realize. -/
noncomputable def collection (X : Value) : Value := relation X fun _ => {t | Terminating t}

/-- In a collection, all terminating terms realize each element. -/
theorem realizes_collection : Realizes (collection X) x t ↔ x ∈ X ∧ Terminating t :=
  realizes_relation

/-- A collection of a small set is small. -/
theorem collection_mem_small (hX : X ∈ small) : collection X ∈ small := relation_mem_small hX

/-- A nonempty set becomes the elements of a type by a family of candidates. -/
theorem isType_relation {R : Value → Set Nameless} (hX : ∃ x, x ∈ X)
    (hR : ∀ x ∈ X, IsCandidate (R x)) : elements (relation X R) = X ∧ IsType (relation X R) := by
  have helements : elements (relation X R) = X :=
    elements_relation fun x hx => (hR x hx).nonempty
  refine ⟨helements, ⟨by rwa [helements], ?_⟩⟩
  intro x hx
  rw [helements] at hx
  rw [realizers_relation hx]
  exact hR x hx

/-! ### Propositions and kinds -/

/-- The type whose only element is the empty set, realized by the terms of `C`. -/
noncomputable def prop (C : Set Nameless) : Value := relation {∅} fun _ => C

/-- The type is that of a candidate. -/
def IsProp (T : Value) : Prop := ∃ C, IsCandidate C ∧ T = prop C

/-- The type does not have the empty set for an element. -/
structure IsKind (T : Value) : Prop extends IsType T where
  empty_notMem : ∅ ∉ elements T

/-- A proposition has the empty set for its only element. -/
theorem IsProp.elements_eq (h : IsProp T) : elements T = {∅} := by
  obtain ⟨C, hC, rfl⟩ := h
  exact (isType_relation ⟨∅, mem_singleton.mpr rfl⟩ fun _ _ => hC).1

/-- A proposition is a type. -/
theorem IsProp.isType (h : IsProp T) : IsType T := by
  obtain ⟨C, hC, rfl⟩ := h
  exact (isType_relation ⟨∅, mem_singleton.mpr rfl⟩ fun _ _ => hC).2

/-- No proposition is a kind. -/
theorem IsProp.not_isKind (h : IsProp T) : ¬ IsKind T := by
  intro hkind
  apply hkind.empty_notMem
  rw [h.elements_eq]
  exact mem_singleton.mpr rfl

/-- The collection of the empty set alone is a proposition. -/
theorem isProp_collection : IsProp (collection {∅}) := ⟨_, isCandidate_terminating, rfl⟩

/-- A collection of sets other than the empty one is a kind. -/
theorem isKind_collection (hX : ∃ x, x ∈ X) (hempty : ∅ ∉ X) : IsKind (collection X) := by
  obtain ⟨helements, htype⟩ := isType_relation hX fun _ _ => isCandidate_terminating
  refine ⟨htype, ?_⟩
  rw [collection, helements]
  exact hempty

/-! ### Products -/

/-- The terms that take the realizers of each element `x` of `A` to realizers of `f` at `x`. -/
def transformers (A : Value) (F : Value → Value) (f : Value) : Set Nameless :=
  arrows (fun x : {x // x ∈ elements A} => realizers A x) fun x => realizers (F x) (app f x)

/-- The type of the functions that take each element `x` of `A` to an element of `F x`. -/
noncomputable def product (A : Value) (F : Value → Value) : Value :=
  relation (functions (elements A) fun x => elements (F x)) (transformers A F)

/-- A product is determined by the family on the elements of its domain. -/
theorem product_congr (h : ∀ x ∈ elements A, F x = G x) : product A F = product A G := by
  have hfunctions : functions (elements A) (fun x => elements (F x)) =
      functions (elements A) fun x => elements (G x) :=
    functions_congr fun x hx => by rw [h x hx]
  rw [product, product, hfunctions]
  refine relation_congr fun f _ => ?_
  unfold transformers
  congr 1
  funext x
  rw [h x x.2]

/-- Realizers of functions and of arguments make realizers of values. -/
theorem realizes_app (hf : Realizes (product A F) f t) (hx : Realizes A x a) :
    Realizes (F x) (app f x) (.app t a) :=
  (realizes_relation.mp hf).2.2 ⟨x, hx.mem⟩ a hx

/-- A terminating term that takes realizers to realizers realizes a function. -/
theorem realizes_product (ht : Terminating t)
    (h : ∀ {x a}, Realizes A x a → Realizes (F x) (G x) (.app t a)) :
    Realizes (product A F) (lam (elements A) G) t := by
  refine realizes_relation.mpr ⟨lam_mem_functions fun x hx => ?_, ht, ?_⟩
  · obtain ⟨a, ha⟩ := mem_elements.mp hx
    exact (h ha).mem
  · rintro ⟨x, hx⟩ a ha
    show Realizes (F x) (app (lam (elements A) G) x) _
    rw [app_lam hx]
    exact h ha

section Product

variable (hA : IsType A)
include hA

/-- The realizers of a function are a candidate. -/
theorem isCandidate_transformers (hF : ∀ x ∈ elements A, IsType (F x))
    (hf : f ∈ functions (elements A) fun x => elements (F x)) :
    IsCandidate (transformers A F f) := by
  refine .arrows (fun x => hA.candidate x x.2) fun x => ?_
  exact (hF x x.2).candidate _ ((mem_functions.mp hf).1 x x.2)

/-- A product of types is a type, and its elements are the functions. -/
theorem isType_product (hF : ∀ x ∈ elements A, IsType (F x)) :
    elements (product A F) = functions (elements A) (fun x => elements (F x)) ∧
      IsType (product A F) := by
  refine isType_relation ?_ fun f hf => isCandidate_transformers hA hF hf
  choose g hg using fun x hx => (hF x hx).nonempty
  classical
  refine ⟨lam (elements A) fun x => if hx : x ∈ elements A then g x hx else ∅,
    lam_mem_functions fun x hx => ?_⟩
  rw [dif_pos hx]
  exact hg x hx

/-- A `λ` realizes a function if its body does so at each argument. -/
theorem realizes_lam {D b : Nameless} (hF : ∀ x ∈ elements A, IsType (F x)) (hD : Terminating D)
    (h : ∀ {x a}, Realizes A x a → Realizes (F x) (G x) (b.instantiate a)) :
    Realizes (product A F) (lam (elements A) G) (.lam D b) := by
  have hb : Terminating b := by
    obtain ⟨x, hx⟩ := hA.nonempty
    obtain ⟨a, ha⟩ := mem_elements.mp hx
    exact .of_instantiate ((hF x hx).terminating (h ha))
  refine realizes_product (.binder _ hD hb) fun {x a} ha => ?_
  exact ((hF x ha.mem).candidate _ (h ha).mem).beta hD (hA.terminating ha) (h ha)

/-- The only function to propositions is the empty set, so a product of propositions is one. -/
theorem isProp_product (hF : ∀ x ∈ elements A, IsProp (F x)) : IsProp (product A F) := by
  have hfunctions : functions (elements A) (fun x => elements (F x)) = {∅} :=
    functions_eq_singleton fun x hx => (hF x hx).elements_eq
  have hmem : ∅ ∈ functions (elements A) (fun x => elements (F x)) := by
    rw [hfunctions]
    exact mem_singleton.mpr rfl
  refine ⟨transformers A F ∅, isCandidate_transformers hA (fun x hx => (hF x hx).isType) hmem, ?_⟩
  rw [product, prop, hfunctions]
  refine relation_congr fun f hf => ?_
  rw [mem_singleton.mp hf]

/-- A product of kinds is a kind, whatever the domain. -/
theorem isKind_product (hF : ∀ x ∈ elements A, IsKind (F x)) : IsKind (product A F) := by
  obtain ⟨helements, hproduct⟩ := isType_product hA fun x hx => (hF x hx).toIsType
  refine ⟨hproduct, ?_⟩
  rw [helements]
  intro hempty
  obtain ⟨x, hx⟩ := hA.nonempty
  apply (hF x hx).empty_notMem
  rw [← app_empty x]
  exact (mem_functions.mp hempty).1 x hx

end Product

/-- A product of small types over a small type is small. -/
theorem product_mem_small (hA : A ∈ small) (hF : ∀ x ∈ elements A, F x ∈ small) :
    product A F ∈ small :=
  relation_mem_small (functions_mem_small (elements_mem_small hA) fun x hx =>
    elements_mem_small (hF x hx))

/-! ### Universes -/

/-- The set of the propositions. -/
noncomputable def props : Value := range fun C : {C : Set Nameless // IsCandidate C} => prop C

/-- The set of the small kinds. -/
noncomputable def kinds : Value := small.sep IsKind

/-- The set of the propositions has the propositions for its elements. -/
theorem mem_props : T ∈ props ↔ IsProp T := by
  rw [props, mem_range]
  constructor
  · rintro ⟨⟨C, hC⟩, rfl⟩
    exact ⟨C, hC, rfl⟩
  · rintro ⟨C, hC, rfl⟩
    exact ⟨⟨C, hC⟩, rfl⟩

/-- The set of the small kinds has the small kinds for its elements. -/
theorem mem_kinds : T ∈ kinds ↔ T ∈ small ∧ IsKind T := mem_sep

/-- A type is not the empty set. -/
theorem IsType.ne_empty (hT : IsType T) : T ≠ ∅ := by
  rintro rfl
  obtain ⟨x, hx⟩ := hT.nonempty
  obtain ⟨t, ht⟩ := mem_elements.mp hx
  exact notMem_empty _ ht

/-- Propositions are small. -/
theorem prop_mem_small (C : Set Nameless) : prop C ∈ small := by
  apply relation_mem_small
  rw [← pair_eq_singleton]
  exact insert_mem_small empty_mem_small empty_mem_small

/-- There is a small set of all propositions. -/
theorem props_mem_small : props ∈ small := by
  refine mem_small_of_listed (fun C : {C : Set Nameless // IsCandidate C} => prop C) ?_
  intro T hT
  obtain ⟨C, rfl⟩ := mem_range.mp hT
  exact ⟨prop_mem_small C, C, rfl⟩

/-- The types that a universe is the type of. All of them are propositions, small kinds or kinds. -/
def InUniverse : Universe → Value → Prop
  | .type, T => IsProp T
  | .kind, T => T ∈ kinds
  | .sort, T => IsKind T

/-- The universe as a type. There is no set of all kinds. -/
noncomputable def ofUniverse : Universe → Value
  | .type => collection props
  | .kind => collection kinds
  | .sort => ∅

/-- The universe `Type` is a kind. -/
theorem isKind_ofUniverse_type : IsKind (ofUniverse .type) :=
  isKind_collection ⟨_, mem_props.mpr isProp_collection⟩ fun h =>
    (mem_props.mp h).isType.ne_empty rfl

/-- The universe `Type` is a small kind. -/
theorem ofUniverse_type_mem_kinds : ofUniverse .type ∈ kinds :=
  mem_kinds.mpr ⟨collection_mem_small props_mem_small, isKind_ofUniverse_type⟩

/-- The universe `Kind` is a kind. -/
theorem isKind_ofUniverse_kind : IsKind (ofUniverse .kind) :=
  isKind_collection ⟨_, ofUniverse_type_mem_kinds⟩ fun h => (mem_kinds.mp h).2.ne_empty rfl

/-- In a universe that is a type, all terminating terms realize the types that it is the type of. -/
theorem realizes_ofUniverse {u : Universe} (hu : u ≠ .sort) :
    Realizes (ofUniverse u) T t ↔ InUniverse u T ∧ Terminating t := by
  cases u with
  | type => rw [ofUniverse, realizes_collection, mem_props, InUniverse]
  | kind => rw [ofUniverse, realizes_collection, InUniverse]
  | sort => exact absurd rfl hu

/-- The type is as the level of its universe wants it: a proposition in `Type`, a kind above. -/
def OfLevel (u : Universe) (T : Value) : Prop :=
  u = .type ∧ IsProp T ∨ u ≠ .type ∧ IsKind T

/-- A type in a universe is as the level of the universe wants it. -/
theorem InUniverse.ofLevel {u : Universe} (h : InUniverse u T) : OfLevel u T := by
  cases u with
  | type => exact .inl ⟨rfl, h⟩
  | kind => exact .inr ⟨nofun, (mem_kinds.mp h).2⟩
  | sort => exact .inr ⟨nofun, h⟩

/-- What is of the level of a universe is a type. -/
theorem OfLevel.isType {u : Universe} (h : OfLevel u T) : IsType T := by
  rcases h with ⟨-, h⟩ | ⟨-, h⟩
  · exact h.isType
  · exact h.toIsType

/-- Above `Type`, what is of the level of a universe is a kind. -/
theorem OfLevel.isKind {u : Universe} (h : OfLevel u T) (hu : u ≠ .type) : IsKind T :=
  (h.resolve_left fun h => hu h.1).2

/-- In `Type`, what is of the level of a universe is a proposition. -/
theorem OfLevel.isProp {u : Universe} (h : OfLevel u T) (hu : u = .type) : IsProp T :=
  (h.resolve_right fun h => h.1 hu).2

/-- There are only two levels, that of `Type` and the one above. -/
theorem OfLevel.congr {u v : Universe} (h : OfLevel u T) (huv : u ≠ .type ↔ v ≠ .type) :
    OfLevel v T := by
  by_cases hv : v = .type
  · exact .inl ⟨hv, h.isProp (not_ne_iff.mp fun hu => huv.mp hu hv)⟩
  · exact .inr ⟨hv, h.isKind (huv.mpr hv)⟩

/-- The rule for the universes of function types is right for products. -/
theorem InUniverse.product {u v w : Universe} (h : u.function? v = some w) (hA : InUniverse u A)
    (hF : ∀ x ∈ elements A, InUniverse v (F x)) : InUniverse w (product A F) := by
  have htype : IsType A := hA.ofLevel.isType
  cases v with
  | type =>
    -- This is where `Type` is impredicative: the universe of the domain does not matter.
    have hw : w = .type := by cases u <;> cases h <;> rfl
    rw [hw]
    exact isProp_product htype hF
  | kind =>
    have hkind : IsKind (Value.product A F) :=
      isKind_product htype fun x hx => (mem_kinds.mp (hF x hx)).2
    cases u with
    | type => cases h
    | kind =>
      cases h
      refine mem_kinds.mpr ⟨product_mem_small (mem_kinds.mp hA).1 fun x hx => ?_, hkind⟩
      exact (mem_kinds.mp (hF x hx)).1
    | sort =>
      cases h
      exact hkind
  | sort =>
    have hw : w = .sort := by cases u <;> cases h; rfl
    rw [hw]
    exact isKind_product htype hF

/-- A family of propositions only, or of kinds only. -/
def Uniform (A : Value) (F : Value → Value) : Prop :=
  (∀ x ∈ elements A, IsProp (F x)) ∨ ∀ x ∈ elements A, IsKind (F x)

/-- A family at one level is uniform. -/
theorem Uniform.of_level {u : Universe} (h : ∀ x ∈ elements A, OfLevel u (F x)) : Uniform A F := by
  by_cases hu : u = .type
  · exact .inl fun x hx => (h x hx).isProp hu
  · exact .inr fun x hx => (h x hx).isKind hu

/-- The members of a uniform family are types. -/
theorem Uniform.isType (hF : Uniform A F) (hx : x ∈ elements A) : IsType (F x) := by
  rcases hF with hF | hF
  · exact (hF x hx).isType
  · exact (hF x hx).toIsType

/-- Whether a family is uniform is determined by its members. -/
theorem Uniform.congr (hF : Uniform A F) (h : ∀ x ∈ elements A, F x = G x) : Uniform A G := by
  refine hF.imp (fun hF x hx => ?_) fun hF x hx => ?_
  · rw [← h x hx]
    exact hF x hx
  · rw [← h x hx]
    exact hF x hx

/-- The level of a product is that of the types in a uniform family. -/
theorem OfLevel.of_product {w : Universe} (hA : IsType A) (hF : Uniform A F)
    (h : OfLevel w (Value.product A F)) (hx : x ∈ elements A) : OfLevel w (F x) := by
  rcases hF with hF | hF
  · rcases h with ⟨hw, -⟩ | ⟨-, h⟩
    · exact .inl ⟨hw, hF x hx⟩
    · exact absurd h (isProp_product hA hF).not_isKind
  · rcases h with ⟨-, h⟩ | ⟨hw, -⟩
    · exact absurd (isKind_product hA hF) h.not_isKind
    · exact .inr ⟨hw, hF x hx⟩

end Trisort.Nameless.Value
