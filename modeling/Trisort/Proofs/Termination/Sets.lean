import Trisort.Proofs.Nameless
import Mathlib.SetTheory.Cardinal.SchroederBernstein
import Mathlib.SetTheory.ZFC.Basic

/-!
# Sets that terms are interpreted by

Types, functions on types and kinds are interpreted by sets. A function is the set of the pairs of
an argument and an element of its value there, so that the empty set is a function on every set,
the one whose values are all empty. A type is a relation between sets and terms: the term `t`
realizes the set `x` in it. The sets that are realized in a type by some term are its elements.

The sets that are built from sets no larger than a type of terms, all the way down, are the small
ones. They form a set themselves (`Value.small`), and small sets make small functions
(`Value.lam_mem_small`), function spaces (`Value.functions_mem_small`) and relations
(`Value.relation_mem_small`).
-/

namespace Trisort.Nameless

open ZFSet

/-- What types and the functions on them are interpreted by. -/
abbrev Value := ZFSet.{1}

namespace Value

variable {X x y f T : Value} {t : Nameless}

/-! ### Small sets -/

/-- A set that is no larger than a type of terms, as one of all sets. -/
noncomputable def ofSmall (p : PSet.{0}) : Value := ZFSet.mk (PSet.Lift.{0, 1} p)

/-- The elements of a set taken over are the elements taken over. -/
theorem mem_ofSmall {I : Type} {p : I → PSet.{0}} :
    y ∈ ofSmall ⟨I, p⟩ ↔ ∃ i, ofSmall (p i) = y := by
  induction y using Quotient.inductionOn with
  | h q =>
    constructor
    · rintro ⟨⟨i⟩, hi⟩
      exact ⟨i, (ZFSet.sound hi).symm⟩
    · rintro ⟨i, hi⟩
      exact ⟨⟨i⟩, ZFSet.exact hi.symm⟩

/-- The set of the sets that are as small as types of terms, with all that is inside them. -/
noncomputable def small : Value := @range _ (small_self PSet.{0}) ofSmall

/-- A set is small if its elements are, and there are no more of them than a type of the lowest
level has. -/
theorem mem_small_iff : x ∈ small ↔ Small.{0} {y // y ∈ x} ∧ ∀ y ∈ x, y ∈ small := by
  constructor
  · intro hx
    obtain ⟨⟨I, p⟩, rfl⟩ := mem_range.mp hx
    constructor
    · choose index hindex using fun y : {y // y ∈ ofSmall ⟨I, p⟩} => mem_ofSmall.mp y.2
      refine small_of_injective fun y z (hyz : index y = index z) => ?_
      apply Subtype.ext
      rw [← hindex y, hyz, hindex z]
    · intro y hy
      obtain ⟨i, rfl⟩ := mem_ofSmall.mp hy
      exact mem_range_self _
  · rintro ⟨hsmall, hx⟩
    choose p hp using fun y : {y // y ∈ x} => mem_range.mp (hx y.1 y.2)
    refine mem_range.mpr ⟨⟨Shrink {y // y ∈ x}, fun i => p ((equivShrink _).symm i)⟩, ?_⟩
    apply ZFSet.ext
    intro z
    rw [mem_ofSmall]
    constructor
    · rintro ⟨i, rfl⟩
      rw [hp]
      exact ((equivShrink _).symm i).2
    · intro hz
      refine ⟨equivShrink _ ⟨z, hz⟩, ?_⟩
      rw [Equiv.symm_apply_apply, hp]

/-- What a small family of small sets lists is a small set. -/
theorem mem_small_of_listed {ι : Type*} [Small.{0} ι] (g : ι → Value)
    (h : ∀ y ∈ x, y ∈ small ∧ ∃ i, g i = y) : x ∈ small := by
  refine mem_small_iff.mpr ⟨?_, fun y hy => (h y hy).1⟩
  choose index hindex using fun y : {y // y ∈ x} => (h y.1 y.2).2
  refine small_of_injective fun y z (hyz : index y = index z) => ?_
  apply Subtype.ext
  rw [← hindex y, hyz, hindex z]

/-- A set of two small sets is small. -/
theorem insert_mem_small (hx : x ∈ small) (hy : y ∈ small) : ({x, y} : Value) ∈ small := by
  refine mem_small_of_listed (fun b : Bool => cond b x y) ?_
  intro z hz
  rcases mem_pair.mp hz with rfl | rfl
  · exact ⟨hx, true, rfl⟩
  · exact ⟨hy, false, rfl⟩

/-- A pair of small sets is small. -/
theorem pair_mem_small (hx : x ∈ small) (hy : y ∈ small) : pair x y ∈ small := by
  have hxx : ({x} : Value) ∈ small := by
    rw [← pair_eq_singleton]
    exact insert_mem_small hx hx
  exact insert_mem_small hxx (insert_mem_small hx hy)

/-- The empty set is small. -/
theorem empty_mem_small : ∅ ∈ small :=
  mem_small_of_listed (fun _ : Bool => ∅) fun y hy => absurd hy (notMem_empty y)

/-- Each term can be given a small set for its name. The small sets are too many to be named by
terms, so the terms are named by small sets. -/
theorem exists_name : ∃ name : Nameless → Value, Function.Injective name ∧ ∀ t, name t ∈ small := by
  rcases Function.Embedding.total Nameless {x // x ∈ small} with ⟨⟨e⟩⟩ | ⟨⟨e⟩⟩
  · exact ⟨fun t => e t, fun t u h => e.injective (Subtype.ext h), fun t => (e t).2⟩
  · have hsmall : Small.{0} {x // x ∈ small} := small_of_injective e.injective
    exact absurd (mem_small_iff.mpr ⟨hsmall, fun _ h => h⟩) (ZFSet.mem_irrefl small)

/-- The name of a term among the small sets. -/
noncomputable def name : Nameless → Value := exists_name.choose

/-- Different terms have different names. -/
theorem name_injective : Function.Injective name := exists_name.choose_spec.1

/-- The name of a term is small. -/
theorem name_mem_small (t : Nameless) : name t ∈ small := exists_name.choose_spec.2 t

/-! ### Functions -/

/-- The function that takes each element `x` of `X` to the set `F x`. -/
noncomputable def lam (X : Value) (F : Value → Value) : Value :=
  range fun p : Σ x : {x // x ∈ X}, {y // y ∈ F x} => pair p.1 p.2

/-- The value of a function at `x`. -/
def app (f x : Value) : Value := (⋃₀ (⋃₀ f : Value)).sep fun y => pair x y ∈ f

variable {F G Y : Value → Value}

/-- A function consists of the pairs of an argument and an element of its value there. -/
theorem mem_lam {z : Value} : z ∈ lam X F ↔ ∃ x ∈ X, ∃ y ∈ F x, pair x y = z := by
  rw [lam, mem_range]
  constructor
  · rintro ⟨⟨⟨x, hx⟩, y, hy⟩, h⟩
    exact ⟨x, hx, y, hy, h⟩
  · rintro ⟨x, hx, y, hy, h⟩
    exact ⟨⟨⟨x, hx⟩, y, hy⟩, h⟩

/-- A pair belongs to a function if its second part is an element of the value at the first. -/
theorem pair_mem_lam : pair x y ∈ lam X F ↔ x ∈ X ∧ y ∈ F x := by
  rw [mem_lam]
  constructor
  · rintro ⟨x', hx', y', hy', h⟩
    obtain ⟨rfl, rfl⟩ := pair_inj.mp h
    exact ⟨hx', hy'⟩
  · rintro ⟨hx, hy⟩
    exact ⟨x, hx, y, hy, rfl⟩

/-- The elements of a value are found in pairs with the argument. -/
theorem mem_app : y ∈ app f x ↔ pair x y ∈ f := by
  rw [app, mem_sep, and_iff_right_iff_imp]
  intro h
  exact mem_sUnion_of_mem (mem_pair.mpr (.inr rfl))
    (mem_sUnion_of_mem (mem_pair.mpr (.inr rfl)) h)

/-- A function has the values that it was given. -/
theorem app_lam (hx : x ∈ X) : app (lam X F) x = F x := by
  apply ZFSet.ext
  intro y
  rw [mem_app, pair_mem_lam, and_iff_right hx]

/-- A function has a value other than the empty set on its domain only. -/
theorem mem_of_app_lam_ne_empty (h : app (lam X F) x ≠ ∅) : x ∈ X := by
  obtain ⟨y, hy⟩ := (eq_empty_or_nonempty _).resolve_left h
  exact (pair_mem_lam.mp (mem_app.mp hy)).1

/-- A function is determined by its values on its domain. -/
theorem lam_congr (h : ∀ x ∈ X, F x = G x) : lam X F = lam X G := by
  apply ZFSet.ext
  intro z
  rw [mem_lam, mem_lam]
  refine exists_congr fun x => and_congr_right fun hx => ?_
  rw [h x hx]

/-- The values of the empty function are empty. -/
theorem app_empty (x : Value) : app ∅ x = ∅ :=
  (eq_empty _).mpr fun _ hy => notMem_empty _ (mem_app.mp hy)

/-- A function whose values are all empty is empty. -/
theorem lam_eq_empty (h : ∀ x ∈ X, F x = ∅) : lam X F = ∅ := by
  rw [eq_empty]
  intro z hz
  obtain ⟨x, hx, y, hy, -⟩ := mem_lam.mp hz
  rw [h x hx] at hy
  exact notMem_empty y hy

/-- A function with small values on a small domain is small. -/
theorem lam_mem_small (hX : X ∈ small) (hF : ∀ x ∈ X, F x ∈ small) : lam X F ∈ small := by
  have : Small.{0} {x // x ∈ X} := (mem_small_iff.mp hX).1
  have : ∀ x : {x // x ∈ X}, Small.{0} {y // y ∈ F x} := fun x => (mem_small_iff.mp (hF x x.2)).1
  refine mem_small_of_listed
    (fun p : Σ x : {x // x ∈ X}, {y // y ∈ F x} => pair p.1 p.2) ?_
  intro z hz
  obtain ⟨x, hx, y, hy, rfl⟩ := mem_lam.mp hz
  exact ⟨pair_mem_small ((mem_small_iff.mp hX).2 x hx) ((mem_small_iff.mp (hF x hx)).2 y hy),
    ⟨⟨x, hx⟩, y, hy⟩, rfl⟩

open Classical in
/-- The set of the functions on `X` whose value at each `x` is an element of `Y x`. -/
noncomputable def functions (X : Value) (Y : Value → Value) : Value :=
  range fun g : (x : {x // x ∈ X}) → {y // y ∈ Y x} =>
    lam X fun x => if hx : x ∈ X then g ⟨x, hx⟩ else ∅

/-- The functions of a function space are those with values in the right places and nothing else in
them. -/
theorem mem_functions :
    f ∈ functions X Y ↔ (∀ x ∈ X, app f x ∈ Y x) ∧ f = lam X (app f) := by
  rw [functions, mem_range]
  constructor
  · rintro ⟨g, rfl⟩
    constructor
    · intro x hx
      rw [app_lam hx, dif_pos hx]
      exact (g ⟨x, hx⟩).2
    · refine lam_congr fun x hx => ?_
      rw [app_lam hx]
  · rintro ⟨happ, hf⟩
    refine ⟨fun x => ⟨app f x, happ x x.2⟩, (lam_congr fun x hx => ?_).trans hf.symm⟩
    rw [dif_pos hx]

/-- A function with values in the right places belongs to the function space. -/
theorem lam_mem_functions (h : ∀ x ∈ X, F x ∈ Y x) : lam X F ∈ functions X Y := by
  refine mem_functions.mpr ⟨fun x hx => ?_, lam_congr fun x hx => ?_⟩
  · rw [app_lam hx]
    exact h x hx
  · rw [app_lam hx]

/-- A function space is determined by where the values on the domain may lie. -/
theorem functions_congr {Z : Value → Value} (h : ∀ x ∈ X, Y x = Z x) :
    functions X Y = functions X Z := by
  apply ZFSet.ext
  intro f
  rw [mem_functions, mem_functions]
  refine and_congr_left fun _ => forall₂_congr fun x hx => ?_
  rw [h x hx]

/-- There is but one function whose values are all empty. -/
theorem functions_eq_singleton (h : ∀ x ∈ X, Y x = {∅}) : functions X Y = {∅} := by
  apply ZFSet.ext
  intro f
  rw [mem_functions, mem_singleton]
  constructor
  · rintro ⟨happ, hlam⟩
    rw [hlam]
    refine lam_eq_empty fun x hx => ?_
    have hvalue := happ x hx
    rwa [h x hx, mem_singleton] at hvalue
  · rintro rfl
    refine ⟨fun x hx => ?_, (lam_eq_empty fun x _ => app_empty x).symm⟩
    rw [app_empty, h x hx]
    exact mem_singleton.mpr rfl

/-- A space of functions between small sets is small. -/
theorem functions_mem_small (hX : X ∈ small) (hY : ∀ x ∈ X, Y x ∈ small) :
    functions X Y ∈ small := by
  have : Small.{0} {x // x ∈ X} := (mem_small_iff.mp hX).1
  have : ∀ x : {x // x ∈ X}, Small.{0} {y // y ∈ Y x} := fun x => (mem_small_iff.mp (hY x x.2)).1
  classical
  refine mem_small_of_listed (fun g : (x : {x // x ∈ X}) → {y // y ∈ Y x} =>
    lam X fun x => if hx : x ∈ X then g ⟨x, hx⟩ else ∅) ?_
  intro f hf
  constructor
  · obtain ⟨happ, hlam⟩ := mem_functions.mp hf
    rw [hlam]
    exact lam_mem_small hX fun x hx => (mem_small_iff.mp (hY x hx)).2 _ (happ x hx)
  · exact mem_range.mp hf

/-! ### Types as relations -/

/-- The term `t` realizes the set `x` in the type `T`. -/
def Realizes (T x : Value) (t : Nameless) : Prop := pair x (name t) ∈ T

/-- The terms that realize `x` in the type `T`. -/
def realizers (T x : Value) : Set Nameless := {t | Realizes T x t}

/-- The sets that some term realizes in the type `T`. -/
def elements (T : Value) : Value := (⋃₀ (⋃₀ T : Value)).sep fun x => ∃ t, Realizes T x t

/-- The type in which each element `x` of `X` is realized by the terms of `R x`. -/
noncomputable def relation (X : Value) (R : Value → Set Nameless) : Value :=
  range fun p : Σ x : {x // x ∈ X}, {t // t ∈ R x} => pair p.1 (name p.2)

variable {R S : Value → Set Nameless}

/-- The elements of a type are the sets that some term realizes. -/
theorem mem_elements : x ∈ elements T ↔ ∃ t, Realizes T x t := by
  rw [elements, mem_sep, and_iff_right_iff_imp]
  rintro ⟨t, ht⟩
  exact mem_sUnion_of_mem (mem_singleton.mpr rfl)
    (mem_sUnion_of_mem (mem_pair.mpr (.inl rfl)) ht)

/-- What is realized is an element. -/
theorem Realizes.mem (h : Realizes T x t) : x ∈ elements T := mem_elements.mpr ⟨t, h⟩

/-- A type consists of the pairs of a set and the name of a realizer. -/
theorem mem_relation {z : Value} :
    z ∈ relation X R ↔ ∃ x ∈ X, ∃ t ∈ R x, pair x (name t) = z := by
  rw [relation, mem_range]
  constructor
  · rintro ⟨⟨⟨x, hx⟩, t, ht⟩, h⟩
    exact ⟨x, hx, t, ht, h⟩
  · rintro ⟨x, hx, t, ht, h⟩
    exact ⟨⟨⟨x, hx⟩, t, ht⟩, h⟩

/-- In the type of a relation, a term realizes a set if the relation says so. -/
theorem realizes_relation : Realizes (relation X R) x t ↔ x ∈ X ∧ t ∈ R x := by
  rw [Realizes, mem_relation]
  constructor
  · rintro ⟨x', hx', t', ht', h⟩
    obtain ⟨rfl, ht⟩ := pair_inj.mp h
    obtain rfl := name_injective ht
    exact ⟨hx', ht'⟩
  · rintro ⟨hx, ht⟩
    exact ⟨x, hx, t, ht, rfl⟩

/-- In the type of a relation, the realizers of a set are those that the relation gives it. -/
theorem realizers_relation (hx : x ∈ X) : realizers (relation X R) x = R x := by
  apply Set.ext
  intro t
  exact realizes_relation.trans (and_iff_right hx)

/-- If the relation gives a realizer to each set, all of them are elements. -/
theorem elements_relation (hR : ∀ x ∈ X, (R x).Nonempty) : elements (relation X R) = X := by
  apply ZFSet.ext
  intro x
  rw [mem_elements]
  constructor
  · rintro ⟨t, ht⟩
    exact (realizes_relation.mp ht).1
  · intro hx
    obtain ⟨t, ht⟩ := hR x hx
    exact ⟨t, realizes_relation.mpr ⟨hx, ht⟩⟩

/-- The type of a relation is determined by the relation on the given sets. -/
theorem relation_congr (h : ∀ x ∈ X, R x = S x) : relation X R = relation X S := by
  apply ZFSet.ext
  intro z
  rw [mem_relation, mem_relation]
  refine exists_congr fun x => and_congr_right fun hx => ?_
  rw [h x hx]

/-- A relation between a small set and terms is small. -/
theorem relation_mem_small (hX : X ∈ small) : relation X R ∈ small := by
  have : Small.{0} {x // x ∈ X} := (mem_small_iff.mp hX).1
  refine mem_small_of_listed
    (fun p : Σ x : {x // x ∈ X}, {t // t ∈ R x} => pair p.1 (name p.2)) ?_
  intro z hz
  obtain ⟨p, rfl⟩ := mem_range.mp hz
  exact ⟨pair_mem_small ((mem_small_iff.mp hX).2 _ p.1.2) (name_mem_small _), p, rfl⟩

/-- A small type has a small set of elements. -/
theorem elements_mem_small (hT : T ∈ small) : elements T ∈ small := by
  have hsmall : Small.{0} {z // z ∈ T} := (mem_small_iff.mp hT).1
  refine mem_small_iff.mpr ⟨?_, ?_⟩
  · choose t ht using fun x : {x // x ∈ elements T} => mem_elements.mp x.2
    refine small_of_injective (β := {z // z ∈ T}) (f := fun x => ⟨pair x (name (t x)), ht x⟩) ?_
    intro x y hxy
    exact Subtype.ext (pair_inj.mp (congrArg Subtype.val hxy)).1
  · intro x hx
    obtain ⟨t, ht⟩ := mem_elements.mp hx
    have hpair : pair x (name t) ∈ small := (mem_small_iff.mp hT).2 _ ht
    have hsingle : {x} ∈ small := (mem_small_iff.mp hpair).2 _ (mem_pair.mpr (.inl rfl))
    exact (mem_small_iff.mp hsingle).2 x (mem_singleton.mpr rfl)

end Value

end Trisort.Nameless
