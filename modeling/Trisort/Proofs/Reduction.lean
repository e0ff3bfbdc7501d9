import Trisort.Proofs.Nameless
import Mathlib.Data.List.Forall2
import Mathlib.Logic.Relation

/-!
# Reduction and convertibility

`Step` contracts one redex anywhere in a nameless term: a function applied to an argument, an
annotation, or an arithmetic operation on two literals whose result is a literal. `Reduces` is any
number of steps, `Conv` the equivalence they generate.

Reduction is confluent (`Reduces.confluent`). The proof follows parallel reduction: `Par` contracts
any set of redexes that a term shows at once, and every parallel reduct of a term reduces in
parallel to its complete development (`Par.triangle`), in which all of them are contracted. So two
terms are convertible exactly if they have a common reduct (`conv_iff_join`), a term has at most one
normal form, and the outer form of a type can be read off from any of its reducts.
-/

namespace Trisort.Nameless

open Relation

/-- Contraction of one redex, anywhere in a term. -/
inductive Step : Nameless → Nameless → Prop where
  | beta (A b a : Nameless) : Step (.app (.lam A b) a) (b.instantiate a)
  | erase (e A : Nameless) : Step (.annot e A) e
  | compute {op : Operation} {m n r : UInt64} (h : op.eval? m n = some r) :
      Step (.arith op (.natural m) (.natural n)) (.natural r)
  | binderType (k : Binder) {A A' : Nameless} (b : Nameless) (h : Step A A') :
      Step (.binder k A b) (.binder k A' b)
  | binderBody (k : Binder) (A : Nameless) {b b' : Nameless} (h : Step b b') :
      Step (.binder k A b) (.binder k A b')
  | appFunction {f f' : Nameless} (a : Nameless) (h : Step f f') : Step (.app f a) (.app f' a)
  | appArgument (f : Nameless) {a a' : Nameless} (h : Step a a') : Step (.app f a) (.app f a')
  | annotTerm {e e' : Nameless} (A : Nameless) (h : Step e e') : Step (.annot e A) (.annot e' A)
  | annotType (e : Nameless) {A A' : Nameless} (h : Step A A') : Step (.annot e A) (.annot e A')
  | arithLeft (op : Operation) {l l' : Nameless} (r : Nameless) (h : Step l l') :
      Step (.arith op l r) (.arith op l' r)
  | arithRight (op : Operation) (l : Nameless) {r r' : Nameless} (h : Step r r') :
      Step (.arith op l r) (.arith op l r')
  | nilType {A A' : Nameless} (h : Step A A') : Step (.nil A) (.nil A')
  | listHead {e e' : Nameless} (es : List Nameless) (h : Step e e') :
      Step (.list e es) (.list e' es)
  | listTail (e : Nameless) (before : List Nameless) {f f' : Nameless} (after : List Nameless)
      (h : Step f f') : Step (.list e (before ++ f :: after)) (.list e (before ++ f' :: after))

/-- Any number of steps. -/
abbrev Reduces : Nameless → Nameless → Prop := ReflTransGen Step

/-- Convertibility: the equivalence that steps anywhere in a term generate. -/
def Conv (t u : Nameless) : Prop := EqvGen Step t u

/-! ### Parallel reduction -/

/-- Contraction of any set of the redexes of a term, innermost first. -/
inductive Par : Nameless → Nameless → Prop where
  | const (c : Constant) : Par (.const c) (.const c)
  | bound (k : Nat) : Par (.bound k) (.bound k)
  | free (x : Label) (i : Nat) : Par (.free x i) (.free x i)
  | binder (k : Binder) {A A' b b' : Nameless} : Par A A' → Par b b' →
      Par (.binder k A b) (.binder k A' b')
  | app {f f' a a' : Nameless} : Par f f' → Par a a' → Par (.app f a) (.app f' a')
  | annot {e e' A A' : Nameless} : Par e e' → Par A A' → Par (.annot e A) (.annot e' A')
  | arith (op : Operation) {l l' r r' : Nameless} : Par l l' → Par r r' →
      Par (.arith op l r) (.arith op l' r')
  | nil {A A' : Nameless} : Par A A' → Par (.nil A) (.nil A')
  | list {e e' : Nameless} {es es' : List Nameless} : Par e e' → List.Forall₂ Par es es' →
      Par (.list e es) (.list e' es')
  | beta (A : Nameless) {b b' a a' : Nameless} : Par b b' → Par a a' →
      Par (.app (.lam A b) a) (b'.instantiate a')
  | erase (A : Nameless) {e e' : Nameless} : Par e e' → Par (.annot e A) e'
  | compute {op : Operation} {m n r : UInt64} : op.eval? m n = some r →
      Par (.arith op (.natural m) (.natural n)) (.natural r)

/-- Induction on parallel reductions. The elements of two lists are related one by one. -/
@[elab_as_elim]
theorem Par.induct {motive : ∀ t t', Par t t' → Prop}
    (const : ∀ c, motive _ _ (.const c))
    (bound : ∀ k, motive _ _ (.bound k))
    (free : ∀ x i, motive _ _ (.free x i))
    (binder : ∀ k {A A' b b'} (hA : Par A A') (hb : Par b b'), motive A A' hA → motive b b' hb →
      motive _ _ (.binder k hA hb))
    (app : ∀ {f f' a a'} (hf : Par f f') (ha : Par a a'), motive f f' hf → motive a a' ha →
      motive _ _ (.app hf ha))
    (annot : ∀ {e e' A A'} (he : Par e e') (hA : Par A A'), motive e e' he → motive A A' hA →
      motive _ _ (.annot he hA))
    (arith : ∀ op {l l' r r'} (hl : Par l l') (hr : Par r r'), motive l l' hl → motive r r' hr →
      motive _ _ (.arith op hl hr))
    (nil : ∀ {A A'} (hA : Par A A'), motive A A' hA → motive _ _ (.nil hA))
    (list : ∀ {e e' es es'} (he : Par e e') (hes : List.Forall₂ Par es es'), motive e e' he →
      List.Forall₂ (fun a b => ∃ h, motive a b h) es es' → motive _ _ (.list he hes))
    (beta : ∀ A {b b' a a'} (hb : Par b b') (ha : Par a a'), motive b b' hb → motive a a' ha →
      motive _ _ (.beta A hb ha))
    (erase : ∀ A {e e'} (he : Par e e'), motive e e' he → motive _ _ (.erase A he))
    (compute : ∀ {op : Operation} {m n r : UInt64} (h : op.eval? m n = some r),
      motive _ _ (.compute h))
    {t t' : Nameless} (h : Par t t') : motive t t' h :=
  @Par.rec motive (fun es es' _ => List.Forall₂ (fun a b => ∃ h, motive a b h) es es')
    const bound free (fun k _ _ _ _ => binder k) app annot (fun op _ _ _ _ => arith op) nil list
    (fun A _ _ _ _ => beta A) (fun A _ _ => erase A) compute
    .nil (fun he _ ihe ihes => .cons ⟨he, ihe⟩ ihes) t t' h

/-- A term reduces in parallel to itself, where no redex is contracted. -/
theorem Par.refl (t : Nameless) : Par t t := by
  induction t with
  | const c => exact .const c
  | bound k => exact .bound k
  | free x i => exact .free x i
  | binder k A b ihA ihb => exact .binder k ihA ihb
  | app f a ihf iha => exact .app ihf iha
  | annot e A ihe ihA => exact .annot ihe ihA
  | arith op l r ihl ihr => exact .arith op ihl ihr
  | nil A ihA => exact .nil ihA
  | list e es ihe ihes => exact .list ihe (List.forall₂_same.mpr ihes)

/-- A single step is a parallel one. -/
theorem Step.par {t t' : Nameless} (h : Step t t') : Par t t' := by
  induction h with
  | beta A b a => exact .beta A (.refl b) (.refl a)
  | erase e A => exact .erase A (.refl e)
  | compute h => exact .compute h
  | binderType k b _ ih => exact .binder k ih (.refl b)
  | binderBody k A _ ih => exact .binder k (.refl A) ih
  | appFunction a _ ih => exact .app ih (.refl a)
  | appArgument f _ ih => exact .app (.refl f) ih
  | annotTerm A _ ih => exact .annot ih (.refl A)
  | annotType e _ ih => exact .annot (.refl e) ih
  | arithLeft op r _ ih => exact .arith op ih (.refl r)
  | arithRight op l _ ih => exact .arith op (.refl l) ih
  | nilType _ ih => exact .nil ih
  | listHead es _ ih => exact .list ih (List.forall₂_same.mpr fun e _ => .refl e)
  | listTail e before after _ ih =>
    refine .list (.refl e) (List.rel_append ?_ (.cons ih ?_))
    · exact List.forall₂_same.mpr fun e _ => .refl e
    · exact List.forall₂_same.mpr fun e _ => .refl e

/-! ### Steps inside a term -/

/-- What makes steps of steps makes reductions of reductions. -/
theorem Reduces.map {t u : Nameless} (F : Nameless → Nameless)
    (hF : ∀ {t u}, Step t u → Step (F t) (F u)) (h : Reduces t u) : Reduces (F t) (F u) := by
  induction h with
  | refl => exact .refl
  | tail _ hstep ih => exact ih.tail (hF hstep)

/-- Both parts of a binder may be reduced. -/
theorem Reduces.binder (k : Binder) {A A' b b' : Nameless} (hA : Reduces A A')
    (hb : Reduces b b') : Reduces (.binder k A b) (.binder k A' b') :=
  (Reduces.map (Nameless.binder k · b) (fun h => .binderType k b h) hA).trans
    (Reduces.map (Nameless.binder k A') (fun h => .binderBody k A' h) hb)

/-- Both parts of an application may be reduced. -/
theorem Reduces.app {f f' a a' : Nameless} (hf : Reduces f f') (ha : Reduces a a') :
    Reduces (.app f a) (.app f' a') :=
  (Reduces.map (Nameless.app · a) (fun h => .appFunction a h) hf).trans
    (Reduces.map (Nameless.app f') (fun h => .appArgument f' h) ha)

/-- Both parts of an annotation may be reduced. -/
theorem Reduces.annot {e e' A A' : Nameless} (he : Reduces e e') (hA : Reduces A A') :
    Reduces (.annot e A) (.annot e' A') :=
  (Reduces.map (Nameless.annot · A) (fun h => .annotTerm A h) he).trans
    (Reduces.map (Nameless.annot e') (fun h => .annotType e' h) hA)

/-- Both operands of an operation may be reduced. -/
theorem Reduces.arith (op : Operation) {l l' r r' : Nameless} (hl : Reduces l l')
    (hr : Reduces r r') : Reduces (.arith op l r) (.arith op l' r') :=
  (Reduces.map (Nameless.arith op · r) (fun h => .arithLeft op r h) hl).trans
    (Reduces.map (Nameless.arith op l') (fun h => .arithRight op l' h) hr)

/-- The element type of an empty list may be reduced. -/
theorem Reduces.nil {A A' : Nameless} (hA : Reduces A A') : Reduces (.nil A) (.nil A') :=
  Reduces.map Nameless.nil (fun h => .nilType h) hA

/-- The elements of the tail are reduced one after the other; those in `before` already are. -/
theorem Reduces.listTail (e : Nameless) (before : List Nameless) {es es' : List Nameless}
    (h : List.Forall₂ Reduces es es') :
    Reduces (.list e (before ++ es)) (.list e (before ++ es')) := by
  induction h generalizing before with
  | nil => exact .refl
  | @cons f f' es es' hf _ ih =>
    have hhead : Reduces (.list e (before ++ f :: es)) (.list e (before ++ f' :: es)) :=
      Reduces.map (fun f => .list e (before ++ f :: es)) (fun h => .listTail e before es h) hf
    have htail := ih (before ++ [f'])
    simp only [List.append_assoc, List.singleton_append] at htail
    exact hhead.trans htail

/-- All elements of a list literal may be reduced. -/
theorem Reduces.list {e e' : Nameless} {es es' : List Nameless} (he : Reduces e e')
    (hes : List.Forall₂ Reduces es es') : Reduces (.list e es) (.list e' es') :=
  (Reduces.map (Nameless.list · es) (fun h => .listHead es h) he).trans
    (Reduces.listTail e' [] hes)

/-- A parallel step is a number of single ones. -/
theorem Par.reduces {t t' : Nameless} (h : Par t t') : Reduces t t' := by
  induction h using Par.induct with
  | const c => exact .refl
  | bound k => exact .refl
  | free x i => exact .refl
  | binder k _ _ ihA ihb => exact .binder k ihA ihb
  | app _ _ ihf iha => exact .app ihf iha
  | annot _ _ ihe ihA => exact .annot ihe ihA
  | arith op _ _ ihl ihr => exact .arith op ihl ihr
  | nil _ ihA => exact .nil ihA
  | list _ _ ihe ihes => exact .list ihe (ihes.imp fun _ _ ⟨_, h⟩ => h)
  | beta A _ _ ihb iha => exact (Reduces.app (.binder _ .refl ihb) iha).tail (.beta A _ _)
  | erase A _ ihe => exact (Reduces.annot ihe .refl).tail (.erase _ A)
  | compute h => exact .single (.compute h)

/-! ### Renaming and substitution -/

/-- Parallel reduction does not depend on the numbering of variables. -/
theorem Par.rename {t t' : Nameless} (h : Par t t') (ξ : Nat → Nat) :
    Par (t.rename ξ) (t'.rename ξ) := by
  induction h using Par.induct generalizing ξ with
  | const c => exact .const c
  | bound k => exact .bound _
  | free x i => exact .free x i
  | binder k _ _ ihA ihb => exact .binder k (ihA ξ) (ihb _)
  | app _ _ ihf iha => exact .app (ihf ξ) (iha ξ)
  | annot _ _ ihe ihA => exact .annot (ihe ξ) (ihA ξ)
  | arith op _ _ ihl ihr => exact .arith op (ihl ξ) (ihr ξ)
  | nil _ ihA => exact .nil (ihA ξ)
  | list _ _ ihe ihes =>
    simp only [Nameless.rename, renameAll_eq_map]
    refine .list (ihe ξ) ?_
    rw [List.forall₂_map_left_iff, List.forall₂_map_right_iff]
    exact ihes.imp fun _ _ ⟨_, h⟩ => h ξ
  | beta A _ _ ihb iha =>
    rw [rename_instantiate]
    exact .beta _ (ihb _) (iha ξ)
  | erase A _ ihe => exact .erase _ (ihe ξ)
  | compute h => exact .compute h

/-- Substitutions that reduce in parallel do so under a binder. -/
theorem Par.lift {σ τ : Nat → Nameless} (h : ∀ k, Par (σ k) (τ k)) (k : Nat) :
    Par (lift σ k) (lift τ k) := by
  cases k with
  | zero => exact .bound 0
  | succ k => exact (h k).rename Nat.succ

/-- A term and what is put into it may be reduced in parallel together. -/
theorem Par.substitute {t t' : Nameless} (h : Par t t') {σ τ : Nat → Nameless}
    (hσ : ∀ k, Par (σ k) (τ k)) : Par (t.substitute σ) (t'.substitute τ) := by
  induction h using Par.induct generalizing σ τ with
  | const c => exact .const c
  | bound k => exact hσ k
  | free x i => exact .free x i
  | binder k _ _ ihA ihb => exact .binder k (ihA hσ) (ihb (Par.lift hσ))
  | app _ _ ihf iha => exact .app (ihf hσ) (iha hσ)
  | annot _ _ ihe ihA => exact .annot (ihe hσ) (ihA hσ)
  | arith op _ _ ihl ihr => exact .arith op (ihl hσ) (ihr hσ)
  | nil _ ihA => exact .nil (ihA hσ)
  | list _ _ ihe ihes =>
    simp only [Nameless.substitute, substituteAll_eq_map]
    refine .list (ihe hσ) ?_
    rw [List.forall₂_map_left_iff, List.forall₂_map_right_iff]
    exact ihes.imp fun _ _ ⟨_, h⟩ => h hσ
  | beta A _ _ ihb iha =>
    rw [substitute_instantiate]
    exact .beta _ (ihb (Par.lift hσ)) (iha hσ)
  | erase A _ ihe => exact .erase _ (ihe hσ)
  | compute h => exact .compute h

/-- A body and the argument it is filled with may be reduced in parallel together. -/
theorem Par.instantiate {b b' a a' : Nameless} (hb : Par b b') (ha : Par a a') :
    Par (b.instantiate a) (b'.instantiate a') := by
  refine hb.substitute fun k => ?_
  cases k with
  | zero => exact ha
  | succ k => exact .bound k

/-! ### Confluence -/

mutual

/-- The complete development of a term: every redex that it shows is contracted. -/
def develop : Nameless → Nameless
  | .const c => .const c
  | .bound k => .bound k
  | .free x i => .free x i
  | .binder k A b => .binder k (develop A) (develop b)
  | .app (.lam _ b) a => (develop b).instantiate (develop a)
  | .app f a => .app (develop f) (develop a)
  | .annot e _ => develop e
  | .arith op (.natural m) (.natural n) =>
    match op.eval? m n with
    | some r => .natural r
    | none => .arith op (.natural m) (.natural n)
  | .arith op l r => .arith op (develop l) (develop r)
  | .nil A => .nil (develop A)
  | .list e es => .list (develop e) (developAll es)

/-- The complete developments of the terms of a list. -/
def developAll : List Nameless → List Nameless
  | [] => []
  | e :: es => develop e :: developAll es

end

/-- A list of terms is developed element by element. -/
theorem developAll_eq_map (es : List Nameless) : developAll es = es.map develop := by
  induction es with
  | nil => rfl
  | cons e es ih => rw [developAll, ih, List.map_cons]

/-- Every parallel reduct of a term reduces in parallel to its complete development. -/
theorem Par.triangle {t t' : Nameless} (h : Par t t') : Par t' (develop t) := by
  induction h using Par.induct with
  | const c => exact .const c
  | bound k => exact .bound k
  | free x i => exact .free x i
  | binder k _ _ ihA ihb => exact .binder k ihA ihb
  | @app f f' a a' hf _ ihf iha =>
    -- Only an applied function is a redex; its reduct is still a function.
    rw [develop.eq_def]
    split
    case h_5 b a heq =>
      obtain ⟨rfl, rfl⟩ := app.inj heq
      cases hf with
      | binder _ hA hb =>
        cases ihf with
        | binder _ _ ihb => exact .beta _ ihb iha
    case h_6 heq =>
      obtain ⟨rfl, rfl⟩ := app.inj heq
      exact .app ihf iha
    all_goals contradiction
  | annot _ _ ihe _ => exact .erase _ ihe
  | @arith op l l' r r' hl hr ihl ihr =>
    rw [develop.eq_def]
    split
    case h_8 op m n heq =>
      obtain ⟨rfl, rfl, rfl⟩ := arith.inj heq
      cases hl
      cases hr
      split
      case h_1 r h => exact .compute h
      case h_2 => exact .refl _
    case h_9 heq =>
      obtain ⟨rfl, rfl, rfl⟩ := arith.inj heq
      exact .arith op ihl ihr
    all_goals contradiction
  | nil _ ihA => exact .nil ihA
  | list _ _ ihe ihes =>
    rw [develop, developAll_eq_map]
    refine .list ihe ?_
    rw [List.forall₂_map_right_iff]
    exact ihes.flip.imp fun _ _ ⟨_, h⟩ => h
  | beta A _ _ ihb iha => exact ihb.instantiate iha
  | erase A _ ihe => exact ihe
  | compute h =>
    rw [develop, h]
    exact .const _

/-- Any number of single steps is any number of parallel ones. -/
theorem reduces_iff_par {t u : Nameless} : Reduces t u ↔ ReflTransGen Par t u := by
  constructor
  · intro h
    induction h with
    | refl => exact .refl
    | tail _ hstep ih => exact ih.tail hstep.par
  · intro h
    induction h with
    | refl => exact .refl
    | tail _ hpar ih => exact ih.trans hpar.reduces

/-- Two reducts of a term have a common reduct. -/
theorem Reduces.confluent {t u v : Nameless} (hu : Reduces t u) (hv : Reduces t v) :
    ∃ w, Reduces u w ∧ Reduces v w := by
  rw [reduces_iff_par] at hu hv
  have hdiamond : ∀ t u v, Par t u → Par t v → ∃ w, ReflGen Par u w ∧ ReflTransGen Par v w :=
    fun t _ _ hu hv => ⟨develop t, .single hu.triangle, .single hv.triangle⟩
  obtain ⟨w, huw, hvw⟩ := church_rosser hdiamond hu hv
  exact ⟨w, reduces_iff_par.mpr huw, reduces_iff_par.mpr hvw⟩

/-! ### Convertibility -/

/-- A step relates convertible terms. -/
theorem Conv.step {t u : Nameless} (h : Step t u) : Conv t u := EqvGen.rel t u h

/-- Every term is convertible with itself. -/
@[refl] theorem Conv.refl (t : Nameless) : Conv t t := EqvGen.refl t

/-- Convertibility is symmetric. -/
theorem Conv.symm {t u : Nameless} (h : Conv t u) : Conv u t := EqvGen.symm t u h

/-- Convertibility is transitive. -/
theorem Conv.trans {t u v : Nameless} (htu : Conv t u) (huv : Conv u v) : Conv t v :=
  EqvGen.trans t u v htu huv

/-- A term is convertible with its reducts. -/
theorem Reduces.conv {t u : Nameless} (h : Reduces t u) : Conv t u := by
  induction h with
  | refl => exact .refl _
  | tail _ hstep ih => exact ih.trans (.step hstep)

/-- Convertible terms have a common reduct. -/
theorem conv_iff_join {t u : Nameless} : Conv t u ↔ ∃ v, Reduces t v ∧ Reduces u v := by
  constructor
  · intro h
    induction h with
    | rel t u h => exact ⟨u, .single h, .refl⟩
    | refl t => exact ⟨t, .refl, .refl⟩
    | symm t u _ ih =>
      obtain ⟨v, ht, hu⟩ := ih
      exact ⟨v, hu, ht⟩
    | trans t u v _ _ ihtu ihuv =>
      obtain ⟨w₁, ht, hu₁⟩ := ihtu
      obtain ⟨w₂, hu₂, hv⟩ := ihuv
      obtain ⟨w, h₁, h₂⟩ := hu₁.confluent hu₂
      exact ⟨w, ht.trans h₁, hv.trans h₂⟩
  · rintro ⟨v, ht, hu⟩
    exact ht.conv.trans hu.conv.symm

/-- What makes convertible terms of steps makes convertible terms of convertible terms. -/
theorem Conv.map {t u : Nameless} (F : Nameless → Nameless)
    (hF : ∀ {t u}, Step t u → Conv (F t) (F u)) (h : Conv t u) : Conv (F t) (F u) := by
  induction h with
  | rel t u h => exact hF h
  | refl t => exact .refl _
  | symm t u _ ih => exact ih.symm
  | trans t u v _ _ ih₁ ih₂ => exact ih₁.trans ih₂

/-- Binders with convertible parts are convertible. -/
theorem Conv.binder (k : Binder) {A A' b b' : Nameless} (hA : Conv A A') (hb : Conv b b') :
    Conv (.binder k A b) (.binder k A' b') :=
  (hA.map (Nameless.binder k · b) fun h => .step (.binderType k b h)).trans
    (hb.map (Nameless.binder k A') fun h => .step (.binderBody k A' h))

/-- Types of lists with convertible element types are convertible. -/
theorem Conv.listOf {A A' : Nameless} (h : Conv A A') : Conv (listOf A) (listOf A') :=
  h.map Nameless.listOf fun h => .step (.appArgument _ h)

/-- Convertibility does not depend on the numbering of variables. -/
theorem Conv.rename {t u : Nameless} (h : Conv t u) (ξ : Nat → Nat) :
    Conv (t.rename ξ) (u.rename ξ) :=
  h.map (Nameless.rename ξ) fun h => (h.par.rename ξ).reduces.conv

/-- A renaming that identifies no two variables makes no two terms convertible. -/
theorem conv_rename_iff {t u : Nameless} {ξ : Nat → Nat} (hξ : Function.Injective ξ) :
    Conv (t.rename ξ) (u.rename ξ) ↔ Conv t u := by
  refine ⟨fun h => ?_, fun h => h.rename ξ⟩
  obtain ⟨ζ, hζ⟩ := hξ.hasLeftInverse
  have hback := h.rename ζ
  rwa [rename_rename, rename_rename, hζ.comp_eq_id, rename_id, rename_id] at hback

/-- Convertible terms remain so when the same is put into them. -/
theorem Conv.substitute {t u : Nameless} (h : Conv t u) (σ : Nat → Nameless) :
    Conv (t.substitute σ) (u.substitute σ) :=
  h.map (Nameless.substitute σ) fun h => (h.par.substitute fun k => .refl (σ k)).reduces.conv

/-- Convertible bodies filled with convertible arguments are convertible. -/
theorem Conv.instantiate {b b' a a' : Nameless} (hb : Conv b b') (ha : Conv a a') :
    Conv (b.instantiate a) (b'.instantiate a') :=
  (hb.substitute (extend a Nameless.bound)).trans
    (ha.map (Nameless.instantiate b') fun h => ((Par.refl b').instantiate h.par).reduces.conv)

/-! ### Forms that reduction keeps -/

/-- A constant reduces to itself only. -/
theorem Reduces.of_const {c : Constant} {t : Nameless} (h : Reduces (.const c) t) :
    t = .const c := by
  induction h with
  | refl => rfl
  | tail _ hstep ih =>
    subst ih
    cases hstep

/-- A binder reduces to binders only, part by part. -/
theorem Reduces.of_binder {k : Binder} {A b t : Nameless} (h : Reduces (.binder k A b) t) :
    ∃ A' b', t = .binder k A' b' ∧ Reduces A A' ∧ Reduces b b' := by
  induction h with
  | refl => exact ⟨A, b, rfl, .refl, .refl⟩
  | tail _ hstep ih =>
    obtain ⟨A', b', rfl, hA, hb⟩ := ih
    cases hstep with
    | binderType _ _ h => exact ⟨_, _, rfl, hA.tail h, hb⟩
    | binderBody _ _ h => exact ⟨_, _, rfl, hA, hb.tail h⟩

/-- What is convertible with a constant reduces to it. -/
theorem Conv.reduces_const {t : Nameless} {c : Constant} (h : Conv t (.const c)) :
    Reduces t (.const c) := by
  obtain ⟨v, ht, hc⟩ := conv_iff_join.mp h
  rwa [hc.of_const] at ht

/-- Different constants are not convertible. -/
theorem Conv.const_inj {c c' : Constant} (h : Conv (.const c) (.const c')) : c = c' :=
  (const.inj h.reduces_const.of_const).symm

/-- What is convertible with a binding form reduces to one of the same kind. -/
theorem Conv.reduces_binder {k : Binder} {t A b : Nameless} (h : Conv t (.binder k A b)) :
    ∃ A' b', Reduces t (.binder k A' b') ∧ Conv A A' ∧ Conv b b' := by
  obtain ⟨v, ht, hv⟩ := conv_iff_join.mp h
  obtain ⟨A', b', rfl, hA, hb⟩ := hv.of_binder
  exact ⟨A', b', ht, hA.conv, hb.conv⟩

/-- Convertible binders have convertible parts. -/
theorem Conv.binder_inj {k : Binder} {A A' b b' : Nameless}
    (h : Conv (.binder k A b) (.binder k A' b')) : Conv A A' ∧ Conv b b' := by
  obtain ⟨A₁, b₁, hred, hA', hb'⟩ := h.reduces_binder
  obtain ⟨A₂, b₂, heq, hA, hb⟩ := hred.of_binder
  obtain ⟨-, rfl, rfl⟩ := binder.inj heq
  exact ⟨hA.conv.trans hA'.symm, hb.conv.trans hb'.symm⟩

/-! ### Normal forms -/

/-- No step can be made. -/
def Normal (t : Nameless) : Prop := ∀ u, ¬ Step t u

/-- A normal form reduces to itself only. -/
theorem Normal.eq_of_reduces {t u : Nameless} (ht : t.Normal) (h : Reduces t u) : u = t := by
  induction h with
  | refl => rfl
  | tail _ hstep ih =>
    subst ih
    exact absurd hstep (ht _)

/-- What is convertible with a normal term reduces to it. -/
theorem Conv.reduces_normal {t u : Nameless} (h : Conv t u) (hu : u.Normal) : Reduces t u := by
  obtain ⟨v, ht, huv⟩ := conv_iff_join.mp h
  rwa [hu.eq_of_reduces huv] at ht

/-- Normal terms are convertible only if they are the same. -/
theorem Conv.eq_of_normal {t u : Nameless} (h : Conv t u) (ht : t.Normal) (hu : u.Normal) :
    t = u :=
  (ht.eq_of_reduces (h.reduces_normal hu)).symm

end Trisort.Nameless
