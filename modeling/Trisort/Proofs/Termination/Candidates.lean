import Trisort.Proofs.Reduction
import Mathlib.Data.Set.Basic
import Mathlib.Order.WellFounded

/-!
# Terminating terms and candidates

A term is terminating if no sequence of steps from it goes on forever, whichever redexes are
contracted. The forms that make no redex of their own keep termination (`Terminating.binder`,
`Terminating.arith`, `Terminating.list`), an application does not: its function may turn into a
`λ`. The parts of a terminating term terminate, and one may even go to a part or to a reduct at each
turn, and still comes to an end (`Terminating.acc_smaller`).

A candidate is a set of terminating terms that is closed under steps, and that has every term other
than a `λ` of which it has all the one-step reducts. Candidates are what the types of terms are
interpreted by. They have all variables, they go back along contractions (`IsCandidate.beta`), and
the terms that take each member of one family of candidates to a member of another form a candidate
again (`IsCandidate.arrows`).
-/

namespace Trisort.Nameless

open Relation

/-- No sequence of steps from the term goes on forever. -/
def Terminating (t : Nameless) : Prop := Acc (fun u t => Step t u) t

/-- A step can be made after a substitution, too. -/
theorem Step.substitute {t u : Nameless} (h : Step t u) (σ : Nat → Nameless) :
    Step (t.substitute σ) (u.substitute σ) := by
  induction h generalizing σ with
  | beta A b a =>
    rw [substitute_instantiate]
    exact .beta _ _ _
  | erase e A => exact .erase _ _
  | compute h => exact .compute h
  | binderType k b _ ih => exact .binderType k _ (ih σ)
  | binderBody k A _ ih => exact .binderBody k _ (ih _)
  | appFunction a _ ih => exact .appFunction _ (ih σ)
  | appArgument f _ ih => exact .appArgument _ (ih σ)
  | annotTerm A _ ih => exact .annotTerm _ (ih σ)
  | annotType e _ ih => exact .annotType _ (ih σ)
  | arithLeft op r _ ih => exact .arithLeft op _ (ih σ)
  | arithRight op l _ ih => exact .arithRight op _ (ih σ)
  | nilType _ ih => exact .nilType (ih σ)
  | listHead es _ ih => exact .listHead _ (ih σ)
  | listTail e before after _ ih =>
    simp only [Nameless.substitute, substituteAll_eq_map, List.map_append, List.map_cons]
    exact .listTail _ _ _ (ih σ)

/-- Filling a binder after a substitution is one substitution. -/
theorem instantiate_substitute_lift (σ : Nat → Nameless) (b a : Nameless) :
    (b.substitute (lift σ)).instantiate a = b.substitute (extend a σ) := by
  rw [instantiate, substitute_substitute]
  congr 1
  funext k
  cases k with
  | zero => rfl
  | succ k => exact instantiate_weaken (σ k) a

/-- The step of an argument is taken at every place that the argument is put in. -/
theorem Reduces.instantiate {a a' : Nameless} (b : Nameless) (h : Step a a') :
    Reduces (b.instantiate a) (b.instantiate a') :=
  ((Par.refl b).instantiate h.par).reduces

namespace Terminating

variable {t u : Nameless}

/-- A term terminates if all its one-step reducts do. -/
theorem of_steps (h : ∀ u, Step t u → Terminating u) : Terminating t := Acc.intro t h

/-- A reduct of a terminating term terminates. -/
theorem step (h : Terminating t) (hstep : Step t u) : Terminating u := h.inv hstep

/-- A normal form terminates. -/
theorem of_normal (h : t.Normal) : Terminating t := of_steps fun u hu => absurd hu (h u)

/-- A constant terminates. -/
theorem const (c : Constant) : Terminating (.const c) := of_normal nofun

/-- What terminates after a substitution terminates before it. -/
theorem of_substitute {σ : Nat → Nameless} (h : Terminating (t.substitute σ)) : Terminating t := by
  generalize ht : t.substitute σ = s at h
  induction h generalizing t with
  | intro s _ ih =>
    subst ht
    apply of_steps
    intro u hu
    exact ih _ (hu.substitute σ) rfl

/-- A body terminates if it does with something filled in. -/
theorem of_instantiate {b a : Nameless} (h : Terminating (b.instantiate a)) : Terminating b :=
  of_substitute h

/-- A form of term with two parts terminates with its parts, if it makes no redexes but such that
their contraction terminates. -/
theorem of_parts {α β : Type} {r : α → α → Prop} {s : β → β → Prop} {F : α → β → Nameless}
    (hF : ∀ {a b u}, Step (F a b) u →
      (∃ a', r a' a ∧ u = F a' b) ∨ (∃ b', s b' b ∧ u = F a b') ∨ Terminating u)
    {a : α} {b : β} (ha : Acc r a) (hb : Acc s b) : Terminating (F a b) := by
  induction ha generalizing b with
  | intro a _ iha =>
    induction hb with
    | intro b hb ihb =>
      apply of_steps
      intro u hu
      rcases hF hu with ⟨a', ha', rfl⟩ | ⟨b', hb', rfl⟩ | hu
      · exact iha a' ha' (Acc.intro b hb)
      · exact ihb b' hb'
      · exact hu

/-- A binder terminates if its parts do. -/
theorem binder (k : Binder) {A b : Nameless} (hA : Terminating A) (hb : Terminating b) :
    Terminating (.binder k A b) := by
  refine of_parts ?_ hA hb
  intro A b u hu
  cases hu with
  | binderType _ _ h => exact .inl ⟨_, h, rfl⟩
  | binderBody _ _ h => exact .inr (.inl ⟨_, h, rfl⟩)

/-- An operation terminates if its operands do. -/
theorem arith (op : Operation) {l r : Nameless} (hl : Terminating l) (hr : Terminating r) :
    Terminating (.arith op l r) := by
  refine of_parts ?_ hl hr
  intro l r u hu
  cases hu with
  | compute _ => exact .inr (.inr (.const _))
  | arithLeft _ _ h => exact .inl ⟨_, h, rfl⟩
  | arithRight _ _ h => exact .inr (.inl ⟨_, h, rfl⟩)

/-- An empty list terminates if its element type does. -/
theorem nil {A : Nameless} (hA : Terminating A) : Terminating (.nil A) := by
  induction hA with
  | intro A _ ih =>
    apply of_steps
    intro u hu
    cases hu with
    | nilType h => exact ih _ h

/-- A constant is no function that could be contracted. -/
theorem app_const (c : Constant) {a : Nameless} (ha : Terminating a) :
    Terminating (.app (.const c) a) := by
  induction ha with
  | intro a _ ih =>
    apply of_steps
    intro u hu
    cases hu with
    | appFunction _ h => cases h
    | appArgument _ h => exact ih _ h

/-- One element of the first list takes a step to the second list. -/
inductive StepIn : List Nameless → List Nameless → Prop where
  | mk (before : List Nameless) {f f' : Nameless} (after : List Nameless) (h : Step f f') :
      StepIn (before ++ f :: after) (before ++ f' :: after)

/-- A step in a list is one in its first element or in the rest. -/
theorem StepIn.cons_cases {e : Nameless} {es fs : List Nameless} (h : StepIn (e :: es) fs) :
    (∃ e', Step e e' ∧ fs = e' :: es) ∨ ∃ es', StepIn es es' ∧ fs = e :: es' := by
  generalize hes : e :: es = gs at h
  cases h with
  | mk before after h =>
    cases before with
    | nil =>
      cases hes
      exact .inl ⟨_, h, rfl⟩
    | cons g before =>
      cases hes
      exact .inr ⟨_, .mk before after h, rfl⟩

/-- If no element can step forever, then the list cannot. -/
theorem acc_stepIn {es : List Nameless} (h : ∀ e ∈ es, Terminating e) :
    Acc (fun fs es => StepIn es fs) es := by
  induction es with
  | nil =>
    refine Acc.intro _ fun fs hfs => ?_
    generalize hes : [] = es at hfs
    cases hfs with
    | mk before after _ => simp at hes
  | cons e es ih =>
    have he : Terminating e := h e List.mem_cons_self
    have hes := ih fun e' he' => h e' (List.mem_cons_of_mem e he')
    clear ih h
    induction he generalizing es with
    | intro e he ihe =>
      induction hes with
      | intro es hes ihes =>
        refine Acc.intro _ fun fs hfs => ?_
        rcases hfs.cons_cases with ⟨e', he', rfl⟩ | ⟨es', hes', rfl⟩
        · exact ihe e' he' es (Acc.intro es hes)
        · exact ihes es' hes'

/-- A list literal terminates if its elements do. -/
theorem list {e : Nameless} {es : List Nameless} (he : Terminating e)
    (hes : ∀ e' ∈ es, Terminating e') : Terminating (.list e es) := by
  refine of_parts ?_ he (acc_stepIn hes)
  intro e es u hu
  cases hu with
  | listHead _ h => exact .inl ⟨_, h, rfl⟩
  | listTail _ before after h => exact .inr (.inl ⟨_, .mk before after h, rfl⟩)

end Terminating

/-! ### Parts and reducts -/

/-- The second term is an immediate part of the first. The type of an annotation is left out, as it
is not needed for a normal form. -/
inductive HasPart : Nameless → Nameless → Prop where
  | binderType (k : Binder) (A b : Nameless) : HasPart (.binder k A b) A
  | binderBody (k : Binder) (A b : Nameless) : HasPart (.binder k A b) b
  | appFunction (f a : Nameless) : HasPart (.app f a) f
  | appArgument (f a : Nameless) : HasPart (.app f a) a
  | annotTerm (e A : Nameless) : HasPart (.annot e A) e
  | arithLeft (op : Operation) (l r : Nameless) : HasPart (.arith op l r) l
  | arithRight (op : Operation) (l r : Nameless) : HasPart (.arith op l r) r
  | nilType (A : Nameless) : HasPart (.nil A) A
  | listHead (e : Nameless) (es : List Nameless) : HasPart (.list e es) e
  | listTail (e : Nameless) {es : List Nameless} {f : Nameless} (h : f ∈ es) :
      HasPart (.list e es) f

/-- The first term is a one-step reduct or an immediate part of the second. -/
def Smaller (u t : Nameless) : Prop := Step t u ∨ HasPart t u

/-- A step of a part is a step of the whole. -/
theorem HasPart.step {t s s' : Nameless} (h : HasPart t s) (hstep : Step s s') :
    ∃ t', Step t t' ∧ HasPart t' s' := by
  cases h with
  | binderType k A b => exact ⟨_, .binderType k b hstep, .binderType k s' b⟩
  | binderBody k A b => exact ⟨_, .binderBody k A hstep, .binderBody k A s'⟩
  | appFunction f a => exact ⟨_, .appFunction a hstep, .appFunction s' a⟩
  | appArgument f a => exact ⟨_, .appArgument f hstep, .appArgument f s'⟩
  | annotTerm e A => exact ⟨_, .annotTerm A hstep, .annotTerm s' A⟩
  | arithLeft op l r => exact ⟨_, .arithLeft op r hstep, .arithLeft op s' r⟩
  | arithRight op l r => exact ⟨_, .arithRight op l hstep, .arithRight op l s'⟩
  | nilType A => exact ⟨_, .nilType hstep, .nilType s'⟩
  | listHead e es => exact ⟨_, .listHead es hstep, .listHead s' es⟩
  | listTail e h =>
    obtain ⟨before, after, rfl⟩ := List.append_of_mem h
    exact ⟨_, .listTail e before after hstep, .listTail e (by simp)⟩

/-- A part terminates with the whole. -/
theorem Terminating.part {t s : Nameless} (ht : Terminating t) (h : HasPart t s) :
    Terminating s := by
  induction ht generalizing s with
  | intro t _ ih =>
    apply Terminating.of_steps
    intro s' hs'
    obtain ⟨t', ht', hpart⟩ := h.step hs'
    exact ih t' ht' hpart

/-- The parts of the parts of a term come to an end. -/
theorem acc_hasPart (t : Nameless) : Acc (fun s t => HasPart t s) t := by
  induction t with
  | const | bound | free => exact Acc.intro _ nofun
  | binder k A b ihA ihb =>
    refine Acc.intro _ fun s hs => ?_
    cases hs with
    | binderType => exact ihA
    | binderBody => exact ihb
  | app f a ihf iha =>
    refine Acc.intro _ fun s hs => ?_
    cases hs with
    | appFunction => exact ihf
    | appArgument => exact iha
  | annot e A ihe _ =>
    refine Acc.intro _ fun s hs => ?_
    cases hs with
    | annotTerm => exact ihe
  | arith op l r ihl ihr =>
    refine Acc.intro _ fun s hs => ?_
    cases hs with
    | arithLeft => exact ihl
    | arithRight => exact ihr
  | nil A ihA =>
    refine Acc.intro _ fun s hs => ?_
    cases hs with
    | nilType => exact ihA
  | list e es ihe ihes =>
    refine Acc.intro _ fun s hs => ?_
    cases hs with
    | listHead => exact ihe
    | listTail _ h => exact ihes s h

/-- A step deep inside a term is a step of the term. -/
theorem exists_step_of_inside {t s s' : Nameless} (h : ReflTransGen HasPart t s)
    (hstep : Step s s') : ∃ t', Step t t' ∧ ReflTransGen HasPart t' s' := by
  induction h generalizing s' with
  | refl => exact ⟨s', hstep, .refl⟩
  | tail _ hpart ih =>
    obtain ⟨u, hu, hpart'⟩ := hpart.step hstep
    obtain ⟨t', ht', hinside⟩ := ih hu
    exact ⟨t', ht', hinside.tail hpart'⟩

/-- From a part, however deep inside, one comes to an end if one does from the whole. -/
theorem acc_of_inside {t s : Nameless} (ht : Acc Smaller t) (h : ReflTransGen HasPart t s) :
    Acc Smaller s := by
  induction h with
  | refl => exact ht
  | tail _ hpart ih => exact ih.inv (.inr hpart)

/-- Going on to reducts and to parts, one comes to an end from a terminating term. -/
theorem Terminating.acc_smaller {t : Nameless} (h : Terminating t) : Acc Smaller t := by
  induction h with
  | intro t _ ih =>
    -- A step of a part leads into a reduct of `t`, so what is left is to go to parts of parts.
    have hparts : ∀ s, ReflTransGen HasPart t s → Acc Smaller s := by
      intro s
      induction acc_hasPart s with
      | intro s _ ihs =>
        intro hs
        refine Acc.intro s fun u hu => ?_
        rcases hu with hstep | hpart
        · obtain ⟨t', ht', hinside⟩ := exists_step_of_inside hs hstep
          exact acc_of_inside (ih t' ht') hinside
        · exact ihs u hpart (hs.tail hpart)
    exact hparts t .refl

/-- A reduct that takes at least one step to reach is smaller. -/
theorem smaller_of_reduces {t u v : Nameless} (h : Reduces t u) (hstep : Step u v) :
    TransGen Smaller v t := by
  have hsmaller : ∀ {u}, Reduces t u → ReflTransGen Smaller u t := by
    intro u h
    induction h with
    | refl => exact .refl
    | tail _ hstep ih => exact .head (.inl hstep) ih
  exact .head' (.inl hstep) (hsmaller h)

/-! ### Candidates -/

/-- The term is not a `λ`. Put in function position it makes no redex. -/
def Neutral (t : Nameless) : Prop := ∀ A b, t ≠ .lam A b

/-- An application is no `λ`. -/
theorem neutral_app (f a : Nameless) : Neutral (.app f a) := nofun

/-- An annotation is no `λ`. -/
theorem neutral_annot (e A : Nameless) : Neutral (.annot e A) := nofun

/-- The terms of `C` terminate, `C` is closed under steps, and a term that is not a `λ` belongs to
`C` once all its one-step reducts do. -/
structure IsCandidate (C : Set Nameless) : Prop where
  terminating : ∀ {t}, t ∈ C → Terminating t
  step : ∀ {t u}, t ∈ C → Step t u → u ∈ C
  expand : ∀ {t}, Neutral t → (∀ u, Step t u → u ∈ C) → t ∈ C

/-- The terminating terms that take the members of each `A i` to members of `B i`. -/
def arrows {ι : Type*} (A B : ι → Set Nameless) : Set Nameless :=
  {t | Terminating t ∧ ∀ i, ∀ a ∈ A i, .app t a ∈ B i}

/-- The terminating terms are a candidate. -/
theorem isCandidate_terminating : IsCandidate {t | Terminating t} where
  terminating := id
  step := Terminating.step
  expand _ := Terminating.of_steps

namespace IsCandidate

variable {C : Set Nameless}

/-- A candidate is closed under any number of steps. -/
theorem reduces (hC : IsCandidate C) {t u : Nameless} (ht : t ∈ C) (h : Reduces t u) : u ∈ C := by
  induction h with
  | refl => exact ht
  | tail _ hstep ih => exact hC.step ih hstep

/-- Variables belong to every candidate. -/
theorem bound_mem (hC : IsCandidate C) (k : Nat) : .bound k ∈ C :=
  hC.expand nofun nofun

/-- A candidate has a member, for instance a variable. -/
theorem nonempty (hC : IsCandidate C) : C.Nonempty := ⟨.bound 0, hC.bound_mem 0⟩

/-- A contraction can be undone within a candidate, if the parts of the redex terminate. -/
theorem beta (hC : IsCandidate C) {A b a : Nameless} (hA : Terminating A) (ha : Terminating a)
    (h : b.instantiate a ∈ C) : .app (.lam A b) a ∈ C := by
  have hb : Terminating b := .of_instantiate (hC.terminating h)
  -- A step of the redex contracts it or is a step of one of its three parts.
  induction hA generalizing b a with
  | intro A hA ihA =>
    induction hb generalizing a with
    | intro b hb ihb =>
      induction ha with
      | intro a ha iha =>
        apply hC.expand (neutral_app _ _)
        intro u hu
        cases hu with
        | beta => exact h
        | appFunction _ hf =>
          cases hf with
          | binderType _ _ hA' => exact ihA _ hA' (.intro a ha) h (.intro b hb)
          | binderBody _ _ hb' =>
            exact ihb _ hb' (.intro a ha) (hC.step h (hb'.substitute _))
        | appArgument _ ha' => exact iha _ ha' (hC.reduces h (.instantiate b ha'))

/-- An annotation of a member with a terminating type is a member. -/
theorem annot (hC : IsCandidate C) {e A : Nameless} (he : e ∈ C) (hA : Terminating A) :
    .annot e A ∈ C := by
  have hterm : Terminating e := hC.terminating he
  induction hterm generalizing A with
  | intro e _ ihe =>
    induction hA with
    | intro A hA ihA =>
      apply hC.expand (neutral_annot _ _)
      intro u hu
      cases hu with
      | erase => exact he
      | annotTerm _ h => exact ihe _ h (hC.step he h) (.intro A hA)
      | annotType _ h => exact ihA _ h

/-- The terms that take members of candidates to members of candidates are a candidate. -/
theorem arrows {ι : Type*} {A B : ι → Set Nameless} (hA : ∀ i, IsCandidate (A i))
    (hB : ∀ i, IsCandidate (B i)) : IsCandidate (Nameless.arrows A B) where
  terminating h := h.1
  step h hstep := ⟨h.1.step hstep, fun i a ha => (hB i).step (h.2 i a ha) (.appFunction a hstep)⟩
  expand := by
    intro t hneutral h
    refine ⟨.of_steps fun u hu => (h u hu).1, fun i a ha => ?_⟩
    have hterm : Terminating a := (hA i).terminating ha
    induction hterm with
    | intro a _ iha =>
      apply (hB i).expand (neutral_app _ _)
      intro u hu
      cases hu with
      | beta A b a => exact absurd rfl (hneutral A b)
      | appFunction _ hf => exact (h _ hf).2 i a ha
      | appArgument _ ha' => exact iha _ ha' ((hA i).step ha ha')

end IsCandidate

end Trisort.Nameless
