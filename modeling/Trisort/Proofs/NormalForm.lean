import Trisort.Proofs.Conversion

/-!
# Normal forms of terms

What `Term.normalize` returns is a reduct of the term that it was given, and no step can be made in
it (`normalize_sound`). This module says what that means for the term itself. A redex is an applied
function, an annotation, or an operation on two literals with a literal result. A normal form has
none among its subterms (`redexFree_of_normal`), and normalizing a term without redexes gives it
back without contracting anything (`settles_of_redexFree`), for as much fuel as the term has
constructors. `normalize_yields_normal_form` puts the two together: normalization is idempotent.
-/

namespace Trisort

open Log

/-! ### Computations that only record certain events -/

namespace Log.Logged

variable {ω ε α β : Type} {P : ω → Prop}

/-- The computation ends with `a`, and every event that it records has the property `P`. -/
def Settles (P : ω → Prop) (x : Logged ω ε α) (a : α) : Prop :=
  x.result = .ok a ∧ ∀ e ∈ x.events, P e

/-- A computation that only returns a value settles on it. -/
theorem Settles.pure (a : α) : Settles P (Pure.pure a : Logged ω ε α) a :=
  ⟨rfl, by simp⟩

/-- Recording an event with the property settles. -/
theorem Settles.record {e : ω} (h : P e) : Settles P (Logged.record e : Logged ω ε Unit) () :=
  ⟨rfl, by simpa using h⟩

/-- A sequence settles if its parts do. -/
theorem Settles.bind {x : Logged ω ε α} {f : α → Logged ω ε β} {a : α} {b : β}
    (hx : Settles P x a) (hf : Settles P (f a) b) : Settles P (x >>= f) b := by
  constructor
  · rw [bind_result_eq_ok_iff]
    exact ⟨a, hx.1, hf.1⟩
  · intro e he
    rw [events_bind_of_ok hx.1, List.mem_append] at he
    rcases he with he | he
    · exact hx.2 e he
    · exact hf.2 e he

/-- Where nothing happens to any element, nothing happens to the list. -/
theorem Settles.mapList {f : α → Logged ω ε α} {as : List α} (h : ∀ a ∈ as, Settles P (f a) a) :
    Settles P (Logged.mapList f as) as := by
  induction as with
  | nil => exact .pure []
  | cons a as ih =>
    have htail : Settles P (Logged.mapList f as) as :=
      ih fun b hb => h b (List.mem_cons_of_mem a hb)
    exact .bind (h a List.mem_cons_self) (.bind htail (.pure (a :: as)))

end Log.Logged

namespace Term

/-! ### Subterms -/

mutual

/-- A term and all that is inside it, from the outside in and from left to right. The types and the
bodies of binders count. -/
@[simp] def subterms : Term → List Term
  | .const c => [.const c]
  | .var v => [.var v]
  | .binder k x A b => .binder k x A b :: (A.subterms ++ b.subterms)
  | .app f a => .app f a :: (f.subterms ++ a.subterms)
  | .annot e A => .annot e A :: (e.subterms ++ A.subterms)
  | .arith op l r => .arith op l r :: (l.subterms ++ r.subterms)
  | .nil A => .nil A :: A.subterms
  | .list e es => .list e es :: (e.subterms ++ subtermsAll es)

/-- The subterms of the terms of a list. -/
def subtermsAll : List Term → List Term
  | [] => []
  | e :: es => e.subterms ++ subtermsAll es

end

/-- The subterms of a list of terms are those of its elements, one after the other. -/
@[simp] theorem subtermsAll_eq_flatMap (es : List Term) :
    subtermsAll es = es.flatMap subterms := by
  induction es with
  | nil => rfl
  | cons e es ih => rw [subtermsAll, ih, List.flatMap_cons]

/-! ### Redexes -/

/-- Whether the term is an applied function, an annotation, or an operation on two literals whose
exact result fits into sixty-four bits. -/
def isRedex : Term → Bool
  | .app (.lam _ _ _) _ => true
  | .annot _ _ => true
  | .arith op (.natural m) (.natural n) => op.onNat m.toNat n.toNat < UInt64.size
  | _ => false

/-- No subterm is a redex. -/
def RedexFree (t : Term) : Prop := ∀ s ∈ t.subterms, ¬ s.isRedex

/-- It can be decided whether a term has redexes. -/
instance (t : Term) : Decidable t.RedexFree := inferInstanceAs (Decidable (∀ s ∈ _, _))

/-- A constant has no redex. -/
theorem redexFree_const (c : Constant) : (const c).RedexFree := by simp [RedexFree, isRedex]

/-- A variable has no redex. -/
theorem redexFree_var (v : Var) : (var v).RedexFree := by simp [RedexFree, isRedex]

/-- The redexes of a binder are those of its parts. -/
theorem redexFree_binder {k : Binder} {x : Label} {A b : Term} :
    (binder k x A b).RedexFree ↔ A.RedexFree ∧ b.RedexFree := by
  simp [RedexFree, isRedex, or_imp, forall_and]

/-- An application has no redex if it is none and its parts have none. -/
theorem redexFree_app {f a : Term} :
    (app f a).RedexFree ↔ ¬ (app f a).isRedex ∧ f.RedexFree ∧ a.RedexFree := by
  simp [RedexFree, or_imp, forall_and]

/-- An annotation is a redex. -/
theorem not_redexFree_annot {e A : Term} : ¬ (annot e A).RedexFree := by simp [RedexFree, isRedex]

/-- An operation has no redex if it is none and its operands have none. -/
theorem redexFree_arith {op : Operation} {l r : Term} :
    (arith op l r).RedexFree ↔ ¬ (arith op l r).isRedex ∧ l.RedexFree ∧ r.RedexFree := by
  simp [RedexFree, or_imp, forall_and]

/-- The redexes of an empty list are those of its element type. -/
theorem redexFree_nil {A : Term} : (nil A).RedexFree ↔ A.RedexFree := by
  simp [RedexFree, isRedex]

/-- The redexes of a list literal are those of its elements. -/
theorem redexFree_list {e : Term} {es : List Term} :
    (list e es).RedexFree ↔ e.RedexFree ∧ ∀ e' ∈ es, e'.RedexFree := by
  have hmem (s : Term) : s ∈ (list e es).subterms ↔
      s = list e es ∨ s ∈ e.subterms ∨ ∃ e' ∈ es, s ∈ e'.subterms := by simp
  constructor
  · intro h
    exact ⟨fun s hs => h s ((hmem s).mpr (.inr (.inl hs))),
      fun e' he' s hs => h s ((hmem s).mpr (.inr (.inr ⟨e', he', hs⟩)))⟩
  · rintro ⟨he, hes⟩ s hs
    rcases (hmem s).mp hs with rfl | hs | ⟨e', he', hs⟩
    · exact Bool.false_ne_true
    · exact he s hs
    · exact hes e' he' s hs

/-! ### Normal forms have no redex -/

open Nameless

/-- A redex can be contracted, whatever the scope. -/
theorem exists_step_of_isRedex {t : Term} (h : t.isRedex) (Γ : Scope) :
    ∃ u, Step (t.resolve Γ) u := by
  unfold isRedex at h
  split at h
  case h_1 x A b a => exact ⟨_, .beta _ _ _⟩
  case h_2 e A => exact ⟨_, .erase _ _⟩
  case h_3 op m n =>
    have hsmall : op.onNat m.toNat n.toNat < UInt64.size := of_decide_eq_true h
    rcases heval : op.eval? m n with _ | r
    · exact absurd (Operation.eval?_eq_none_iff.mp heval) (Nat.not_le_of_lt hsmall)
    · exact ⟨_, .compute heval⟩
  case h_4 => cases h

/-- A term whose nameless form makes no step is no redex. -/
theorem not_isRedex_of_normal {t : Term} {Γ : Scope} (h : (t.resolve Γ).Normal) : ¬ t.isRedex := by
  intro hredex
  obtain ⟨u, hu⟩ := exists_step_of_isRedex hredex Γ
  exact h u hu

/-- A term that stands for a normal one has no redex in it: a step inside a subterm would be a step
of the whole. -/
theorem redexFree_of_normal {t : Term} {Γ : Scope} (h : (t.resolve Γ).Normal) : t.RedexFree := by
  induction t generalizing Γ with
  | const c => exact redexFree_const c
  | var v => exact redexFree_var v
  | binder k x A b ihA ihb =>
    have hA : (A.resolve Γ).Normal := fun u hu => h _ (.binderType k _ hu)
    have hb : (b.resolve (x :: Γ)).Normal := fun u hu => h _ (.binderBody k _ hu)
    exact redexFree_binder.mpr ⟨ihA hA, ihb hb⟩
  | app f a ihf iha =>
    have hf : (f.resolve Γ).Normal := fun u hu => h _ (.appFunction _ hu)
    have ha : (a.resolve Γ).Normal := fun u hu => h _ (.appArgument _ hu)
    exact redexFree_app.mpr ⟨not_isRedex_of_normal h, ihf hf, iha ha⟩
  | annot e A _ _ => exact absurd rfl (not_isRedex_of_normal h)
  | arith op l r ihl ihr =>
    have hl : (l.resolve Γ).Normal := fun u hu => h _ (.arithLeft op _ hu)
    have hr : (r.resolve Γ).Normal := fun u hu => h _ (.arithRight op _ hu)
    exact redexFree_arith.mpr ⟨not_isRedex_of_normal h, ihl hl, ihr hr⟩
  | nil A ihA =>
    have hA : (A.resolve Γ).Normal := fun u hu => h _ (.nilType hu)
    exact redexFree_nil.mpr (ihA hA)
  | list e es ihe ihes =>
    have he : (e.resolve Γ).Normal := fun u hu => h _ (.listHead _ hu)
    refine redexFree_list.mpr ⟨ihe he, ?_⟩
    intro e' he'
    obtain ⟨before, after, rfl⟩ := List.append_of_mem he'
    simp only [resolve, resolveAll_eq_map, List.map_append, List.map_cons] at h
    have hmem : (e'.resolve Γ).Normal := fun u hu => h _ (.listTail _ _ _ hu)
    exact ihes e' he' hmem

/-- A normal form has no redex. -/
theorem redexFree_of_normalize {fuel : Nat} {t u : Term} (h : (t.normalize fuel).result = .ok u) :
    u.RedexFree :=
  redexFree_of_normal (normalize_sound h []).2

/-! ### Nothing happens to a term without redexes -/

/-- The event is not the contraction of an applied function. -/
def NoContraction (e : Event) : Prop := ∀ x, e ≠ .contracted x

/-- An operation that is no redex stays as it is. -/
theorem reduceArith_settles {op : Operation} {l r : Term} (h : ¬ (arith op l r).isRedex) :
    (reduceArith op l r).Settles NoContraction (.arith op l r) := by
  unfold reduceArith
  split
  case h_1 m n =>
    have hlarge : UInt64.size ≤ op.onNat m.toNat n.toNat := by
      simpa [isRedex, UInt64.size] using h
    rw [Operation.eval?_eq_none_iff.mpr hlarge]
    exact .bind (.record fun x => nofun) (.pure _)
  case h_2 => exact .pure _

/-- Normalizing a term without redexes gives it back and contracts nothing. -/
theorem settles_of_redexFree {t : Term} (h : t.RedexFree) {fuel : Nat} (hfuel : t.size ≤ fuel) :
    (t.normalize fuel).Settles NoContraction t := by
  -- Without redexes, normalizing only goes down into the parts, so the size is fuel enough.
  induction fuel generalizing t with
  | zero =>
    have hpos : 0 < t.size := by cases t <;> simp only [size] <;> omega
    omega
  | succ fuel ih =>
    cases t with
    | const c => exact .pure _
    | var v => exact .pure _
    | binder k x A b =>
      obtain ⟨hA, hb⟩ := redexFree_binder.mp h
      simp only [size] at hfuel
      simp only [normalize, relay_eq]
      exact .bind (ih hA (by omega)) (.bind (ih hb (by omega)) (.pure _))
    | app f a =>
      obtain ⟨hself, hf, ha⟩ := redexFree_app.mp h
      simp only [size] at hfuel
      simp only [normalize, relay_eq]
      refine .bind (ih hf (by omega)) (.bind (ih ha (by omega)) ?_)
      split
      · exact absurd rfl hself
      · exact .pure _
    | annot e A => exact absurd h not_redexFree_annot
    | arith op l r =>
      obtain ⟨hself, hl, hr⟩ := redexFree_arith.mp h
      simp only [size] at hfuel
      simp only [normalize, relay_eq]
      exact .bind (ih hl (by omega)) (.bind (ih hr (by omega)) (reduceArith_settles hself))
    | nil A =>
      simp only [size] at hfuel
      simp only [normalize, relay_eq]
      exact .bind (ih (redexFree_nil.mp h) (by omega)) (.pure _)
    | list e es =>
      obtain ⟨he, hes⟩ := redexFree_list.mp h
      simp only [size] at hfuel
      simp only [normalize, relay_eq]
      have htail : ∀ e' ∈ es, (e'.normalize fuel).Settles NoContraction e' := by
        intro e' he'
        have hlt : e'.size < sizeAll es := size_lt_sizeAll he'
        exact ih (hes e' he') (by omega)
      exact .bind (ih he (by omega)) (.bind (.mapList htail) (.pure _))

/-- Normalization yields normal forms. Whenever the normalization of a term ends with a value, that
value is reached by contractions, none of its subterms is a redex, and normalizing it once more
gives it back without contracting any applied function. -/
theorem normalize_yields_normal_form {fuel : Nat} {t u : Term}
    (h : (t.normalize fuel).result = .ok u) :
    Reduces (t.resolve []) (u.resolve []) ∧ (∀ s ∈ u.subterms, ¬ s.isRedex) ∧
      ∀ n, u.size ≤ n →
        (u.normalize n).result = .ok u ∧ ∀ x, Event.contracted x ∉ (u.normalize n).events := by
  obtain ⟨hred, hnormal⟩ := normalize_sound h []
  have hfree : u.RedexFree := redexFree_of_normal hnormal
  refine ⟨hred, hfree, ?_⟩
  intro n hn
  obtain ⟨hresult, hevents⟩ := settles_of_redexFree hfree hn
  exact ⟨hresult, fun x hx => hevents _ hx x rfl⟩

/-- `(λ(f : Natural → Natural) → λ(y : Natural) → f (y + (1 + 2))) (λ(n : Natural) → n * y +
((18446744073709551615 : Natural) + 1))`: the contraction makes new redexes of the argument, must
not capture `y`, and leaves an operation that overflows. -/
def unfolding : Term :=
  .app
    (.lam "f" (.pi "_" (.const .naturalType) (.const .naturalType))
      (.lam "y" (.const .naturalType)
        (.app (.nearby "f" 0)
          (.arith .plus (.nearby "y" 0) (.arith .plus (.natural 1) (.natural 2))))))
    (.lam "n" (.const .naturalType)
      (.arith .plus (.arith .times (.nearby "n" 0) (.nearby "y" 0))
        (.arith .plus (.annot (.natural 18446744073709551615) (.const .naturalType))
          (.natural 1))))

/-- `λ(y : Natural) → (y + 3) * y@1 + (18446744073709551615 + 1)`. -/
def unfolded : Term :=
  .lam "y" (.const .naturalType)
    (.arith .plus
      (.arith .times (.arith .plus (.nearby "y" 0) (.natural 3)) (.nearby "y" 1))
      (.arith .plus (.natural 18446744073709551615) (.natural 1)))

/-- The contraction makes new redexes and leaves an operation that overflows. -/
theorem normalize_yields_normal_form_unfolding :
    (unfolding.normalize 16).result = .ok unfolded ∧
      Reduces (unfolding.resolve []) (unfolded.resolve []) ∧
      (∀ s ∈ unfolded.subterms, ¬ s.isRedex) ∧
      (unfolded.normalize 16).result = .ok unfolded ∧
      ∀ x, Event.contracted x ∉ (unfolded.normalize 16).events := by
  have h : (unfolding.normalize 16).result = .ok unfolded := by decide +kernel
  obtain ⟨hred, hfree, hagain⟩ := normalize_yields_normal_form h
  obtain ⟨hresult, hevents⟩ := hagain 16 (by decide +kernel)
  exact ⟨h, hred, hfree, hresult, hevents⟩

end Term

end Trisort
