import Trisort.Proofs.Nameless
import Trisort.Term.Anonymous
import Mathlib.Data.List.Forall2

/-!
# What a term with labels stands for

`t.resolve Γ` is the nameless form of `t` in the scope `Γ`, the labels of the binders around it, the
nearest first. An occurrence `x@i` refers to the `i`-th binder labelled `x`, first among those of
the term, then among those of the scope; if there are not so many, it is free, and its index counts
what lies beyond. The nameless form of a term on its own is `t.resolve []`.

The operations on labelled terms are those on nameless terms. A binder labelled `x` put into the
scope after `pre` changes how the binders behind it are counted. Shifting makes up for that:
`form_shift_by` says so for a shift up over the cutoff `x@i`, where `i` is the number of labels `x`
in `pre`, by as many as there are new binders, and `form_shift_down` for a shift down by one.
`form_subst` is the same for substitution, and `form_instantiate` follows: filling a binder of a
labelled term is filling a binder.

The operations do not touch the labels of binders either. To say so along with the rest, `t.form m
Γ` is the nameless form of `t` together with the labels that the marking `m` keeps: none, which
gives `t.resolve Γ`, or all of them, in which case the form determines the term. The facts above
hold for every marking.
-/

namespace Trisort

/-- The labels of the binders around a term, the nearest first. -/
abbrev Scope := List Label

/-- What the occurrence `x@i` refers to. -/
def Scope.locate : Scope → Label → Nat → Nameless
  | [], x, i => .free x i
  | y :: Γ, x, i =>
    if y = x then
      match i with
      | 0 => .bound 0
      | i + 1 => (locate Γ x i).weaken
    else (locate Γ x i).weaken

namespace Term

mutual

/-- The nameless form of a term in a scope. -/
@[simp] def resolve (Γ : Scope) : Term → Nameless
  | .const c => .const c
  | .var v => Γ.locate v.name v.index
  | .binder k x A b => .binder k (A.resolve Γ) (b.resolve (x :: Γ))
  | .app f a => .app (f.resolve Γ) (a.resolve Γ)
  | .annot e A => .annot (e.resolve Γ) (A.resolve Γ)
  | .arith op l r => .arith op (l.resolve Γ) (r.resolve Γ)
  | .nil A => .nil (A.resolve Γ)
  | .list e es => .list (e.resolve Γ) (resolveAll Γ es)

/-- The nameless forms of the terms of a list. -/
def resolveAll (Γ : Scope) : List Term → List Nameless
  | [] => []
  | e :: es => e.resolve Γ :: resolveAll Γ es

end

/-- The nameless forms of a list of terms are those of its elements. -/
@[simp] theorem resolveAll_eq_map (Γ : Scope) (es : List Term) :
    resolveAll Γ es = es.map (resolve Γ) := by
  induction es with
  | nil => rfl
  | cons e es ih => rw [resolveAll, ih, List.map_cons]

end Term

/-! ### Forms with labels -/

/-- What the form of a term keeps of the labels of its binders. -/
inductive Marking where
  /-- The labels are forgotten. -/
  | plain
  /-- The labels are kept. -/
  | labelled

namespace Marking

/-- The type of a binder labelled `x`, with the label if it is kept. The label is put next to the
type as a free variable, which renaming and substitution leave alone. -/
def mark : Marking → Label → Nameless → Nameless
  | plain, _, A => A
  | labelled, x, A => .annot A (.free x 0)

/-- The form does not tell binders with these labels apart. -/
def Admits : Marking → Label → Label → Prop
  | plain, _, _ => True
  | labelled, x, y => x = y

/-- A form never tells binders with the same label apart. -/
theorem admits_refl (m : Marking) (x : Label) : m.Admits x x := by
  cases m with
  | plain => trivial
  | labelled => rfl

variable {m : Marking} {x y : Label} {A B : Nameless}

/-- Renaming leaves the label alone. -/
@[simp] theorem rename_mark (ξ : Nat → Nat) : (m.mark x A).rename ξ = m.mark x (A.rename ξ) := by
  cases m <;> rfl

/-- Substitution leaves the label alone. -/
@[simp] theorem substitute_mark (θ : Nat → Nameless) :
    (m.mark x A).substitute θ = m.mark x (A.substitute θ) := by
  cases m <;> rfl

/-- Marked types are equal exactly if the types are and the form does not tell the labels apart. -/
theorem mark_eq_iff : m.mark y B = m.mark x A ↔ m.Admits x y ∧ B = A := by
  cases m with
  | plain => simp [mark, Admits]
  | labelled => simp [mark, Admits, and_comm, eq_comm]

/-- A marked type that is a renamed term comes from a renamed type. -/
theorem exists_of_mark_eq_rename {ξ : Nat → Nat} {u : Nameless} (h : m.mark x A = u.rename ξ) :
    ∃ B : Nameless, A = B.rename ξ := by
  cases m with
  | plain => exact ⟨u, h⟩
  | labelled =>
    cases u with
    | annot B C => exact ⟨B, (Nameless.annot.inj h).1⟩
    | _ => cases h

end Marking

namespace Term

mutual

/-- The nameless form of a term in a scope, with the labels that the marking keeps. -/
@[simp] def form (m : Marking) (Γ : Scope) : Term → Nameless
  | .const c => .const c
  | .var v => Γ.locate v.name v.index
  | .binder k x A b => .binder k (m.mark x (A.form m Γ)) (b.form m (x :: Γ))
  | .app f a => .app (f.form m Γ) (a.form m Γ)
  | .annot e A => .annot (e.form m Γ) (A.form m Γ)
  | .arith op l r => .arith op (l.form m Γ) (r.form m Γ)
  | .nil A => .nil (A.form m Γ)
  | .list e es => .list (e.form m Γ) (formAll m Γ es)

/-- The forms of the terms of a list. -/
def formAll (m : Marking) (Γ : Scope) : List Term → List Nameless
  | [] => []
  | e :: es => e.form m Γ :: formAll m Γ es

end

/-- The forms of a list of terms are those of its elements. -/
@[simp] theorem formAll_eq_map (m : Marking) (Γ : Scope) (es : List Term) :
    formAll m Γ es = es.map (form m Γ) := by
  induction es with
  | nil => rfl
  | cons e es ih => rw [formAll, ih, List.map_cons]

/-- Without labels, the form is the nameless form. -/
theorem form_plain (Γ : Scope) (t : Term) : t.form .plain Γ = t.resolve Γ := by
  induction t generalizing Γ with
  | const c => rfl
  | var v => rfl
  | binder k x A b ihA ihb => simp only [form, resolve, Marking.mark, ihA, ihb]
  | app f a ihf iha => simp only [form, resolve, ihf, iha]
  | annot e A ihe ihA => simp only [form, resolve, ihe, ihA]
  | arith op l r ihl ihr => simp only [form, resolve, ihl, ihr]
  | nil A ihA => simp only [form, resolve, ihA]
  | list e es ihe ihes =>
    have hmap : es.map (form .plain Γ) = es.map (resolve Γ) :=
      List.map_congr_left fun e he => ihes e he Γ
    simp only [form, resolve, formAll_eq_map, resolveAll_eq_map, ihe, hmap]

end Term

/-! ### Lists -/

/-- What a computation does to each element of a list holds between the list and its outcome. -/
theorem forall₂_of_mapM {ε α β : Type} {f : α → Except ε β} {P : α → β → Prop} {as : List α}
    {bs : List β} (h : as.mapM f = .ok bs) (hP : ∀ a ∈ as, ∀ b, f a = .ok b → P a b) :
    List.Forall₂ P as bs := by
  induction as generalizing bs with
  | nil =>
    rw [List.mapM_nil, pure_eq_ok_iff] at h
    rw [← h]
    exact .nil
  | cons a as ih =>
    simp only [List.mapM_cons, bind_eq_ok_iff, pure_eq_ok_iff] at h
    obtain ⟨b, hb, bs, hbs, rfl⟩ := h
    exact .cons (hP a (by simp) b hb) (ih hbs fun a₁ h₁ => hP a₁ (by simp [h₁]))

/-- A property that follows from being related to an element holds of a whole list. -/
theorem forall_mem_of_forall₂ {α β : Type} {R : α → β → Prop} {P : β → Prop} {as : List α}
    {bs : List β} (h : List.Forall₂ R as bs) (hP : ∀ a b, R a b → P b) : ∀ b ∈ bs, P b := by
  induction h with
  | nil => simp
  | cons hab _ ih =>
    rintro b (_ | ⟨_, hb⟩)
    · exact hP _ _ hab
    · exact ih b hb

/-- What a map that may fail returns comes from the elements. -/
theorem exists_mem_of_mapM {ε α β : Type} {f : α → Except ε β} {as : List α} {bs : List β}
    (h : as.mapM f = .ok bs) {b : β} (hb : b ∈ bs) : ∃ a ∈ as, f a = .ok b := by
  have hall := forall₂_of_mapM h fun a ha b hab => And.intro ha hab
  exact forall_mem_of_forall₂ (P := fun b => ∃ a ∈ as, f a = .ok b) hall
    (fun a b hab => ⟨a, hab⟩) b hb

/-- A computation that succeeds on a list succeeds on each element of it. -/
theorem exists_ok_of_mapM {ε α β : Type} {f : α → Except ε β} {as : List α} {bs : List β}
    (h : as.mapM f = .ok bs) {a : α} (ha : a ∈ as) : ∃ b, f a = .ok b := by
  have hall := (forall₂_of_mapM h fun _ _ _ hab => hab).flip
  exact forall_mem_of_forall₂ (P := fun a => ∃ b, f a = .ok b) hall (fun b _ hab => ⟨b, hab⟩) a ha

/-- A computation that fails on a list fails on an element of it. -/
theorem exists_mem_of_mapM_error {ε α β : Type} {f : α → Except ε β} {as : List α} {e : ε}
    (h : as.mapM f = .error e) : ∃ a ∈ as, f a = .error e := by
  induction as with
  | nil => exact absurd h pure_ne_error
  | cons a as ih =>
    simp only [List.mapM_cons, bind_eq_error_iff, pure_ne_error, and_false, exists_false,
      or_false] at h
    rcases h with ha | ⟨b, -, has⟩
    · exact ⟨a, List.mem_cons_self, ha⟩
    · obtain ⟨a', ha', herror⟩ := ih has
      exact ⟨a', List.mem_cons_of_mem a ha', herror⟩

/-- Two maps have the same outcome exactly if they do at corresponding elements. -/
theorem map_eq_map_iff_forall₂ {α β γ : Type} {f : α → γ} {g : β → γ} {as : List α}
    {bs : List β} : as.map f = bs.map g ↔ List.Forall₂ (fun a b => f a = g b) as bs := by
  rw [← List.forall₂_eq_eq_eq, List.forall₂_map_left_iff, List.forall₂_map_right_iff]

/-! ### One more binder in the scope -/

namespace Nameless

/-- The renaming that makes room for a binder behind the `n` nearest. -/
def insertion : Nat → Nat → Nat
  | 0 => Nat.succ
  | n + 1 => liftRenaming (insertion n)

/-- Making room for a binder keeps variables apart. -/
theorem insertion_injective (n : Nat) : Function.Injective (insertion n) := by
  induction n with
  | zero => exact fun _ _ => Nat.succ.inj
  | succ n ih => exact liftRenaming_injective ih

/-- The binder for which room is made is not referred to yet. -/
theorem insertion_ne (n k : Nat) : insertion n k ≠ n := by
  induction n generalizing k with
  | zero => exact Nat.succ_ne_zero k
  | succ n ih =>
    cases k with
    | zero => exact Nat.zero_ne_add_one n
    | succ k => exact fun h => ih k (Nat.succ.inj h)

/-- All other binders stay. -/
theorem exists_insertion_eq {n k : Nat} (h : k ≠ n) : ∃ j, insertion n j = k := by
  induction n generalizing k with
  | zero => exact Nat.exists_eq_succ_of_ne_zero h |>.imp fun _ => Eq.symm
  | succ n ih =>
    cases k with
    | zero => exact ⟨0, rfl⟩
    | succ k =>
      obtain ⟨j, rfl⟩ := ih fun hk => h (congrArg Nat.succ hk)
      exact ⟨j + 1, rfl⟩

/-- After room has been made for a binder, no variable is that of the binder. -/
theorem rename_insertion_ne_bound (n : Nat) (t : Nameless) : t.rename (insertion n) ≠ .bound n := by
  intro h
  cases t with
  | bound k => exact insertion_ne n k (bound.inj h)
  | _ => cases h

/-- The substitution that puts `w` for the variable of the `n`-th binder and keeps the others. -/
def replace (n : Nat) (w : Nameless) (k : Nat) : Nameless := if k = n then w else .bound k

/-- The variable that is replaced becomes the given term. -/
@[simp] theorem replace_self (n : Nat) (w : Nameless) : replace n w n = w := if_pos rfl

/-- All other variables stay. -/
theorem replace_of_ne {n k : Nat} (h : k ≠ n) (w : Nameless) : replace n w k = .bound k := if_neg h

/-- Under a binder, the variable of the next binder is replaced by the weakened term. -/
theorem lift_replace (n : Nat) (w : Nameless) : lift (replace n w) = replace (n + 1) w.weaken := by
  funext k
  cases k with
  | zero => exact (replace_of_ne (Nat.zero_ne_add_one n) _).symm
  | succ k =>
    by_cases h : k = n
    · subst h
      rw [lift_succ, replace_self, replace_self]
    · rw [lift_succ, replace_of_ne h, replace_of_ne (by omega)]
      rfl

/-- Replacing the variable of a binder changes nothing in a term that does not mention it. -/
theorem substitute_replace_insertion (n : Nat) (w t : Nameless) :
    (t.rename (insertion n)).substitute (replace n w) = t.rename (insertion n) := by
  have hkeep : replace n w ∘ insertion n = fun k => .bound (insertion n k) := by
    funext k
    exact replace_of_ne (insertion_ne n k) w
  rw [substitute_rename, hkeep, rename_eq_substitute]

/-- Filling the nearest binder with a term that does not refer to it leaves the binder unused. -/
theorem substitute_replace_zero (b a : Nameless) :
    b.substitute (replace 0 a.weaken) = (b.instantiate a).weaken := by
  have hσ : replace 0 a.weaken = fun k => (extend a bound k).weaken := by
    funext k
    cases k <;> rfl
  rw [hσ, instantiate, weaken, rename_substitute]

end Nameless

namespace Scope

variable (pre post : Scope) (x : Label)

/-- The index of a variable once a binder labelled `x` stands behind `pre`. -/
def raise (y : Label) (i : Nat) : Nat := if y = x ∧ pre.count x ≤ i then i + 1 else i

/-- The new binder itself. -/
theorem locate_inserted : locate (pre ++ x :: post) x (pre.count x) = .bound pre.length := by
  induction pre with
  | nil => simp [locate]
  | cons y pre ih =>
    by_cases h : y = x
    · simp [locate, h, ih]
    · simp [locate, h, ih]

/-- All other variables refer to what they referred to before. -/
theorem locate_raise (y : Label) (i : Nat) :
    locate (pre ++ x :: post) y (raise pre x y i) =
      (locate (pre ++ post) y i).rename (Nameless.insertion pre.length) := by
  induction pre generalizing i with
  | nil =>
    by_cases h : y = x
    · simp [raise, locate, h, Nameless.insertion]
    · simp [raise, locate, h, Ne.symm h, Nameless.insertion]
  | cons z pre ih =>
    by_cases hz : z = y
    · subst hz
      cases i with
      | zero =>
        have hraise : raise (z :: pre) x z 0 = 0 := by
          rw [raise, if_neg]
          rintro ⟨rfl, hle⟩
          simp at hle
        simp [hraise, locate, Nameless.insertion, Nameless.liftRenaming]
      | succ i =>
        have hraise : raise (z :: pre) x z (i + 1) = raise pre x z i + 1 := by
          by_cases h : z = x
          · subst h
            by_cases hle : pre.count z ≤ i <;> simp [raise, hle]
          · simp [raise, h]
        simp only [List.cons_append, hraise, locate, if_true, ih i, List.length_cons]
        exact (Nameless.rename_liftRenaming_weaken _ _).symm
    · have hraise : raise (z :: pre) x y i = raise pre x y i := by
        by_cases h : y = x
        · subst h
          simp [raise, List.count_cons_of_ne hz]
        · simp [raise, h]
      simp only [List.cons_append, hraise, locate, if_neg hz, ih i, List.length_cons]
      exact (Nameless.rename_liftRenaming_weaken _ _).symm

/-- With `n` binders in one place, the index of a variable behind them grows by `n`. -/
theorem raise_iterate (y : Label) (n i : Nat) :
    (raise pre x y)^[n] i = if y = x ∧ pre.count x ≤ i then i + n else i := by
  induction n with
  | zero => exact (ite_self i).symm
  | succ n ih =>
    rw [Function.iterate_succ_apply', ih, raise]
    by_cases h : y = x ∧ pre.count x ≤ i
    · rw [if_pos h, if_pos ⟨h.1, Nat.le_add_right_of_le h.2⟩, if_pos h, Nat.add_assoc]
    · rw [if_neg h, if_neg h, if_neg h]

/-- Whatever stands behind the `n` binders, all variables refer to what they referred to before. -/
theorem locate_raise_iterate (y : Label) (n i : Nat) :
    locate (pre ++ (List.replicate n x ++ post)) y ((raise pre x y)^[n] i) =
      (locate (pre ++ post) y i).rename (Nameless.insertion pre.length)^[n] := by
  induction n with
  | zero => exact (Nameless.rename_id _).symm
  | succ n ih =>
    rw [Function.iterate_succ_apply', List.replicate_succ, List.cons_append, locate_raise, ih,
      Nameless.rename_rename, ← Function.iterate_succ']

/-- A variable refers to a binder or is free. -/
theorem locate_eq_bound_or_free (Γ : Scope) (y : Label) (i : Nat) :
    (∃ k, locate Γ y i = .bound k) ∨ ∃ z j, locate Γ y i = .free z j := by
  have hweaken {t : Nameless} (h : (∃ k, t = .bound k) ∨ ∃ z j, t = .free z j) :
      (∃ k, t.weaken = .bound k) ∨ ∃ z j, t.weaken = .free z j := by
    rcases h with ⟨k, rfl⟩ | ⟨z, j, rfl⟩
    · exact .inl ⟨k + 1, rfl⟩
    · exact .inr ⟨z, j, rfl⟩
  induction Γ generalizing i with
  | nil => exact .inr ⟨y, i, rfl⟩
  | cons z Γ ih =>
    unfold locate
    split
    · split
      · exact .inl ⟨0, rfl⟩
      · exact hweaken (ih _)
    · exact hweaken (ih i)

/-- A variable stands for a bound or a free variable, and for nothing else. -/
theorem locate_ne {Γ : Scope} {y : Label} {i : Nat} {t : Nameless} (hbound : ∀ k, t ≠ .bound k)
    (hfree : ∀ z j, t ≠ .free z j) : Γ.locate y i ≠ t := by
  rintro rfl
  rcases Γ.locate_eq_bound_or_free y i with ⟨k, hk⟩ | ⟨z, j, hj⟩
  · exact hbound k hk
  · exact hfree z j hj

/-- Different variables refer to different things. -/
theorem locate_inj {Γ : Scope} {y z : Label} {i j : Nat} (h : Γ.locate y i = Γ.locate z j) :
    y = z ∧ i = j := by
  have hweaken {t u : Nameless} (h : t.weaken = u.weaken) : t = u :=
    Nameless.rename_injective (Nameless.insertion_injective 0) h
  have hzero (t : Nameless) : t.weaken ≠ .bound 0 := Nameless.rename_insertion_ne_bound 0 t
  -- What the nearest binder catches is `bound 0`, and all else is weakened. These never meet.
  induction Γ generalizing i j with
  | nil => exact Nameless.free.inj h
  | cons w Γ ih =>
    simp only [locate] at h
    by_cases hy : w = y
    · by_cases hz : w = z
      · rw [if_pos hy, if_pos hz] at h
        cases i with
        | zero =>
          cases j with
          | zero => exact ⟨hy.symm.trans hz, rfl⟩
          | succ j => exact absurd h.symm (hzero _)
        | succ i =>
          cases j with
          | zero => exact absurd h (hzero _)
          | succ j =>
            obtain ⟨hyz, hij⟩ := ih (hweaken h)
            exact ⟨hyz, congrArg Nat.succ hij⟩
      · rw [if_pos hy, if_neg hz] at h
        cases i with
        | zero => exact absurd h.symm (hzero _)
        | succ i => exact absurd (hy.trans (ih (hweaken h)).1) hz
    · by_cases hz : w = z
      · rw [if_neg hy, if_pos hz] at h
        cases j with
        | zero => exact absurd h (hzero _)
        | succ j => exact absurd (hz.trans (ih (hweaken h)).1.symm) hy
      · rw [if_neg hy, if_neg hz] at h
        exact ih (hweaken h)

/-- A variable is the new binder's or one that was there before. -/
theorem eq_count_or_raise (y : Label) (j : Nat) :
    (y = x ∧ j = pre.count x) ∨ ∃ i, j = raise pre x y i := by
  by_cases hy : y = x
  · rcases Nat.lt_trichotomy j (pre.count x) with hlt | heq | hgt
    · right
      refine ⟨j, ?_⟩
      rw [raise, if_neg (by omega)]
    · exact .inl ⟨hy, heq⟩
    · right
      refine ⟨j - 1, ?_⟩
      rw [raise, if_pos ⟨hy, by omega⟩]
      omega
  · right
    refine ⟨j, ?_⟩
    rw [raise, if_neg (by simp [hy])]

end Scope

/-! ### Traversals -/

namespace Term

open Nameless

/-- A traversal that acts on variables as a nameless substitution does acts so on terms. The
relation `R Γ Δ s θ` says that with the parameter `s` a term in the scope `Γ` becomes a term in the
scope `Δ`, by the substitution `θ`. -/
theorem form_traverse (m : Marking) {σ : Type} {T : Traversal σ}
    {R : Scope → Scope → σ → (Nat → Nameless) → Prop}
    (hleaf : ∀ {Γ Δ s θ v t}, R Γ Δ s θ → T.leaf s v = .ok t →
      t.form m Δ = (Γ.locate v.name v.index).substitute θ)
    (hunder : ∀ {Γ Δ s θ x s'}, R Γ Δ s θ → T.under s x = .ok s' →
      R (x :: Γ) (x :: Δ) s' (lift θ))
    {Γ Δ : Scope} {s : σ} {θ : Nat → Nameless} (hs : R Γ Δ s θ) {t t' : Term}
    (h : traverse T s t = .ok t') : t'.form m Δ = (t.form m Γ).substitute θ := by
  induction t generalizing Γ Δ s θ t' with
  | const c =>
    cases h
    rfl
  | var v => exact hleaf hs h
  | binder k x A b ihA ihb =>
    simp only [traverse_binder, bind_eq_ok_iff, pure_eq_ok_iff] at h
    obtain ⟨A', hA, s', hs', b', hb, rfl⟩ := h
    simp [ihA hs hA, ihb (hunder hs hs') hb]
  | app f a ihf iha =>
    simp only [traverse_app, bind_eq_ok_iff, pure_eq_ok_iff] at h
    obtain ⟨f', hf, a', ha, rfl⟩ := h
    simp [ihf hs hf, iha hs ha]
  | annot e A ihe ihA =>
    simp only [traverse_annot, bind_eq_ok_iff, pure_eq_ok_iff] at h
    obtain ⟨e', he, A', hA, rfl⟩ := h
    simp [ihe hs he, ihA hs hA]
  | arith op l r ihl ihr =>
    simp only [traverse_arith, bind_eq_ok_iff, pure_eq_ok_iff] at h
    obtain ⟨l', hl, r', hr, rfl⟩ := h
    simp [ihl hs hl, ihr hs hr]
  | nil A ihA =>
    simp only [traverse_nil, bind_eq_ok_iff, pure_eq_ok_iff] at h
    obtain ⟨A', hA, rfl⟩ := h
    simp [ihA hs hA]
  | list e es ihe ihes =>
    simp only [traverse_list, bind_eq_ok_iff, pure_eq_ok_iff] at h
    obtain ⟨e', he, es', hes, rfl⟩ := h
    rw [traverseAll_eq_mapM] at hes
    have hmap : (es.map (form m Γ)).map (substitute θ) = es'.map (form m Δ) := by
      rw [List.map_map, map_eq_map_iff_forall₂]
      exact forall₂_of_mapM hes fun e he e' he' => (ihes e he hs he').symm
    simp only [form, formAll_eq_map, substitute, substituteAll_eq_map, ihe hs he, hmap]

/-! ### Shifting -/

/-- A cutoff that counts the binders in front of it goes on to do so under one more binder. -/
theorem behind_under {c c' : Var} {pre : Scope} {x : Label} (hc : c.index = pre.count c.name)
    (h : c.under x = .ok c') : c'.name = c.name ∧ c'.index = (x :: pre).count c.name := by
  obtain ⟨hname, hindex⟩ := Var.under_eq_ok_iff.mp h
  refine ⟨hname, ?_⟩
  by_cases hx : c.name = x
  · subst hx
    simp [hindex, hc]
  · simp [hindex, hc, hx, List.count_cons_of_ne (Ne.symm hx)]

/-- A variable shifted up by `n` over `x@i` is the same variable with `n` more `x` in the scope. -/
theorem shift_var_up {c v : Var} {pre : Scope} {n : Nat} {t : Term}
    (hc : c.index = pre.count c.name) (h : shift (.var v) n c = .ok t) :
    ∃ w : Var, t = .var w ∧ w.name = v.name ∧
      w.index = (Scope.raise pre c.name v.name)^[n] v.index := by
  rw [shift_var] at h
  rw [Scope.raise_iterate]
  split at h
  case isTrue hv =>
    simp only [bind_eq_ok_iff, pure_eq_ok_iff] at h
    obtain ⟨w, hw, rfl⟩ := h
    obtain ⟨hname, hindex⟩ := Var.move_eq_ok_iff.mp hw
    refine ⟨w, rfl, hname, ?_⟩
    rw [if_pos ⟨hv.1, hc ▸ hv.2⟩]
    omega
  case isFalse hv =>
    rw [pure_eq_ok_iff] at h
    refine ⟨v, h.symm, rfl, ?_⟩
    rw [if_neg (hc ▸ hv)]

/-- Shifting up by `n` over `x@i` makes room for `n` binders labelled `x`. -/
theorem form_shift_by (m : Marking) (pre post : Scope) {c : Var} {n : Nat}
    (hc : c.index = pre.count c.name) {t t' : Term} (h : t.shift n c = .ok t') :
    t'.form m (pre ++ (List.replicate n c.name ++ post)) =
      (t.form m (pre ++ post)).rename (insertion pre.length)^[n] := by
  rw [rename_eq_substitute]
  refine form_traverse m (T := Traversal.shift n)
    (R := fun Γ Δ c θ => ∃ pre, Γ = pre ++ post ∧ Δ = pre ++ (List.replicate n c.name ++ post) ∧
      c.index = pre.count c.name ∧ θ = fun k => .bound ((insertion pre.length)^[n] k))
    ?_ ?_ ⟨pre, rfl, rfl, hc, rfl⟩ h
  · rintro Γ Δ c θ v t ⟨pre, rfl, rfl, hc, rfl⟩ ht
    obtain ⟨w, rfl, hname, hindex⟩ := shift_var_up hc ht
    rw [← rename_eq_substitute, form, hname, hindex, Scope.locate_raise_iterate]
  · rintro Γ Δ c θ x c' ⟨pre, rfl, rfl, hc, rfl⟩ hc'
    obtain ⟨hname, hindex⟩ := behind_under hc hc'
    refine ⟨x :: pre, rfl, by rw [hname]; rfl, by rw [hname, hindex], ?_⟩
    rw [List.length_cons, insertion, ← liftRenaming_iterate]
    funext k
    cases k <;> rfl

/-- Shifting over a label is passing under a binder with the label. -/
theorem form_shift_nearest (m : Marking) {Γ : Scope} {x : Label} {t t' : Term}
    (h : t.shift 1 (.nearest x) = .ok t') : t'.form m (x :: Γ) = (t.form m Γ).weaken :=
  form_shift_by m [] Γ (n := 1) rfl h

/-- Shifting over a label is passing under a binder, for the nameless form. -/
theorem resolve_shift_nearest {Γ : Scope} {x : Label} {t t' : Term}
    (h : t.shift 1 (.nearest x) = .ok t') : t'.resolve (x :: Γ) = (t.resolve Γ).weaken := by
  simp only [← form_plain]
  exact form_shift_nearest .plain h

/-- A shift down takes back what a new binder has added to an index. -/
theorem shift_var_down {c v : Var} {pre : Scope} {i : Nat} {t : Term}
    (hc : c.index = pre.count c.name) (hv : v.index = Scope.raise pre c.name v.name i)
    (h : shift (.var v) (-1) c = .ok t) :
    ∃ w : Var, t = .var w ∧ w.name = v.name ∧ w.index = i := by
  rw [shift_var] at h
  rw [Scope.raise] at hv
  split at h
  case isTrue hle =>
    simp only [bind_eq_ok_iff, pure_eq_ok_iff] at h
    obtain ⟨w, hw, rfl⟩ := h
    obtain ⟨hname, hindex⟩ := Var.move_eq_ok_iff.mp hw
    refine ⟨w, rfl, hname, ?_⟩
    split at hv
    case isTrue => omega
    case isFalse hlt => exact absurd ⟨hle.1, by omega⟩ hlt
  case isFalse hlt =>
    rw [pure_eq_ok_iff] at h
    refine ⟨v, h.symm, rfl, ?_⟩
    split at hv
    case isTrue hle => exact absurd ⟨hle.1, by omega⟩ hlt
    case isFalse => exact hv

/-- Shifting down over `x@i` is undone by making room again, if nothing refers to the binder. -/
theorem rename_form_shift_down {m : Marking} (pre : Scope) {post : Scope} {c : Var}
    (hc : c.index = pre.count c.name) {t t' : Term} (h : t.shift (-1) c = .ok t')
    (hunused : ∃ u : Nameless, t.form m (pre ++ c.name :: post) = u.rename (insertion pre.length)) :
    (t'.form m (pre ++ post)).rename (insertion pre.length) =
      t.form m (pre ++ c.name :: post) := by
  obtain ⟨u, hu⟩ := hunused
  induction t generalizing pre c t' u with
  | const k =>
    cases h
    rfl
  | var v =>
    rcases Scope.eq_count_or_raise pre c.name v.name v.index with ⟨hname, hindex⟩ | ⟨i, hi⟩
    · rw [form, hname, hindex, Scope.locate_inserted] at hu
      exact absurd hu.symm (rename_insertion_ne_bound _ _)
    · obtain ⟨w, rfl, hname, rfl⟩ := shift_var_down hc hi h
      rw [form, form, hname, hi, Scope.locate_raise]
  | binder k x A b ihA ihb =>
    simp only [shift_binder, bind_eq_ok_iff, pure_eq_ok_iff] at h
    obtain ⟨A', hA, c', hc', b', hb, rfl⟩ := h
    obtain ⟨hname, hindex⟩ := behind_under hc hc'
    cases u with
    | binder k' _ d =>
      obtain ⟨-, huA, hub⟩ := Nameless.binder.inj hu
      obtain ⟨B, huA⟩ := Marking.exists_of_mark_eq_rename huA
      rw [← hname] at hub hindex
      have hbody := ihb (x :: pre) hindex hb d hub
      rw [hname] at hbody
      rw [form, rename, Marking.rename_mark, ihA pre hc hA B huA]
      exact congrArg _ hbody
    | _ => simp at hu
  | app f a ihf iha =>
    simp only [shift_app, bind_eq_ok_iff, pure_eq_ok_iff] at h
    obtain ⟨f', hf, a', ha, rfl⟩ := h
    cases u with
    | app =>
      obtain ⟨huf, hua⟩ := Nameless.app.inj hu
      rw [form, rename, ihf pre hc hf _ huf, iha pre hc ha _ hua, form]
    | _ => simp at hu
  | annot e A ihe ihA =>
    simp only [shift_annot, bind_eq_ok_iff, pure_eq_ok_iff] at h
    obtain ⟨e', he, A', hA, rfl⟩ := h
    cases u with
    | annot =>
      obtain ⟨hue, huA⟩ := Nameless.annot.inj hu
      rw [form, rename, ihe pre hc he _ hue, ihA pre hc hA _ huA, form]
    | _ => simp at hu
  | arith op l r ihl ihr =>
    simp only [shift_arith, bind_eq_ok_iff, pure_eq_ok_iff] at h
    obtain ⟨l', hl, r', hr, rfl⟩ := h
    cases u with
    | arith =>
      obtain ⟨-, hul, hur⟩ := Nameless.arith.inj hu
      rw [form, rename, ihl pre hc hl _ hul, ihr pre hc hr _ hur, form]
    | _ => simp at hu
  | nil A ihA =>
    simp only [shift_nil, bind_eq_ok_iff, pure_eq_ok_iff] at h
    obtain ⟨A', hA, rfl⟩ := h
    cases u with
    | nil => rw [form, rename, ihA pre hc hA _ (Nameless.nil.inj hu), form]
    | _ => simp at hu
  | list e es ihe ihes =>
    simp only [shift_list, bind_eq_ok_iff, pure_eq_ok_iff] at h
    obtain ⟨e', he, es', hes, rfl⟩ := h
    cases u with
    | list w ws =>
      simp only [form, formAll_eq_map, rename, renameAll_eq_map, Nameless.list.injEq] at hu
      obtain ⟨hw, hws⟩ := hu
      rw [traverseAll_eq_mapM] at hes
      have hmap : es.map (form m (pre ++ c.name :: post)) =
          (es'.map (form m (pre ++ post))).map (rename (insertion pre.length)) := by
        rw [List.map_map, map_eq_map_iff_forall₂]
        refine forall₂_of_mapM hes fun e he e' he' => ?_
        have hmem := List.mem_map_of_mem (f := form m (pre ++ c.name :: post)) he
        rw [hws] at hmem
        obtain ⟨w, -, hw⟩ := List.mem_map.mp hmem
        exact (ihes e he pre hc he' w hw.symm).symm
      simp only [form, formAll_eq_map, rename, renameAll_eq_map, ihe pre hc he w hw, hmap]
    | _ => simp at hu

/-- Shifting down over `x@i` closes the gap of a binder labelled `x` to which nothing refers. -/
theorem form_shift_down (m : Marking) (pre : Scope) {post : Scope} {c : Var}
    (hc : c.index = pre.count c.name) {t t' : Term} {u : Nameless} (h : t.shift (-1) c = .ok t')
    (hu : t.form m (pre ++ c.name :: post) = u.rename (insertion pre.length)) :
    t'.form m (pre ++ post) = u := by
  have hrename := rename_form_shift_down pre hc h ⟨u, hu⟩
  exact rename_injective (insertion_injective _) (hrename.trans hu)

/-- A shift down removes a binder that the term does not mention, for the nameless form. -/
theorem resolve_shift_down (pre : Scope) {post : Scope} {c : Var}
    (hc : c.index = pre.count c.name) {t t' : Term} {u : Nameless} (h : t.shift (-1) c = .ok t')
    (hu : t.resolve (pre ++ c.name :: post) = u.rename (insertion pre.length)) :
    t'.resolve (pre ++ post) = u := by
  simp only [← form_plain] at hu ⊢
  exact form_shift_down .plain pre hc h hu

/-! ### Substitution -/

/-- Substituting for `x@i` is substituting for the variable of that binder. The value belongs in the
scope in which the substitution takes place. -/
theorem form_subst (m : Marking) (pre : Scope) {post : Scope} {v : Var}
    (hv : v.index = pre.count v.name) {value t t' : Term} (h : t.subst v value = .ok t') :
    t'.form m (pre ++ v.name :: post) =
      (t.form m (pre ++ v.name :: post)).substitute
        (replace pre.length (value.form m (pre ++ v.name :: post))) := by
  refine form_traverse m (T := Traversal.subst)
    (R := fun Γ Δ s θ => ∃ pre, Γ = pre ++ s.var.name :: post ∧ Δ = Γ ∧
      s.var.index = pre.count s.var.name ∧ θ = replace pre.length (s.value.form m Γ))
    ?_ ?_ ⟨pre, rfl, rfl, hv, rfl⟩ h
  · rintro Γ Δ s θ w t ⟨pre, rfl, rfl, hs, rfl⟩ ht
    simp only [Traversal.subst] at ht
    split at ht
    case isTrue heq =>
      rw [pure_eq_ok_iff] at ht
      subst ht heq
      rw [hs, Scope.locate_inserted, substitute, replace_self]
    case isFalse hne =>
      rw [pure_eq_ok_iff] at ht
      subst ht
      rcases Scope.eq_count_or_raise pre s.var.name w.name w.index with ⟨hname, hindex⟩ | ⟨i, hi⟩
      · exact absurd (Var.ext hname (hindex.trans hs.symm)) hne
      · rw [form, hi, Scope.locate_raise, substitute_replace_insertion]
  · rintro Γ Δ s θ x s' ⟨pre, rfl, rfl, hs, rfl⟩ hs'
    simp only [Traversal.subst, Replacement.under, bind_eq_ok_iff, pure_eq_ok_iff] at hs'
    obtain ⟨value, hvalue, var, hvar, rfl⟩ := hs'
    obtain ⟨hname, hindex⟩ := behind_under hs hvar
    refine ⟨x :: pre, by rw [hname]; rfl, rfl, by rw [hname, hindex], ?_⟩
    rw [lift_replace, ← form_shift_nearest m hvalue]
    rfl

/-- Substitution puts the value for the variable of a binder, for the nameless form. -/
theorem resolve_subst (pre : Scope) {post : Scope} {v : Var} (hv : v.index = pre.count v.name)
    {value t t' : Term} (h : t.subst v value = .ok t') :
    t'.resolve (pre ++ v.name :: post) =
      (t.resolve (pre ++ v.name :: post)).substitute
        (replace pre.length (value.resolve (pre ++ v.name :: post))) := by
  simp only [← form_plain]
  exact form_subst .plain pre hv h

/-- With its variable replaced, nothing in the body refers to the binder any more. -/
theorem form_subst_nearest (m : Marking) {Γ : Scope} {x : Label} {b b' a a' : Term}
    (ha : a.shift 1 (.nearest x) = .ok a') (hb : b.subst (.nearest x) a' = .ok b') :
    b'.form m (x :: Γ) = ((b.form m (x :: Γ)).instantiate (a.form m Γ)).weaken := by
  have ha' : a'.form m (x :: Γ) = (a.form m Γ).weaken := form_shift_nearest m ha
  have hb' : b'.form m (x :: Γ) =
      (b.form m (x :: Γ)).substitute (replace 0 (a'.form m (x :: Γ))) :=
    form_subst m [] rfl hb
  rw [hb', ha', substitute_replace_zero]

/-- Substituting a shifted value for the nearest variable is filling the binder, seen from under
it. -/
theorem resolve_subst_nearest {Γ : Scope} {x : Label} {b b' a a' : Term}
    (ha : a.shift 1 (.nearest x) = .ok a') (hb : b.subst (.nearest x) a' = .ok b') :
    b'.resolve (x :: Γ) = ((b.resolve (x :: Γ)).instantiate (a.resolve Γ)).weaken := by
  simp only [← form_plain]
  exact form_subst_nearest .plain ha hb

/-- Filling a binder of a labelled term is filling a binder of its nameless form. -/
theorem form_instantiate (m : Marking) {Γ : Scope} {x : Label} {b a t : Term}
    (h : b.instantiate x a = .ok t) :
    t.form m Γ = (b.form m (x :: Γ)).instantiate (a.form m Γ) := by
  simp only [instantiate, bind_eq_ok_iff] at h
  obtain ⟨a', ha, b', hb, ht⟩ := h
  exact form_shift_down m [] rfl ht (form_subst_nearest m ha hb)

/-- Filling a binder of a labelled term is filling a binder of its nameless form. -/
theorem resolve_instantiate {Γ : Scope} {x : Label} {b a t : Term}
    (h : b.instantiate x a = .ok t) :
    t.resolve Γ = (b.resolve (x :: Γ)).instantiate (a.resolve Γ) := by
  simp only [← form_plain]
  exact form_instantiate .plain h

/-- With room made for `_` and the variable of the binder `x` renamed to it, nothing in the body
refers to `x` any more, and what lies beyond stays beyond both binders. -/
theorem resolve_rename_to_anonymous {Γ : Scope} {x : Label} {b b₁ b₂ : Term} (hx : x ≠ .anonymous)
    (h₁ : b.shift 1 (.nearest .anonymous) = .ok b₁)
    (h₂ : b₁.subst (.nearest x) (.var (.nearest .anonymous)) = .ok b₂) :
    b₂.resolve (.anonymous :: x :: Γ) = (b.resolve (x :: Γ)).rename (insertion 1) := by
  have hcount : (Var.nearest x).index = [Label.anonymous].count x := by
    simp [Ne.symm hx]
  have hb₁ : b₁.resolve (.anonymous :: x :: Γ) = (b.resolve (x :: Γ)).weaken :=
    resolve_shift_nearest h₁
  have hb₂ : b₂.resolve (.anonymous :: x :: Γ) =
      (b₁.resolve (.anonymous :: x :: Γ)).substitute (replace 1 (.bound 0)) :=
    resolve_subst [.anonymous] hcount h₂
  rw [hb₂, hb₁, weaken, substitute_rename, rename_eq_substitute]
  congr 1
  funext k
  cases k <;> rfl

/-- Relabelling a binder does not change what its body stands for. -/
theorem resolve_relabelBody {Γ : Scope} {x : Label} {b t : Term} (h : relabelBody x b = .ok t) :
    t.resolve (.anonymous :: Γ) = b.resolve (x :: Γ) := by
  unfold relabelBody at h
  split at h
  case isTrue hx =>
    rw [Label.isAnonymous_iff] at hx
    rw [pure_eq_ok_iff] at h
    rw [h, hx]
  case isFalse hx =>
    rw [Label.isAnonymous_iff] at hx
    simp only [bind_eq_ok_iff] at h
    obtain ⟨b₁, h₁, b₂, h₂, h₃⟩ := h
    have hcount : (Var.nearest x).index = [Label.anonymous].count x := by
      simp [Ne.symm hx]
    exact resolve_shift_down [.anonymous] hcount h₃ (resolve_rename_to_anonymous hx h₁ h₂)

end Term

end Trisort
