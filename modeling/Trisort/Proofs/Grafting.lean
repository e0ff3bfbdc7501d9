import Trisort.Proofs.Leaves

/-!
# Terms in place of variables

`t.graft f` is the term `t` with another term at each occurrence of a variable, namely `f pre v` at
the occurrence `v` under the binders `pre`. Everything else stays, the labels of the binders
included. What a traversal makes of a term is always such a term, with what it makes of each
occurrence (`graft_of_traverse`).

On nameless terms, `t.substituteFree φ` puts `φ x i` for the free variable `x@i`. The binders that
are passed on the way to an occurrence lie between it and whatever `φ x i` refers to, so they are
counted there. If each term that is put at an occurrence stands for what `φ` says about the variable
there, then grafting is this substitution (`resolve_graft`).
-/

namespace Trisort

/-! ### Free variables of nameless terms -/

namespace Nameless

mutual

/-- The term with other terms in place of its free variables. -/
@[simp] def substituteFree (φ : Label → Nat → Nameless) : Nameless → Nameless
  | .const c => .const c
  | .bound k => .bound k
  | .free x i => φ x i
  | .binder k A b => .binder k (substituteFree φ A) (substituteFree (fun x i => (φ x i).weaken) b)
  | .app f a => .app (substituteFree φ f) (substituteFree φ a)
  | .annot e A => .annot (substituteFree φ e) (substituteFree φ A)
  | .arith op l r => .arith op (substituteFree φ l) (substituteFree φ r)
  | .nil A => .nil (substituteFree φ A)
  | .list e es => .list (substituteFree φ e) (substituteFreeAll φ es)

/-- The terms of a list with other terms in place of their free variables. -/
def substituteFreeAll (φ : Label → Nat → Nameless) : List Nameless → List Nameless
  | [] => []
  | e :: es => substituteFree φ e :: substituteFreeAll φ es

end

/-- Substitution in a list of terms is substitution in each of them. -/
@[simp] theorem substituteFreeAll_eq_map (φ : Label → Nat → Nameless) (es : List Nameless) :
    substituteFreeAll φ es = es.map (substituteFree φ) := by
  induction es with
  | nil => rfl
  | cons e es ih => rw [substituteFreeAll, ih, List.map_cons]

/-- The term as seen from under `n` more binders. -/
def sunk (n : Nat) (t : Nameless) : Nameless := t.rename (· + n)

/-- Under no further binder, a term is what it was. -/
@[simp] theorem sunk_zero (t : Nameless) : t.sunk 0 = t := rename_id t

/-- A term seen from under one binder and then from under `n` more is seen from under `n + 1`. -/
theorem sunk_weaken (n : Nat) (t : Nameless) : t.weaken.sunk n = t.sunk (n + 1) := by
  have hcomp : (· + n) ∘ Nat.succ = (· + (n + 1)) := by
    funext k
    exact Nat.succ_add_eq_add_succ k n
  rw [sunk, weaken, rename_rename, hcomp, sunk]

/-- A term seen from under `n` binders and then from under one more is seen from under `n + 1`. -/
theorem weaken_sunk (n : Nat) (t : Nameless) : (t.sunk n).weaken = t.sunk (n + 1) :=
  rename_rename _ _ t

/-- Free variables do not count nameless binders. -/
@[simp] theorem sunk_free (n : Nat) (x : Label) (i : Nat) : (free x i).sunk n = .free x i := rfl

end Nameless

/-! ### What a variable refers to -/

namespace Scope

/-- A variable is free if the scope has no more binders of its name than its index says, and the
rest of the index counts what lies beyond. -/
theorem locate_eq_free_iff {Γ : Scope} {x y : Label} {i j : Nat} :
    Γ.locate x j = .free y i ↔ y = x ∧ j = i + Γ.count x := by
  have hweaken {t : Nameless} : t.weaken = .free y i ↔ t = .free y i := by
    cases t <;> simp
  induction Γ generalizing j with
  | nil => simp [locate, eq_comm]
  | cons z Γ ih =>
    by_cases hz : z = x
    · subst hz
      cases j with
      | zero => simp [locate]
      | succ j =>
        simp only [locate, if_true, hweaken, ih, List.count_cons_self, ← Nat.add_assoc,
          Nat.add_right_cancel_iff]
    · simp only [locate, if_neg hz, hweaken, ih, List.count_cons_of_ne hz]

/-- A variable with a smaller index refers to a binder of its name. -/
theorem exists_locate_eq_bound {Γ : Scope} {x : Label} {j : Nat} (h : j < Γ.count x) :
    ∃ k, Γ.locate x j = .bound k ∧ Γ[k]? = some x := by
  induction Γ generalizing j with
  | nil => simp at h
  | cons z Γ ih =>
    by_cases hz : z = x
    · subst hz
      cases j with
      | zero => exact ⟨0, by simp [locate], rfl⟩
      | succ j =>
        rw [List.count_cons_self, Nat.add_lt_add_iff_right] at h
        obtain ⟨k, hk, hget⟩ := ih h
        exact ⟨k + 1, by simp [locate, hk], hget⟩
    · rw [List.count_cons_of_ne hz] at h
      obtain ⟨k, hk, hget⟩ := ih h
      exact ⟨k + 1, by simp [locate, hz, hk], hget⟩

/-- Under one more binder a variable refers to what it referred to before. -/
theorem locate_under {Γ : Scope} {x : Label} {v w : Var} (h : v.under x = .ok w) :
    locate (x :: Γ) w.name w.index = (locate Γ v.name v.index).weaken := by
  obtain ⟨hname, hindex⟩ := Var.under_eq_ok_iff.mp h
  have hraise : raise [] x v.name v.index = w.index := by
    rw [hindex, raise]
    split <;> simp_all
  rw [hname, ← hraise]
  exact locate_raise [] Γ x v.name v.index

end Scope

/-! ### Grafting -/

namespace Term

mutual

/-- The term with `f pre v` at each occurrence `v` of a variable, where `pre` are the labels of the
binders of the term around it, the nearest first. -/
@[simp] def graft (f : Scope → Var → Term) : Term → Term
  | .const c => .const c
  | .var v => f [] v
  | .binder k x A b => .binder k x (A.graft f) (b.graft fun pre => f (pre ++ [x]))
  | .app g a => .app (g.graft f) (a.graft f)
  | .annot e A => .annot (e.graft f) (A.graft f)
  | .arith op l r => .arith op (l.graft f) (r.graft f)
  | .nil A => .nil (A.graft f)
  | .list e es => .list (e.graft f) (graftAll f es)

/-- The terms of a list with other terms at the occurrences of variables. -/
def graftAll (f : Scope → Var → Term) : List Term → List Term
  | [] => []
  | e :: es => e.graft f :: graftAll f es

end

/-- Grafting in a list of terms is grafting in each of them. -/
@[simp] theorem graftAll_eq_map (f : Scope → Var → Term) (es : List Term) :
    graftAll f es = es.map (graft f) := by
  induction es with
  | nil => rfl
  | cons e es ih => rw [graftAll, ih, List.map_cons]

variable {σ : Type} {T : Traversal σ}

/-- A traversal that succeeds on a term succeeds at each leaf of it. -/
theorem exists_visit_of_traverse {s : σ} {t t' ℓ : Term} {pre : Scope}
    (h : traverse T s t = .ok t') (hmem : (pre, ℓ) ∈ t.leaves) : ∃ u, T.visit s pre ℓ = .ok u := by
  induction t generalizing s t' pre with
  | const c =>
    obtain ⟨rfl, rfl⟩ := Prod.mk.inj (List.mem_singleton.mp hmem)
    exact ⟨_, h⟩
  | var v =>
    obtain ⟨rfl, rfl⟩ := Prod.mk.inj (List.mem_singleton.mp hmem)
    exact ⟨_, h⟩
  | binder k x A b ihA ihb =>
    simp only [traverse_binder, bind_eq_ok_iff, pure_eq_ok_iff] at h
    obtain ⟨A', hA, s', hs', b', hb, rfl⟩ := h
    rcases mem_leaves_binder hmem with hparam | ⟨inner, rfl, hbody⟩
    · exact ihA hA hparam
    · rw [Traversal.visit_concat, hs']
      exact ihb hb hbody
  | app f a ihf iha =>
    simp only [traverse_app, bind_eq_ok_iff, pure_eq_ok_iff] at h
    obtain ⟨f', hf, a', ha, rfl⟩ := h
    exact (List.mem_append.mp hmem).elim (ihf hf) (iha ha)
  | annot e A ihe ihA =>
    simp only [traverse_annot, bind_eq_ok_iff, pure_eq_ok_iff] at h
    obtain ⟨e', he, A', hA, rfl⟩ := h
    exact (List.mem_append.mp hmem).elim (ihe he) (ihA hA)
  | arith op l r ihl ihr =>
    simp only [traverse_arith, bind_eq_ok_iff, pure_eq_ok_iff] at h
    obtain ⟨l', hl, r', hr, rfl⟩ := h
    exact (List.mem_append.mp hmem).elim (ihl hl) (ihr hr)
  | nil A ihA =>
    simp only [traverse_nil, bind_eq_ok_iff, pure_eq_ok_iff] at h
    obtain ⟨A', hA, rfl⟩ := h
    exact ihA hA hmem
  | list e es ihe ihes =>
    simp only [traverse_list, bind_eq_ok_iff, pure_eq_ok_iff] at h
    obtain ⟨e', he, es', hes, rfl⟩ := h
    rcases mem_leaves_list.mp hmem with hmem | ⟨w, hw, hmem⟩
    · exact ihe he hmem
    · rw [traverseAll_eq_mapM] at hes
      obtain ⟨w', hw'⟩ := exists_ok_of_mapM hes hw
      exact ihes w hw hw' hmem

/-- What a traversal makes of a term is the term with what it makes of each occurrence. -/
theorem graft_of_traverse {s : σ} {t t' : Term} {f : Scope → Var → Term}
    (h : traverse T s t = .ok t')
    (hf : ∀ pre v u, T.visit s pre (.var v) = .ok u → f pre v = u) : t' = t.graft f := by
  induction t generalizing s t' f with
  | const c =>
    cases h
    rfl
  | var v => exact (hf [] v t' h).symm
  | binder k x A b ihA ihb =>
    simp only [traverse_binder, bind_eq_ok_iff, pure_eq_ok_iff] at h
    obtain ⟨A', hA, s', hs', b', hb, rfl⟩ := h
    have hbody : b' = b.graft fun pre => f (pre ++ [x]) := by
      refine ihb hb fun pre v u hu => hf (pre ++ [x]) v u ?_
      rw [Traversal.visit_concat, hs']
      exact hu
    rw [graft, ← ihA hA hf, ← hbody]
  | app g a ihg iha =>
    simp only [traverse_app, bind_eq_ok_iff, pure_eq_ok_iff] at h
    obtain ⟨g', hg, a', ha, rfl⟩ := h
    rw [graft, ← ihg hg hf, ← iha ha hf]
  | annot e A ihe ihA =>
    simp only [traverse_annot, bind_eq_ok_iff, pure_eq_ok_iff] at h
    obtain ⟨e', he, A', hA, rfl⟩ := h
    rw [graft, ← ihe he hf, ← ihA hA hf]
  | arith op l r ihl ihr =>
    simp only [traverse_arith, bind_eq_ok_iff, pure_eq_ok_iff] at h
    obtain ⟨l', hl, r', hr, rfl⟩ := h
    rw [graft, ← ihl hl hf, ← ihr hr hf]
  | nil A ihA =>
    simp only [traverse_nil, bind_eq_ok_iff, pure_eq_ok_iff] at h
    obtain ⟨A', hA, rfl⟩ := h
    rw [graft, ← ihA hA hf]
  | list e es ihe ihes =>
    simp only [traverse_list, bind_eq_ok_iff, pure_eq_ok_iff] at h
    obtain ⟨e', he, es', hes, rfl⟩ := h
    rw [traverseAll_eq_mapM] at hes
    have hmap : es.map (graft f) = es'.map id := by
      rw [map_eq_map_iff_forall₂]
      exact forall₂_of_mapM hes fun w hw w' hw' => (ihes w hw hw' hf).symm
    rw [graft, graftAll_eq_map, hmap, List.map_id, ← ihe he hf]

open Nameless

/-- If what is put at each occurrence stands for what `φ` puts there, grafting is substitution for
the free variables. -/
theorem resolve_graft {f : Scope → Var → Term} {φ : Label → Nat → Nameless} {t : Term} {Γ : Scope}
    (h : ∀ pre v, (pre, .var v) ∈ t.leaves → (f pre v).resolve (pre ++ Γ) =
      (Scope.locate (pre ++ Γ) v.name v.index).substituteFree fun x i => (φ x i).sunk pre.length) :
    (t.graft f).resolve Γ = (t.resolve Γ).substituteFree φ := by
  induction t generalizing f φ Γ with
  | const c => rfl
  | var v => simpa using h [] v (List.mem_singleton_self _)
  | binder k x A b ihA ihb =>
    have hA := ihA fun pre v hmem => h pre v (List.mem_append_left _ hmem)
    have hb : (b.graft fun pre => f (pre ++ [x])).resolve (x :: Γ) =
        (b.resolve (x :: Γ)).substituteFree fun y i => (φ y i).weaken := by
      refine ihb fun pre v hmem => ?_
      have hbody := h (pre ++ [x]) v (mem_leaves_body hmem)
      simpa [sunk_weaken] using hbody
    rw [graft, resolve, hA, hb, resolve, substituteFree]
  | app g a ihg iha =>
    have hg := ihg fun pre v hmem => h pre v (List.mem_append_left _ hmem)
    have ha := iha fun pre v hmem => h pre v (List.mem_append_right _ hmem)
    rw [graft, resolve, hg, ha, resolve, substituteFree]
  | annot e A ihe ihA =>
    have he := ihe fun pre v hmem => h pre v (List.mem_append_left _ hmem)
    have hA := ihA fun pre v hmem => h pre v (List.mem_append_right _ hmem)
    rw [graft, resolve, he, hA, resolve, substituteFree]
  | arith op l r ihl ihr =>
    have hl := ihl fun pre v hmem => h pre v (List.mem_append_left _ hmem)
    have hr := ihr fun pre v hmem => h pre v (List.mem_append_right _ hmem)
    rw [graft, resolve, hl, hr, resolve, substituteFree]
  | nil A ihA => rw [graft, resolve, ihA h, resolve, substituteFree]
  | list e es ihe ihes =>
    have he := ihe fun pre v hmem => h pre v (List.mem_append_left _ hmem)
    have hes : (es.map (graft f)).map (resolve Γ) =
        (es.map (resolve Γ)).map (substituteFree φ) := by
      rw [List.map_map, List.map_map]
      refine List.map_congr_left fun e' he' => ?_
      exact ihes e' he' fun pre v hmem => h pre v (leaves_subset_list he' hmem)
    simp only [graft, graftAll_eq_map, resolve, resolveAll_eq_map, substituteFree,
      substituteFreeAll_eq_map, he, hes]

end Term

end Trisort
