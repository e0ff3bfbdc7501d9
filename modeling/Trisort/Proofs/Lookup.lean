import Trisort.Proofs.Typing.Checking

/-!
# Contexts and variables count binders in the same way

The variable `x@i` is looked up as the `i`-th entry named `x`. Entering a binder puts one more entry
in front and shifts the types of all of them, and a variable that is carried under the binder counts
it. These three agree: the variable finds the entry that it found before, with its type shifted, and
the nearest variable with the label of the binder finds the new entry (`lookup_counts_binders`).

Replacing the types of a context by others does not disturb this, whether it goes through, fails or
records events: what is found afterwards is what has become of the type that was found before.
-/

namespace Trisort

open Log (Logged)

/-- The result of a loop that records events is that of the loop without the events. -/
theorem Log.Logged.result_foldlM {α β ω ε : Type} (g : β → α → Logged ω ε β) (as : List α) (b : β) :
    (as.foldlM g b).result = as.foldlM (fun b a => (g b a).result) b := by
  induction as generalizing b with
  | nil => rfl
  | cons a as ih => simp only [List.foldlM_cons, Logged.result_bind, ih]

namespace Context

variable {Γ Γ' : Context} {x : Label} {A : Term}

/-! ### One more entry -/

/-- A variable carried under a binder passes over the entry of that binder. -/
theorem lookup_insert_under {v w : Var} (h : v.under x = .ok w) :
    (Γ.insert x A).lookup w.name w.index = Γ.lookup v.name v.index := by
  obtain ⟨hname, hindex⟩ := Var.under_eq_ok_iff.mp h
  rw [hname, hindex]
  by_cases hx : v.name = x
  · simp [insert, lookup, hx]
  · simp [insert, lookup, hx, Ne.symm hx]

/-- The nearest variable with the label of a new entry finds that entry. -/
theorem lookup_insert_nearest : (Γ.insert x A).lookup x 0 = some A := by
  simp [insert, lookup]

/-! ### Other types -/

/-- If all types can be replaced, a variable finds what has become of the type it found before. -/
theorem lookup_mapTypesM {ε : Type} {f : Term → Except ε Term} (h : Γ.mapTypesM f = .ok Γ')
    (y : Label) (i : Nat) : (Γ.lookup y i).mapM f = .ok (Γ'.lookup y i) := by
  have hall := forall₂_of_mapTypesM h
  clear h
  induction hall generalizing i with
  | nil => rfl
  | @cons b b' Γ Γ' hb _ ih =>
    obtain ⟨hname, htype⟩ := hb
    by_cases hy : b.name = y
    · cases i with
      | zero => simp [lookup, hname, hy, htype]
      | succ i => simpa [lookup, hname, hy] using ih i
    · simpa [lookup, hname, hy] using ih i

/-- Replacing the types by a function always goes through. -/
theorem mapTypesM_ok {ε : Type} (f : Term → Term) (Γ : Context) :
    Γ.mapTypesM (fun A => (.ok (f A) : Except ε Term)) =
      .ok (Id.run (Γ.mapTypesM fun A => pure (f A))) := by
  induction Γ with
  | nil => rfl
  | cons b Γ ih =>
    simp only [mapTypesM, List.foldrM_cons] at ih ⊢
    rw [ih]
    rfl

/-- A variable finds the image of the type it found before. -/
theorem lookup_mapTypes (f : Term → Term) (Γ : Context) (y : Label) (i : Nat) :
    (Id.run (Γ.mapTypesM fun A => pure (f A))).lookup y i = (Γ.lookup y i).map f := by
  have hmapM := lookup_mapTypesM (mapTypesM_ok (ε := Empty) f Γ) y i
  have hmap : (Γ.lookup y i).mapM (fun A => (.ok (f A) : Except Empty Term)) =
      .ok ((Γ.lookup y i).map f) := by
    cases Γ.lookup y i <;> rfl
  exact Except.ok.inj (hmapM.symm.trans hmap)

/-- The events that are recorded on the way have no influence on the types. -/
theorem result_mapTypesM {ω ε : Type} (f : Term → Logged ω ε Term) (Γ : Context) :
    (Γ.mapTypesM f).result = Γ.mapTypesM fun A => (f A).result := by
  unfold mapTypesM List.foldrM
  rw [Logged.result_foldlM]
  simp only [Logged.result_bind, Logged.result_pure]
  rfl

/-! ### Entering a binder -/

/-- A variable carried under the binder finds the type it found before, shifted over the label. -/
theorem lookup_enter_under (h : Γ.enter x A = .ok Γ') {v w : Var} (hw : v.under x = .ok w) :
    (Γ.lookup v.name v.index).mapM (·.shift 1 (.nearest x)) = .ok (Γ'.lookup w.name w.index) := by
  rw [← lookup_insert_under (A := A) hw]
  exact lookup_mapTypesM h w.name w.index

/-- The nearest variable with the label of the binder finds its type, shifted over the label. -/
theorem lookup_enter_nearest (h : Γ.enter x A = .ok Γ') :
    ∃ A', A.shift 1 (.nearest x) = .ok A' ∧ Γ'.lookup x 0 = some A' := by
  have hnew := lookup_mapTypesM h x 0
  rw [lookup_insert_nearest, Option.mapM_some] at hnew
  rcases hA : A.shift 1 (.nearest x) with e | A'
  · rw [hA] at hnew
    cases hnew
  · rw [hA] at hnew
    exact ⟨A', rfl, (Except.ok.inj hnew).symm⟩

/-- **Contexts and variables count alike.** Let a binder be entered into a context. A variable whose
index can still grow, carried under the binder, finds in the new context what it found in the old
one, shifted over the label; the nearest variable with that label finds the type of the binder, also
shifted. In any context, the variable `y@i` finds the `i`-th of the types of `y`, the innermost
first, and after the types of the context have been replaced by others, it finds what has become of
that one. -/
theorem lookup_counts_binders (Γ : Context) :
    (∀ (x : Label) (A : Term) (Γ' : Context), Γ.enter x A = .ok Γ' →
      (∀ v : Var, v.index + 1 < Var.indexBound → ∃ w, v.under x = .ok w ∧
        (Γ.lookup v.name v.index).mapM (·.shift 1 (.nearest x)) =
          .ok (Γ'.lookup w.name w.index)) ∧
      ∃ A', A.shift 1 (.nearest x) = .ok A' ∧ Γ'.lookup x 0 = some A') ∧
    ∀ (y : Label) (i : Nat), Γ.lookup y i = (Γ.typesOf y)[i]? ∧
      (∀ f : Term → Term,
        (Id.run (Γ.mapTypesM fun A => pure (f A))).lookup y i = (Γ.lookup y i).map f) ∧
      (∀ (ε : Type) (f : Term → Except ε Term) (Γ' : Context), Γ.mapTypesM f = .ok Γ' →
        (Γ.lookup y i).mapM f = .ok (Γ'.lookup y i)) ∧
      ∀ (ω ε : Type) (f : Term → Logged ω ε Term) (Γ' : Context),
        (Γ.mapTypesM f).result = .ok Γ' →
          (Γ.lookup y i).mapM (fun A => (f A).result) = .ok (Γ'.lookup y i) := by
  refine ⟨?_, fun y i => ⟨lookup_eq Γ y i, fun f => lookup_mapTypes f Γ y i, ?_, ?_⟩⟩
  · intro x A Γ' h
    refine ⟨fun v hv => ?_, lookup_enter_nearest h⟩
    rcases hw : v.under x with e | w
    · obtain ⟨-, -, htop⟩ := Var.under_eq_error_iff.mp hw
      omega
    · exact ⟨w, rfl, lookup_enter_under h hw⟩
  · intro ε f Γ' h
    exact lookup_mapTypesM h y i
  · intro ω ε f Γ' h
    rw [result_mapTypesM] at h
    exact lookup_mapTypesM h y i

/-- The variables `x : Type`, `y : x` and, inside them, `x : y`. -/
def alternating : Context :=
  [⟨"x", .nearby "y" 0⟩, ⟨"y", .nearby "x" 1⟩, ⟨"x", .univ .type⟩]

/-- The same with a third `x : x` inside. -/
def alternatingEntered : Context :=
  [⟨"x", .nearby "x" 1⟩, ⟨"x", .nearby "y" 0⟩, ⟨"y", .nearby "x" 2⟩, ⟨"x", .univ .type⟩]

/-- The label of the binder occurs twice before it is entered, with another label in between. -/
theorem lookup_counts_binders_alternating :
    alternating.enter "x" (.nearby "x" 0) = .ok alternatingEntered ∧
      (∃ w, (Var.nearest "x").under "x" = .ok w ∧
        (alternating.lookup "x" 0).mapM (·.shift 1 (.nearest "x")) =
          .ok (alternatingEntered.lookup w.name w.index)) ∧
      (∃ w, (Var.nearest "y").under "x" = .ok w ∧
        (alternating.lookup "y" 0).mapM (·.shift 1 (.nearest "x")) =
          .ok (alternatingEntered.lookup w.name w.index)) ∧
      (∃ A', (Term.nearby "x" 0).shift 1 (.nearest "x") = .ok A' ∧
        alternatingEntered.lookup "x" 0 = some A') ∧
      alternating.mapTypesM (·.shift 2 (.nearest "y")) =
        .ok [⟨"x", .nearby "y" 2⟩, ⟨"y", .nearby "x" 1⟩, ⟨"x", .univ .type⟩] ∧
      (alternating.lookup "x" 0).mapM (·.shift 2 (.nearest "y")) = .ok (some (.nearby "y" 2)) := by
  have henter : alternating.enter "x" (.nearby "x" 0) = .ok alternatingEntered := by
    decide +kernel
  have hmap : alternating.mapTypesM (·.shift 2 (.nearest "y")) =
      .ok [⟨"x", .nearby "y" 2⟩, ⟨"y", .nearby "x" 1⟩, ⟨"x", .univ .type⟩] := by decide +kernel
  obtain ⟨hunder, hnearest⟩ := (lookup_counts_binders alternating).1 _ _ _ henter
  obtain ⟨-, -, hmapped, -⟩ := (lookup_counts_binders alternating).2 "x" 0
  exact ⟨henter, hunder (.nearest "x") (by decide), hunder (.nearest "y") (by decide), hnearest,
    hmap, hmapped _ _ _ hmap⟩

end Context

end Trisort
