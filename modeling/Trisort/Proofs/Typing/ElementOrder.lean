import Trisort.Proofs.Termination.Evaluation
import Trisort.Proofs.Typing.DepthLimit
import Trisort.Proofs.Typing.Regularity

/-!
# The order of the elements of a list

The rule for a list literal treats its first element differently from the others. The type of the
first one is asked for its own type, which has to be `Type`, and the types of the others are only
compared with it. Yet the order of the elements does not matter: by the judgement, all elements have
one type, up to conversion, and a type that is convertible with one in `Type` is in `Type`
(`Typing.list_perm`).

What is found for a list is the type of its first element as that was found, so another order may
give another type. If the list has more than one element, the two have been compared already on the
way to the first, and were found convertible (`exists_convertible_of_check_list`).
-/

namespace Trisort

open Log

/-- The inference was not given up: neither fuel nor levels ran out, and no index left its range. -/
def Inference.Decided {α : Type} (x : Inference α) : Prop :=
  (∀ h, x.result ≠ .error (.halted h)) ∧ ∀ limit, x.result ≠ .error (.rejected (.tooDeep limit))

/-- An inference that finds a type was not given up. -/
theorem Inference.Decided.of_ok {α : Type} {x : Inference α} {a : α} (h : x.result = .ok a) :
    Decided x := by
  constructor <;> simp [h]

namespace Nameless

variable {Γ : Assumptions} {e e' T : Nameless} {es es' : List Nameless}

/-- A list with its elements in another order has the same type, up to conversion. -/
theorem Typing.list_perm (h : SortedTyping Γ (.list e es) T) (hperm : (e :: es).Perm (e' :: es')) :
    ∃ T', SortedTyping Γ (.list e' es') T' ∧ Conv T T' := by
  obtain ⟨A, hA, he, hes, hconv⟩ := h.generated
  have hall : ∀ a ∈ e :: es, SortedTyping Γ a A := List.forall_mem_cons.mpr ⟨he, hes⟩
  obtain ⟨he', hes'⟩ := List.forall_mem_cons.mp fun a ha => hall a (hperm.mem_iff.mpr ha)
  exact ⟨_, .list hA he' hes', hconv.symm⟩

end Nameless

namespace Term

open Nameless

/-! ### Comparisons -/

/-- Two terms are found convertible if they have the same canonical form. -/
theorem convertible_true_iff {n : Nat} {t u : Term} :
    (t.convertible n u).result = .ok true ↔
      ∃ c, (t.canonical n).result = .ok c ∧ (u.canonical n).result = .ok c := by
  simp only [convertible, Logged.bind_result_eq_ok_iff, Logged.result_pure, Except.ok.injEq,
    same_iff]
  constructor
  · rintro ⟨c, ht, _, hu, rfl⟩
    exact ⟨c, ht, hu⟩
  · rintro ⟨c, ht, hu⟩
    exact ⟨c, ht, c, hu, rfl⟩

/-- A type that could be compared with another is found convertible with itself. -/
theorem convertible_self {n : Nat} {t u : Term} (h : (t.convertible n u).result = .ok true) :
    (t.convertible n t).result = .ok true := by
  obtain ⟨c, ht, -⟩ := convertible_true_iff.mp h
  exact convertible_true_iff.mpr ⟨c, ht, ht⟩

/-- The canonical form of a list type is the list type of the canonical form, with one more unit of
fuel. -/
theorem canonical_listOf {n : Nat} {A c : Term} (h : (A.canonical n).result = .ok c) :
    ((listOf A).canonical (n + 1)).result = .ok (listOf c) := by
  simp only [canonical, Logged.bind_result_eq_ok_iff, liftM_result_eq_ok_iff] at h ⊢
  obtain ⟨A', hA', hc⟩ := h
  cases n with
  | zero => cases hA'
  | succ n =>
    refine ⟨listOf A', ?_, ?_⟩
    · simp only [listOf, normalize, relay_eq, Logged.bind_result_eq_ok_iff]
      exact ⟨.const .listType, rfl, A', hA', rfl⟩
    · simp [listOf, anonymize_app, hc]

/-- Lists of elements of convertible types are of convertible types. -/
theorem convertible_listOf {n : Nat} {A B : Term} (h : (A.convertible n B).result = .ok true) :
    ((listOf A).convertible (n + 1) (listOf B)).result = .ok true := by
  obtain ⟨c, hA, hB⟩ := convertible_true_iff.mp h
  exact convertible_true_iff.mpr ⟨listOf c, canonical_listOf hA, canonical_listOf hB⟩

/-- The comparison of convertible terms that terminate ends. It finds them convertible, unless an
index overflows. -/
theorem exists_convertible_of_conv {Γ : Scope} {t u : Term} (ht : Terminating (t.resolve Γ))
    (hu : Terminating (u.resolve Γ)) (hconv : Conv (t.resolve Γ) (u.resolve Γ)) :
    ∃ n, (t.convertible n u).result = .ok true ∨
      ∃ e, (t.convertible n u).result = .error (.fault e) ∧ e.AtTop := by
  have hcanonical {s : Term} (hs : Terminating (s.resolve Γ)) :
      Logged.Converges .exhausted fun n => s.canonical n :=
    .bind (converges_normalize hs) fun _ _ _ => .of_ne (lift_index_ne_exhausted _)
  obtain ⟨x, hx, n, hn⟩ : Logged.Converges .exhausted fun n => t.convertible n u :=
    .bind (hcanonical ht) fun _ _ _ => .bind (hcanonical hu) fun _ _ _ => .pure _ _
  rw [← hn n (Nat.le_refl n)] at hx
  refine ⟨n, ?_⟩
  cases hresult : (t.convertible n u).result with
  | ok r => exact .inl (congrArg Except.ok ((convertible_iff hresult Γ).mpr hconv))
  | error e =>
    cases e with
    | fault e => exact .inr ⟨e, rfl, convertible_atTop n t u _ hresult⟩
    | exhausted => exact absurd hresult hx

/-! ### Inference within different bounds -/

variable {Γ : Context} {fuel fuel' maxDepth maxDepth' : Nat}

/-- A type that is found is found within larger bounds as well. -/
theorem infer_ok_of_le {limit limit' d d' : Nat} {t T : Term} (hfuel : fuel ≤ fuel') (hd : d ≤ d')
    (h : (infer limit fuel d Γ t).result = .ok T) :
    (infer limit' fuel' d' Γ t).result = .ok T := by
  have hmore : infer limit fuel' d Γ t = infer limit fuel d Γ t :=
    infer_approximates hfuel limit d Γ t (by simp [h])
  have hdeeper : infer limit' fuel' d' Γ t = infer limit fuel' d Γ t :=
    (infer_cutShort hd limit limit' fuel' Γ t).1 (by simp [hmore, h])
  rw [hdeeper, hmore, h]

/-- Inference finds at most one type, whatever the bounds. -/
theorem infer_unique {limit limit' d d' : Nat} {t T T' : Term}
    (h : (infer limit fuel d Γ t).result = .ok T)
    (h' : (infer limit' fuel' d' Γ t).result = .ok T') : T = T' := by
  have hT : (infer 0 (max fuel fuel') (max d d') Γ t).result = .ok T :=
    infer_ok_of_le (Nat.le_max_left _ _) (Nat.le_max_left _ _) h
  have hT' : (infer 0 (max fuel fuel') (max d d') Γ t).result = .ok T' :=
    infer_ok_of_le (Nat.le_max_right _ _) (Nat.le_max_right _ _) h'
  exact Except.ok.inj (hT.symm.trans hT')

/-! ### List literals -/

variable {e e' T T' : Term} {es es' : List Term}

/-- What the rule for a list literal has found: the type of the first element, and convertible types
of the others. -/
theorem types_of_check_list (h : ((list e es).check fuel maxDepth Γ).result = .ok T) :
    ∃ d A, T = listOf A ∧ (infer maxDepth fuel d Γ e).result = .ok A ∧
      ∀ a ∈ es, ∃ A', (infer maxDepth fuel d Γ a).result = .ok A' ∧
        (A.convertible fuel A').result = .ok true := by
  obtain ⟨d, hrule⟩ := rule_of_check h
  cases hrule with
  | list he _ _ hes => exact ⟨d, _, rfl, he, hes⟩

/-- The types found for a list of several elements in two orders are found convertible. -/
theorem exists_convertible_of_check_list (hperm : (e :: es).Perm (e' :: es')) (hes : es ≠ [])
    (h : ((list e es).check fuel maxDepth Γ).result = .ok T)
    (h' : ((list e' es').check fuel' maxDepth' Γ).result = .ok T') :
    ∃ n, (T.convertible n T').result = .ok true := by
  obtain ⟨d, A, rfl, hA, hothers⟩ := types_of_check_list h
  obtain ⟨d', A', rfl, hA', -⟩ := types_of_check_list h'
  refine ⟨fuel + 1, convertible_listOf ?_⟩
  -- The first element of the second list is the first or another one of the first list.
  rcases List.mem_cons.mp (hperm.mem_iff.mpr List.mem_cons_self) with rfl | hmem
  · obtain rfl := infer_unique hA hA'
    obtain ⟨a, ha⟩ := List.exists_mem_of_ne_nil es hes
    obtain ⟨B, -, hB⟩ := hothers a ha
    exact convertible_self hB
  · obtain ⟨B, hB, hconv⟩ := hothers e' hmem
    obtain rfl := infer_unique hB hA'
    exact hconv

/-- A list that is accepted is not rejected in another order, except for its depth. -/
theorem check_list_accepted_of_perm (hΓ : Γ.assumptions.WellFormed)
    (hperm : (e :: es).Perm (e' :: es')) (h : ((list e es).check fuel maxDepth Γ).result = .ok T)
    (hdecided : Inference.Decided ((list e' es').check fuel' maxDepth' Γ)) :
    ∃ T', ((list e' es').check fuel' maxDepth' Γ).result = .ok T' := by
  have hresolved : (e.resolve Γ.scope :: es.map (resolve Γ.scope)).Perm
      (e'.resolve Γ.scope :: es'.map (resolve Γ.scope)) := hperm.map (resolve Γ.scope)
  have htyped := check_sound hΓ h
  rw [Sorted, resolve, resolveAll_eq_map] at htyped
  obtain ⟨S, hS, -⟩ := htyped.list_perm hresolved
  rw [← resolveAll_eq_map] at hS
  cases hresult : ((list e' es').check fuel' maxDepth' Γ).result with
  | ok T' => exact ⟨T', rfl⟩
  | error f =>
    cases f with
    | rejected err =>
      obtain rfl := check_complete hΓ (t := list e' es') hS err hresult
      exact absurd hresult (hdecided.2 _)
    | halted hh => exact absurd hresult (hdecided.1 hh)

/-- **The order of the elements of a list does not matter.** In an accepted context, let a list
literal be checked in two orders, and suppose that neither check is given up. Then the one is
accepted exactly if the other is. If they are, the types that were found are convertible, and
comparing them finds this out: with some amount of fuel the answer is `true`, except that for a list
of one element, where the two types are the same term, an index may overflow in the comparison. -/
theorem check_list_order_irrelevant (hΓ : Γ.Accepted) (hperm : (e :: es).Perm (e' :: es'))
    (hdecided : Inference.Decided ((list e es).check fuel maxDepth Γ))
    (hdecided' : Inference.Decided ((list e' es').check fuel' maxDepth' Γ)) :
    ((∃ T, ((list e es).check fuel maxDepth Γ).result = .ok T) ↔
      ∃ T', ((list e' es').check fuel' maxDepth' Γ).result = .ok T') ∧
    ∀ T T', ((list e es).check fuel maxDepth Γ).result = .ok T →
      ((list e' es').check fuel' maxDepth' Γ).result = .ok T' →
        Conv (T.resolve Γ.scope) (T'.resolve Γ.scope) ∧
        ∃ n, (T.convertible n T').result = .ok true ∨
          es = [] ∧ T = T' ∧ ∃ f, (T.convertible n T').result = .error (.fault f) ∧ f.AtTop := by
  have hwf := hΓ.wellFormed
  refine ⟨⟨?_, ?_⟩, fun T T' h h' => ?_⟩
  · rintro ⟨T, h⟩
    exact check_list_accepted_of_perm hwf hperm h hdecided'
  · rintro ⟨T', h'⟩
    exact check_list_accepted_of_perm hwf hperm.symm h' hdecided
  · by_cases hes : es = []
    · subst hes
      obtain ⟨rfl, rfl⟩ := List.cons.inj (List.perm_singleton.mp hperm.symm)
      rw [check_result] at h h'
      obtain rfl := infer_unique h h'
      refine ⟨.refl _, ?_⟩
      -- The type has a type itself, so it terminates.
      obtain ⟨ρ, σ, hρ⟩ := hΓ.models
      have hterm : Terminating (T.resolve Γ.scope) := by
        rcases (infer_sound _ _ _ Γ _ T hwf h).regular hwf with hsort | ⟨u, hT⟩
        · rw [hsort]
          exact .const _
        · exact hT.terminating hρ
      obtain ⟨n, htrue | hfault⟩ := exists_convertible_of_conv hterm hterm (.refl _)
      · exact ⟨n, .inl htrue⟩
      · exact ⟨n, .inr ⟨rfl, rfl, hfault⟩⟩
    · obtain ⟨n, hn⟩ := exists_convertible_of_check_list hperm hes h h'
      exact ⟨(convertible_iff hn Γ.scope).mp rfl, n, .inl hn⟩

/-- Two empty lists in either order, where the first alone decides how the type of the elements is
written. -/
theorem check_list_order_irrelevant_unreduced :
    ((list (.nil unreduced) [.nil (.const .naturalType)]).check 16 16 []).result =
        .ok (listOf (listOf unreduced)) ∧
      ((list (.nil (.const .naturalType)) [.nil unreduced]).check 16 16 []).result =
        .ok (listOf (listOf (.const .naturalType))) ∧
      Conv ((listOf (listOf unreduced)).resolve [])
        ((listOf (listOf (.const .naturalType))).resolve []) ∧
      ∃ n, ((listOf (listOf unreduced)).convertible n
        (listOf (listOf (.const .naturalType)))).result = .ok true := by
  have h : ((list (.nil unreduced) [.nil (.const .naturalType)]).check 16 16 []).result =
      .ok (listOf (listOf unreduced)) := by decide +kernel
  have h' : ((list (.nil (.const .naturalType)) [.nil unreduced]).check 16 16 []).result =
      .ok (listOf (listOf (.const .naturalType))) := by decide +kernel
  obtain ⟨-, htypes⟩ := check_list_order_irrelevant .empty (.swap _ _ []) (.of_ok h) (.of_ok h')
  obtain ⟨hconv, n, htrue | ⟨hsingle, -⟩⟩ := htypes _ _ h h'
  · exact ⟨h, h', hconv, n, htrue⟩
  · cases hsingle

end Term

end Trisort
