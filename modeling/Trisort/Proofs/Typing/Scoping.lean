import Trisort.Proofs.Leaves
import Trisort.Proofs.Faults
import Trisort.Proofs.Typing.Rules

/-!
# Scopes

Inference keeps to the variables in scope. In terms of nameless terms, no variable is `free`: every
one refers to a binder, of the term or of the context. This property, `Nameless.Anchored`, passes
through substitution and reduction, and for a term with labels it means that each of its free
variables can be looked up (`Context.binds_iff`).

Two facts follow for the rules, and from them by induction on the depth for inference. A term that
is given a type is anchored, and so is its type (`infer_scoped`). And an anchored term is not
rejected for an unknown variable (`infer_neverUnbound`). The second needs the first, as the rules
also infer the types of types that they have found.
-/

namespace Trisort

open Log

/-! ### Terms without free variables -/

namespace Nameless

mutual

/-- No variable of the term is free: each refers to a binder, of the term or around it. -/
@[simp] def Anchored : Nameless → Prop
  | .const _ | .bound _ => True
  | .free _ _ => False
  | .binder _ A b => A.Anchored ∧ b.Anchored
  | .app f a => f.Anchored ∧ a.Anchored
  | .annot e A => e.Anchored ∧ A.Anchored
  | .arith _ l r => l.Anchored ∧ r.Anchored
  | .nil A => A.Anchored
  | .list e es => e.Anchored ∧ AnchoredAll es

/-- No variable of a term of the list is free. -/
def AnchoredAll : List Nameless → Prop
  | [] => True
  | e :: es => e.Anchored ∧ AnchoredAll es

end

/-- A list is anchored if its members are. -/
@[simp] theorem anchoredAll_iff (es : List Nameless) : AnchoredAll es ↔ ∀ e ∈ es, e.Anchored := by
  induction es with
  | nil => simp [AnchoredAll]
  | cons e es ih => rw [AnchoredAll, ih, List.forall_mem_cons]

/-- Renaming does not make variables free, nor bind any. -/
@[simp] theorem anchored_rename (ξ : Nat → Nat) (t : Nameless) :
    (t.rename ξ).Anchored ↔ t.Anchored := by
  induction t generalizing ξ with
  | const c => simp
  | bound k => simp
  | free x i => simp
  | binder k A b ihA ihb => simp [ihA, ihb]
  | app f a ihf iha => simp [ihf, iha]
  | annot e A ihe ihA => simp [ihe, ihA]
  | arith op l r ihl ihr => simp [ihl, ihr]
  | nil A ihA => simp [ihA]
  | list e es ihe ihes =>
    have hes : (∀ e' ∈ es, (e'.rename ξ).Anchored) ↔ ∀ e' ∈ es, e'.Anchored :=
      forall₂_congr fun e' he' => ihes e' he' ξ
    simp [ihe, hes]

/-- Anchored terms put for variables are so under a binder. -/
theorem Anchored.lift {σ : Nat → Nameless} (h : ∀ k, (σ k).Anchored) (k : Nat) :
    (lift σ k).Anchored := by
  cases k with
  | zero => trivial
  | succ k => exact (anchored_rename _ _).mpr (h k)

/-- An anchored term stays so if anchored terms are put for its variables. -/
theorem Anchored.substitute {t : Nameless} (h : t.Anchored) {σ : Nat → Nameless}
    (hσ : ∀ k, (σ k).Anchored) : (t.substitute σ).Anchored := by
  induction t generalizing σ with
  | const c => trivial
  | bound k => exact hσ k
  | free x i => exact h.elim
  | binder k A b ihA ihb => exact ⟨ihA h.1 hσ, ihb h.2 (lift hσ)⟩
  | app f a ihf iha => exact ⟨ihf h.1 hσ, iha h.2 hσ⟩
  | annot e A ihe ihA => exact ⟨ihe h.1 hσ, ihA h.2 hσ⟩
  | arith op l r ihl ihr => exact ⟨ihl h.1 hσ, ihr h.2 hσ⟩
  | nil A ihA => exact ihA h hσ
  | list e es ihe ihes =>
    simp only [Anchored, anchoredAll_iff, Nameless.substitute, substituteAll_eq_map,
      List.forall_mem_map] at h ⊢
    exact ⟨ihe h.1 hσ, fun e' he' => ihes e' he' (h.2 e' he') hσ⟩

/-- An anchored body filled with an anchored argument is anchored. -/
theorem Anchored.instantiate {b a : Nameless} (hb : b.Anchored) (ha : a.Anchored) :
    (b.instantiate a).Anchored := by
  refine hb.substitute fun k => ?_
  cases k with
  | zero => exact ha
  | succ k => trivial

/-- A step does not bring in free variables. -/
theorem Anchored.step {t u : Nameless} (ht : t.Anchored) (h : Step t u) : u.Anchored := by
  induction h with
  | beta A b a => exact ht.1.2.instantiate ht.2
  | erase e A => exact ht.1
  | compute => trivial
  | binderType k b _ ih => exact ⟨ih ht.1, ht.2⟩
  | binderBody k A _ ih => exact ⟨ht.1, ih ht.2⟩
  | appFunction a _ ih => exact ⟨ih ht.1, ht.2⟩
  | appArgument f _ ih => exact ⟨ht.1, ih ht.2⟩
  | annotTerm A _ ih => exact ⟨ih ht.1, ht.2⟩
  | annotType e _ ih => exact ⟨ht.1, ih ht.2⟩
  | arithLeft op r _ ih => exact ⟨ih ht.1, ht.2⟩
  | arithRight op l _ ih => exact ⟨ht.1, ih ht.2⟩
  | nilType _ ih => exact ih ht
  | listHead es _ ih => exact ⟨ih ht.1, ht.2⟩
  | listTail e before after _ ih =>
    simp only [Anchored, anchoredAll_iff, List.forall_mem_append, List.forall_mem_cons] at ht ⊢
    obtain ⟨he, hbefore, hf, hafter⟩ := ht
    exact ⟨he, hbefore, ih hf, hafter⟩

/-- An anchored term stays so under reduction. -/
theorem Anchored.reduces {t u : Nameless} (ht : t.Anchored) (h : Reduces t u) : u.Anchored := by
  induction h with
  | refl => exact ht
  | tail _ hstep ih => exact ih.step hstep

/-- The type of a constant has no free variables. -/
theorem ConstantType.anchored {c : Constant} {T : Nameless} (h : ConstantType c T) :
    T.Anchored := by
  cases h <;> simp

end Nameless

/-! ### Variables in scope -/

namespace Scope

/-- An occurrence is free if the scope does not have so many binders of its name. -/
theorem anchored_locate_iff {Γ : Scope} {x : Label} {i : Nat} :
    (Γ.locate x i).Anchored ↔ i < Γ.count x := by
  induction Γ generalizing i with
  | nil => simp [locate]
  | cons y Γ ih =>
    by_cases hy : y = x
    · subst hy
      rw [List.count_cons_self]
      cases i with
      | zero => simp [locate]
      | succ i => simp [locate, ih]
    · rw [List.count_cons_of_ne hy]
      simp [locate, hy, ih]

end Scope

namespace Term

/-- Every variable of the term refers to a binder of the term or of the scope. -/
theorem anchored_resolve_iff_leaves {Γ : Scope} {t : Term} :
    (t.resolve Γ).Anchored ↔
      ∀ pre v, (pre, .var v) ∈ t.leaves → v.index < (pre ++ Γ).count v.name := by
  induction t generalizing Γ with
  | const c => simp
  | var v => simp [Scope.anchored_locate_iff]
  | binder k x A b ihA ihb =>
    simp only [resolve, Nameless.Anchored, ihA, ihb]
    constructor
    · rintro ⟨hA, hb⟩ pre v hmem
      rcases mem_leaves_binder hmem with hmemA | ⟨inner, rfl, hmemb⟩
      · exact hA pre v hmemA
      · rw [List.append_assoc]
        exact hb inner v hmemb
    · intro h
      refine ⟨fun pre v hmem => h pre v (List.mem_append_left _ hmem), fun pre v hmem => ?_⟩
      have hv := h (pre ++ [x]) v (mem_leaves_body hmem)
      rwa [List.append_assoc] at hv
  | app f a ihf iha => simp [ihf, iha, or_imp, forall_and]
  | annot e A ihe ihA => simp [ihe, ihA, or_imp, forall_and]
  | arith op l r ihl ihr => simp [ihl, ihr, or_imp, forall_and]
  | nil A ihA => simp [ihA]
  | list e es ihe ihes =>
    have hes : (∀ e' ∈ es, (e'.resolve Γ).Anchored) ↔
        ∀ e' ∈ es, ∀ pre v, (pre, .var v) ∈ e'.leaves → v.index < (pre ++ Γ).count v.name :=
      forall₂_congr fun e' he' => ihes e' he'
    simp only [resolve, resolveAll_eq_map, Nameless.Anchored, Nameless.anchoredAll_iff,
      List.forall_mem_map, ihe, hes, mem_leaves_list]
    constructor
    · rintro ⟨he, hes⟩ pre v (hmem | ⟨e', he', hmem⟩)
      · exact he pre v hmem
      · exact hes e' he' pre v hmem
    · exact fun h => ⟨fun pre v hmem => h pre v (.inl hmem),
        fun e' he' pre v hmem => h pre v (.inr ⟨e', he', hmem⟩)⟩

/-- The nameless form is anchored if each free variable finds enough binders of its label. -/
theorem anchored_resolve_iff {Γ : Scope} {t : Term} :
    (t.resolve Γ).Anchored ↔ ∀ x i, (x, i) ∈ t.freeVars → i < Γ.count x := by
  rw [anchored_resolve_iff_leaves]
  constructor
  · intro h x i hfree
    obtain ⟨pre, v, hmem, rfl, hindex⟩ := mem_freeVars.mp hfree
    have hlt := h pre v hmem
    rw [List.count_append] at hlt
    omega
  · intro h pre v hmem
    rw [List.count_append]
    by_contra hlt
    have hfree : (v.name, v.index - pre.count v.name) ∈ t.freeVars :=
      mem_freeVars.mpr ⟨pre, v, hmem, rfl, by omega⟩
    have := h _ _ hfree
    omega

end Term

namespace Context

variable {Γ Γ' : Context} {x : Label} {A b t : Term}

/-- Every free variable of the term can be looked up in the context. -/
def Binds (Γ : Context) (t : Term) : Prop :=
  ∀ x i, (x, i) ∈ t.freeVars → (Γ.lookup x i).isSome

/-- The types of the context refer to nothing outside it. -/
def WellScoped (Γ : Context) : Prop := ∀ b ∈ Γ, Γ.Binds b.type

/-- A variable can be looked up if there are more entries of its label than its index says. -/
theorem lookup_isSome_iff {i : Nat} : (Γ.lookup x i).isSome ↔ i < Γ.scope.count x := by
  rw [← Scope.anchored_locate_iff]
  rcases Γ.lookup_locate x i with ⟨k, b, hk, -, hlookup⟩ | ⟨y, j, hfree, hlookup⟩
  · simp [hk, hlookup]
  · simp [hfree, hlookup]

/-- The free variables of a term can be looked up if its nameless form is anchored. -/
theorem binds_iff : Γ.Binds t ↔ (t.resolve Γ.scope).Anchored := by
  simp only [Binds, lookup_isSome_iff, Term.anchored_resolve_iff]

/-- A context refers to nothing outside it if its assumptions are anchored. -/
theorem wellScoped_iff : Γ.WellScoped ↔ ∀ A ∈ Γ.assumptions, A.Anchored := by
  simp only [WellScoped, binds_iff, assumptions, List.forall_mem_map]

/-- The empty context refers to nothing. -/
theorem wellScoped_nil : WellScoped [] := nofun

/-- The context stays well scoped under a binder whose type is stated in it. -/
theorem WellScoped.enter (hΓ : Γ.WellScoped) (hA : Γ.Binds A) (h : Γ.enter x A = .ok Γ') :
    Γ'.WellScoped := by
  rw [wellScoped_iff] at hΓ ⊢
  rw [binds_iff] at hA
  rw [assumptions_enter h]
  simpa [Nameless.Assumptions.enter, hA] using hΓ

/-- A binder is bound by a context if its type is, and its body under the binder. -/
theorem binds_binder {k : Binder} {A' : Term} (h : Γ.enter x A' = .ok Γ') :
    Γ.Binds (.binder k x A b) ↔ Γ.Binds A ∧ Γ'.Binds b := by
  simp [binds_iff, scope_enter h]

/-- The free variables of the type of a binder are free in the binder. -/
theorem Binds.type_of_binder {k : Binder} (h : Γ.Binds (.binder k x A b)) : Γ.Binds A := by
  rw [binds_iff] at h ⊢
  exact h.1

/-- A constant has no free variables. -/
@[simp] theorem binds_const (c : Constant) : Γ.Binds (.const c) := by
  simp [binds_iff]

/-- A variable is bound by a context if it can be looked up. -/
@[simp] theorem binds_var (v : Var) : Γ.Binds (.var v) ↔ (Γ.lookup v.name v.index).isSome := by
  rw [binds_iff, lookup_isSome_iff, Term.resolve, Scope.anchored_locate_iff]

/-- An application is bound by a context if its parts are. -/
@[simp] theorem binds_app {f a : Term} : Γ.Binds (.app f a) ↔ Γ.Binds f ∧ Γ.Binds a := by
  simp [binds_iff]

/-- An annotated term is bound by a context if its parts are. -/
@[simp] theorem binds_annot {e : Term} : Γ.Binds (.annot e A) ↔ Γ.Binds e ∧ Γ.Binds A := by
  simp [binds_iff]

/-- An operation is bound by a context if its operands are. -/
@[simp] theorem binds_arith {op : Operation} {l r : Term} :
    Γ.Binds (.arith op l r) ↔ Γ.Binds l ∧ Γ.Binds r := by
  simp [binds_iff]

/-- An empty list is bound by a context if its element type is. -/
@[simp] theorem binds_nil : Γ.Binds (.nil A) ↔ Γ.Binds A := by
  simp [binds_iff]

/-- A list literal is bound by a context if its elements are. -/
@[simp] theorem binds_list {e : Term} {es : List Term} :
    Γ.Binds (.list e es) ↔ Γ.Binds e ∧ ∀ e' ∈ es, Γ.Binds e' := by
  simp [binds_iff]

/-- A list type is bound by a context if its element type is. -/
@[simp] theorem binds_listOf : Γ.Binds (Term.listOf A) ↔ Γ.Binds A := by
  simp [Term.listOf]

/-- In the empty context only closed terms make sense. -/
theorem freeVars_eq_nil_of_binds (h : Binds [] t) : t.freeVars = [] := by
  refine List.eq_nil_iff_forall_not_mem.mpr fun ⟨x, i⟩ hfree => ?_
  exact absurd (h x i hfree) (by simp [lookup])

/-- Normalizing adds no free variables. -/
theorem Binds.normalize {fuel : Nat} {u : Term} (ht : Γ.Binds t)
    (h : (t.normalize fuel).result = .ok u) : Γ.Binds u := by
  rw [binds_iff] at ht ⊢
  exact ht.reduces (Term.normalize_sound h Γ.scope).1

/-- A function type applied to an argument does not bring in variables. -/
theorem Binds.instantiate {k : Binder} {a T : Term} (hB : Γ.Binds (.binder k x A b))
    (ha : Γ.Binds a) (h : b.instantiate x a = .ok T) : Γ.Binds T := by
  rw [binds_iff] at hB ha ⊢
  rw [Term.resolve_instantiate h]
  exact hB.2.instantiate ha

end Context

/-- The inference was not given up for an unknown variable. -/
def Failure.NotUnbound : Failure → Prop
  | .rejected (.unbound _) => False
  | _ => True

namespace Term

open Context

variable {fuel : Nat} {Γ : Context} {typeOf : Context → Term → Inference Term}

/-! ### Terms that are given a type -/

/-- What the inference accepts refers to variables in scope only, and so does the type it finds. -/
def IsScoped (typeOf : Context → Term → Inference Term) : Prop :=
  ∀ Γ t T, Γ.WellScoped → (typeOf Γ t).result = .ok T → Γ.Binds t ∧ Γ.Binds T

/-- A rule accepts only terms that refer to variables in scope, if the inference that it calls does
so. -/
theorem Rule.scoped (hscoped : IsScoped typeOf) {t T : Term} (hΓ : Γ.WellScoped)
    (h : Rule fuel typeOf Γ t T) : Γ.Binds t ∧ Γ.Binds T := by
  cases h with
  | @const c T h => exact ⟨binds_const c, binds_iff.mpr (infer_const_sound h Γ.scope).anchored⟩
  | var hlookup =>
    refine ⟨by simp [hlookup], ?_⟩
    rw [lookup_eq] at hlookup
    obtain ⟨b, hb, rfl⟩ := List.mem_map.mp (List.mem_of_getElem? hlookup)
    exact hΓ b (List.mem_of_mem_filter hb)
  | lam hK hA' hΓ' hB _ =>
    have hA := (hscoped _ _ _ hΓ hK).1
    have hnormal := hA.normalize hA'
    obtain ⟨hb, hB⟩ := hscoped _ _ _ (hΓ.enter hnormal hΓ') hB
    exact ⟨(binds_binder hΓ').mpr ⟨hA, hb⟩, (binds_binder hΓ').mpr ⟨hnormal, hB⟩⟩
  | pi hK _ hA' hΓ' hK' _ _ =>
    have hA := (hscoped _ _ _ hΓ hK).1
    have hB := (hscoped _ _ _ (hΓ.enter (hA.normalize hA') hΓ') hK').1
    exact ⟨(binds_binder hΓ').mpr ⟨hA, hB⟩, binds_const _⟩
  | app hF₀ hF hA' _ hT =>
    obtain ⟨hf, hF₀⟩ := hscoped _ _ _ hΓ hF₀
    have ha := (hscoped _ _ _ hΓ hA').1
    exact ⟨binds_app.mpr ⟨hf, ha⟩, (hF₀.normalize hF).instantiate ha hT⟩
  | annot hK hA' _ =>
    have hA := (hscoped _ _ _ hΓ hK).1
    have he := (hscoped _ _ _ hΓ hA').1
    exact ⟨binds_annot.mpr ⟨he, hA⟩, hA⟩
  | arith op hL _ hR _ =>
    have hl := (hscoped _ _ _ hΓ hL).1
    have hr := (hscoped _ _ _ hΓ hR).1
    exact ⟨binds_arith.mpr ⟨hl, hr⟩, binds_const _⟩
  | nil hK _ =>
    have hA := (hscoped _ _ _ hΓ hK).1
    exact ⟨binds_nil.mpr hA, binds_listOf.mpr hA⟩
  | list hA _ _ hes =>
    obtain ⟨he, hA⟩ := hscoped _ _ _ hΓ hA
    refine ⟨binds_list.mpr ⟨he, fun e' he' => ?_⟩, binds_listOf.mpr hA⟩
    obtain ⟨A', hA', -⟩ := hes e' he'
    exact (hscoped _ _ _ hΓ hA').1

/-- An accepted term and the type found for it refer to variables in scope only. -/
theorem infer_scoped (limit fuel depth : Nat) : IsScoped (infer limit fuel depth) := by
  intro Γ t T hΓ h
  refine infer_induction (motive := fun _ Γ t T => Γ.WellScoped → Γ.Binds t ∧ Γ.Binds T) ?_ h hΓ
  intro depth Γ t T ih hrule hΓ
  exact hrule.scoped (fun Γ t T hΓ h => ih h hΓ) hΓ

/-! ### Unknown variables -/

/-- The inference does not meet an unknown variable in a term that refers to variables in scope
only. -/
def NeverUnbound (typeOf : Context → Term → Inference Term) : Prop :=
  ∀ Γ t, Γ.WellScoped → Γ.Binds t → FailsOnly Failure.NotUnbound (typeOf Γ t).result

/-- What a rule finds wrong with types is never an unknown variable. -/
theorem ruleFailures_notUnbound (fuel : Nat) : RuleFailures fuel Failure.NotUnbound := by
  refine .of_halted (fun _ => trivial) fun e he => ?_
  cases e with
  | unbound v => exact he.elim
  | _ => trivial

/-- Under a binder that a rule enters, the context is well scoped again. -/
theorem wellScoped_enter_normalize {Γ' : Context} {x : Label} {A A' : Term} (hΓ : Γ.WellScoped)
    (hA : Γ.Binds A) (hA' : (liftM (A.normalize fuel) : Inference Term).result = .ok A')
    (hΓ' : (liftM (Γ.enter x A') : Inference Context).result = .ok Γ') :
    Γ.enter x A' = .ok Γ' ∧ Γ.Binds A' ∧ Γ'.WellScoped := by
  rw [result_lift_evaluation, mapError_eq_ok_iff] at hA'
  rw [result_lift_index, mapError_eq_ok_iff] at hΓ'
  exact ⟨hΓ', hA.normalize hA', hΓ.enter (hA.normalize hA') hΓ'⟩

/-- A rule meets no unknown variable in a term that refers to variables in scope only. -/
theorem applyRule_neverUnbound (hscoped : IsScoped typeOf) (hbound : NeverUnbound typeOf) :
    NeverUnbound (applyRule fuel typeOf) := by
  have hrule := ruleFailures_notUnbound fuel
  intro Γ t hΓ ht
  cases t with
  | const c => exact hrule.infer_const c
  | var v =>
    obtain ⟨A, hA⟩ := Option.isSome_iff_exists.mp ((binds_var v).mp ht)
    simp only [applyRule, hA]
    exact .pure A
  | binder k x A b =>
    have hA := ht.type_of_binder
    cases k with
    | lambda =>
      refine .logged_bind (hbound Γ A hΓ hA) fun _ => ?_
      refine .logged_bind_of_ok (hrule.normalize A) fun A' hA' => ?_
      refine .logged_bind_of_ok (hrule.enter Γ x A') fun Γ' hΓ' => ?_
      obtain ⟨henter, hnormal, hwell⟩ := wellScoped_enter_normalize hΓ hA hA' hΓ'
      refine .logged_bind_of_ok (hbound Γ' b hwell ((binds_binder henter).mp ht).2) fun B hB => ?_
      -- The function type that was found is checked, and it too refers to variables in scope.
      have hpi : Γ.Binds (.pi x A' B) :=
        (binds_binder henter).mpr ⟨hnormal, (hscoped _ _ _ hwell hB).2⟩
      exact .logged_bind (hbound Γ _ hΓ hpi) fun _ => .pure _
    | pi =>
      refine .logged_bind (hbound Γ A hΓ hA) fun K => ?_
      refine .logged_bind (hrule.expectUniverse _ K) fun u => ?_
      refine .logged_bind_of_ok (hrule.normalize A) fun A' hA' => ?_
      refine .logged_bind_of_ok (hrule.enter Γ x A') fun Γ' hΓ' => ?_
      obtain ⟨henter, -, hwell⟩ := wellScoped_enter_normalize hΓ hA hA' hΓ'
      refine .logged_bind (hbound Γ' b hwell ((binds_binder henter).mp ht).2) fun K' => ?_
      exact .logged_bind (hrule.expectUniverse _ K') fun u' => hrule.function u u'
  | app f a =>
    obtain ⟨hf, ha⟩ := binds_app.mp ht
    refine .logged_bind (hbound Γ f hΓ hf) fun F => .logged_bind (hrule.normalize F) fun F' => ?_
    split
    case h_1 x A B =>
      refine .logged_bind (hbound Γ a hΓ ha) fun A' => ?_
      exact .logged_bind (hrule.expectConvertible _ _ id) fun _ => hrule.instantiate B x a
    case h_2 => exact .error trivial
  | annot e A =>
    obtain ⟨he, hA⟩ := binds_annot.mp ht
    refine .logged_bind (hbound Γ A hΓ hA) fun _ => .logged_bind (hbound Γ e hΓ he) fun A' => ?_
    exact .logged_bind (hrule.expectConvertible _ _ id) fun _ => .pure _
  | arith op l r =>
    obtain ⟨hl, hr⟩ := binds_arith.mp ht
    refine .logged_bind (hbound Γ l hΓ hl) fun L => .logged_bind (hrule.expectConstant _ _ L) ?_
    intro _
    refine .logged_bind (hbound Γ r hΓ hr) fun R => .logged_bind (hrule.expectConstant _ _ R) ?_
    exact fun _ => .pure _
  | nil A =>
    refine .logged_bind (hbound Γ A hΓ (binds_nil.mp ht)) fun K => ?_
    exact .logged_bind (hrule.expectConstant _ _ K) fun _ => .pure _
  | list e es =>
    obtain ⟨he, hes⟩ := binds_list.mp ht
    refine .logged_bind_of_ok (hbound Γ e hΓ he) fun A hA => ?_
    refine .logged_bind (hbound Γ A hΓ (hscoped _ _ _ hΓ hA).2) fun K => ?_
    refine .logged_bind (hrule.expectConstant _ _ K) fun _ => ?_
    refine .logged_bind (.forM fun e' he' => ?_) fun _ => .pure _
    refine .logged_bind (hbound Γ e' hΓ (hes e' he')) fun A' => ?_
    exact hrule.expectConvertible _ _ id

/-- Inference meets no unknown variable in a term that refers to variables in scope only. -/
theorem infer_neverUnbound (limit fuel depth : Nat) : NeverUnbound (infer limit fuel depth) := by
  induction depth with
  | zero => exact fun _ _ _ _ => .error trivial
  | succ depth ih =>
    intro Γ t hΓ ht
    simp only [infer, relay_eq]
    refine .logged_bind (.pure _) fun _ => ?_
    exact applyRule_neverUnbound (infer_scoped limit fuel depth) ih Γ t hΓ ht

/-- Entering accepted types one after another gives a well-scoped context. -/
theorem wellScoped_of_accepted (h : Γ.Accepted) : Γ.WellScoped := by
  induction h with
  | empty => exact wellScoped_nil
  | enter _ hA _ henter ih =>
    rw [check_result] at hA
    exact ih.enter (infer_scoped _ _ _ _ _ _ ih hA).1 henter

/-- **Scope soundness.** In a well-scoped context, the free variables of a term that is accepted and
those of its type are variables of the context; and a term whose free variables are variables of the
context is not rejected for an unknown one. In particular, a term that is accepted in the empty
context is closed and has a closed type. -/
theorem check_keeps_scope (fuel maxDepth : Nat) (t : Term) :
    (∀ Γ : Context, Γ.WellScoped →
      (∀ T, (t.check fuel maxDepth Γ).result = .ok T → Γ.Binds t ∧ Γ.Binds T) ∧
        (Γ.Binds t → ∀ v, (t.check fuel maxDepth Γ).result ≠ .error (.rejected (.unbound v)))) ∧
      ∀ T, (t.check fuel maxDepth []).result = .ok T → t.freeVars = [] ∧ T.freeVars = [] := by
  have hscoped := infer_scoped maxDepth fuel maxDepth
  simp only [check_result]
  refine ⟨fun Γ hΓ => ⟨fun T hT => hscoped Γ t T hΓ hT, fun ht v hv => ?_⟩, fun T hT => ?_⟩
  · exact infer_neverUnbound maxDepth fuel maxDepth Γ t hΓ ht _ hv
  · obtain ⟨ht, hT⟩ := hscoped [] t T wellScoped_nil hT
    exact ⟨freeVars_eq_nil_of_binds ht, freeVars_eq_nil_of_binds hT⟩

/-- Two terms in a context in which one label hides another, one of them rejected, and a closed
term. -/
theorem check_keeps_scope_shadowing :
    shadowing.WellScoped ∧
      ((shadowed.check 8 8 shadowing).result = .ok (.nearby "x" 1) ∧
        shadowing.Binds shadowed ∧ shadowing.Binds (.nearby "x" 1)) ∧
      (shadowing.Binds (.app (.nearby "x" 0) (.nearby "x" 1)) ∧
        ∀ v, ((app (.nearby "x" 0) (.nearby "x" 1)).check 8 8 shadowing).result ≠
          .error (.rejected (.unbound v))) ∧
      ((constant (.nearest "x")).check 8 8 []).result =
          .ok (.pi "x" (.const .naturalType) (.const .naturalType)) ∧
        (pi "x" (.const .naturalType) (.const .naturalType)).freeVars = [] := by
  have hΓ := wellScoped_of_accepted accepted_shadowing
  have hcheck : (shadowed.check 8 8 shadowing).result = .ok (.nearby "x" 1) := by decide +kernel
  have hclosed : ((constant (.nearest "x")).check 8 8 []).result =
      .ok (.pi "x" (.const .naturalType) (.const .naturalType)) := by decide +kernel
  have hbinds : shadowing.Binds (.app (.nearby "x" 0) (.nearby "x" 1)) := by
    rw [binds_app]
    exact ⟨(binds_var _).mpr (by decide +kernel), (binds_var _).mpr (by decide +kernel)⟩
  obtain ⟨haccepted, -⟩ := (check_keeps_scope 8 8 shadowed).1 shadowing hΓ
  obtain ⟨-, hbound⟩ := (check_keeps_scope 8 8 (.app (.nearby "x" 0) (.nearby "x" 1))).1 _ hΓ
  obtain ⟨-, hempty⟩ := check_keeps_scope 8 8 (constant (.nearest "x"))
  exact ⟨hΓ, ⟨hcheck, haccepted _ hcheck⟩, ⟨hbinds, hbound hbinds⟩, hclosed, (hempty _ hclosed).2⟩

end Term

end Trisort
