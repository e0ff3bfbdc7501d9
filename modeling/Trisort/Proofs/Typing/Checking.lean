import Trisort.Proofs.Typing.Preservation
import Trisort.Proofs.Typing.Rules

/-!
# Inference implements the typing judgement

A context with labels stands for assumptions about nameless variables: entering a binder is entering
one (`Context.assumptions_enter`), and looking up a variable finds the assumption about what the
variable refers to.

The rules are sound and complete. A type that is found can be derived (`infer_sound`). A term that
has a type is not rejected, unless for being nested too deeply (`infer_complete`); that the type
found is then convertible with the one derived is the uniqueness of types. Both are proved for one
rule, from the same property of the inference it calls, and then for the recursion by induction on
the depth: soundness for what the rule has asked for (`Rule.sound`), completeness along the steps of
`Term.applyRule`. `Term.check_decides_hasType` puts the two together for the contexts that the
checker itself accepts.
-/

namespace Trisort

open Log

/-! ### Contexts -/

namespace Context

/-- The labels of the variables in scope. -/
def scope (Γ : Context) : Scope := Γ.map (·.name)

/-- What a context says about nameless variables. -/
def assumptions (Γ : Context) : Nameless.Assumptions := Γ.map fun b => b.type.resolve Γ.scope

/-- The same with the labels that the marking keeps. -/
def forms (m : Marking) (Γ : Context) : Nameless.Assumptions :=
  Γ.map fun b => b.type.form m Γ.scope

/-- Without labels, the entries of a context are the assumptions. -/
theorem forms_plain (Γ : Context) : Γ.forms .plain = Γ.assumptions := by
  simp only [forms, assumptions, Term.form_plain]

/-- If the types of a context can all be changed, the labels stay and each type has been changed. -/
theorem forall₂_of_mapTypesM {ε : Type} {f : Term → Except ε Term} {Γ Γ' : Context}
    (h : Γ.mapTypesM f = .ok Γ') :
    List.Forall₂ (fun b b' => b'.name = b.name ∧ f b.type = .ok b'.type) Γ Γ' := by
  induction Γ generalizing Γ' with
  | nil =>
    obtain rfl := pure_eq_ok_iff.mp h
    exact .nil
  | cons b Γ ih =>
    simp only [mapTypesM, List.foldrM_cons, bind_eq_ok_iff, pure_eq_ok_iff] at h
    obtain ⟨Δ, hΔ, A, hA, rfl⟩ := h
    exact .cons ⟨rfl, hA⟩ (ih hΔ)

/-- Entering a binder adds its label to the scope. -/
theorem scope_enter {Γ Γ' : Context} {x : Label} {A : Term} (h : Γ.enter x A = .ok Γ') :
    Γ'.scope = x :: Γ.scope := by
  have hnames : Γ'.scope = (Γ.insert x A).scope := by
    rw [scope, scope, eq_comm, map_eq_map_iff_forall₂]
    exact (forall₂_of_mapTypesM h).imp fun _ _ h => h.1.symm
  exact hnames

/-- Entering a binder does to the entries of a context what it does to assumptions. -/
theorem forms_enter (m : Marking) {Γ Γ' : Context} {x : Label} {A : Term}
    (h : Γ.enter x A = .ok Γ') : Γ'.forms m = (Γ.forms m).enter (A.form m Γ.scope) := by
  have htypes : ((Γ.insert x A).map fun b => (b.type.form m Γ.scope).weaken) =
      Γ'.map fun b => b.type.form m Γ'.scope := by
    rw [map_eq_map_iff_forall₂, scope_enter h]
    exact (forall₂_of_mapTypesM h).imp fun _ _ h => (Term.form_shift_nearest m h.2).symm
  rw [forms, ← htypes]
  simp [insert, forms, Nameless.Assumptions.enter]

/-- Entering a binder adds its type to the assumptions. -/
theorem assumptions_enter {Γ Γ' : Context} {x : Label} {A : Term} (h : Γ.enter x A = .ok Γ') :
    Γ'.assumptions = Γ.assumptions.enter (A.resolve Γ.scope) := by
  simp only [← forms_plain, ← Term.form_plain]
  exact forms_enter .plain h

/-- Looking up a variable finds the entry that it refers to. -/
theorem lookup_locate (Γ : Context) (x : Label) (i : Nat) :
    (∃ k b, Γ.scope.locate x i = .bound k ∧ Γ[k]? = some b ∧ Γ.lookup x i = some b.type) ∨
      ∃ y j, Γ.scope.locate x i = .free y j ∧ Γ.lookup x i = none := by
  induction Γ generalizing i with
  | nil => exact .inr ⟨x, i, rfl, rfl⟩
  | cons b Γ ih =>
    have hweaken {t : Nameless} {r : Option Term}
        (h : (∃ k b, t = .bound k ∧ Γ[k]? = some b ∧ r = some b.type) ∨
          ∃ y j, t = .free y j ∧ r = none) :
        (∃ k b', t.weaken = .bound k ∧ (b :: Γ)[k]? = some b' ∧ r = some b'.type) ∨
          ∃ y j, t.weaken = .free y j ∧ r = none := by
      rcases h with ⟨k, b', rfl, hk, hr⟩ | ⟨y, j, rfl, hr⟩
      · exact .inl ⟨k + 1, b', rfl, hk, hr⟩
      · exact .inr ⟨y, j, rfl, hr⟩
    by_cases hname : b.name = x
    · cases i with
      | zero =>
        exact .inl ⟨0, b, by simp [scope, Scope.locate, hname], rfl, by simp [lookup, hname]⟩
      | succ i => simpa [scope, Scope.locate, lookup, hname] using hweaken (ih i)
    · simpa [scope, Scope.locate, lookup, hname] using hweaken (ih i)

end Context

namespace Term

open Nameless

variable {fuel : Nat} {Γ : Context}

/-! ### Soundness -/

/-- The term has the type in the context: the nameless forms are so related. -/
abbrev Sorted (Γ : Context) (t T : Term) : Prop :=
  SortedTyping Γ.assumptions (t.resolve Γ.scope) (T.resolve Γ.scope)

/-- A type whose own type normalizes to a universe belongs to it. -/
theorem sorted_univ {t K : Term} {u : Universe} (hΓ : Γ.assumptions.WellFormed)
    (h : Sorted Γ t K) (hK : (K.normalize fuel).result = .ok (.univ u)) :
    SortedTyping Γ.assumptions (t.resolve Γ.scope) (.univ u) :=
  h.to_univ hΓ (normalize_sound hK Γ.scope).1.conv

/-- Entering a binder whose type belongs to a universe keeps the assumptions well formed. -/
theorem wellFormed_enter {Γ' : Context} {x : Label} {A : Term} {u : Universe}
    (hΓ : Γ.assumptions.WellFormed) (hA : SortedTyping Γ.assumptions (A.resolve Γ.scope) (.univ u))
    (h : Γ.enter x A = .ok Γ') : Γ'.assumptions.WellFormed := by
  rw [Context.assumptions_enter h]
  exact hΓ.enter hA

/-- The type found for a constant is its type. -/
theorem infer_const_sound {c : Constant} {T : Term} (h : c.infer.result = .ok T) (Δ : Scope) :
    ConstantType c (T.resolve Δ) := by
  cases c with
  | univ u =>
    cases u with
    | type =>
      cases h
      exact .type
    | kind =>
      cases h
      exact .kind
    | sort => cases h
  | _ =>
    cases h
    constructor

/-- The inference finds only types that can be derived. -/
def IsSound (typeOf : Context → Term → Inference Term) : Prop :=
  ∀ Γ t T, Γ.assumptions.WellFormed → (typeOf Γ t).result = .ok T → Sorted Γ t T

variable {typeOf : Context → Term → Inference Term}

/-- A part whose type normalizes to a constant that is a type has that type. -/
theorem sorted_constant (hsound : IsSound typeOf) (hΓ : Γ.assumptions.WellFormed) {t K : Term}
    {c : Constant} {u : Universe} (hc : ConstantType c (.univ u))
    (hK : (typeOf Γ t).result = .ok K) (h : (K.normalize fuel).result = .ok (.const c)) :
    SortedTyping Γ.assumptions (t.resolve Γ.scope) (.const c) := by
  have hconv := (normalize_sound h Γ.scope).1.conv
  exact .conv (hsound _ _ _ hΓ hK) hconv (.const hc) (isUniverse_univ u)

namespace Rule

/-- A variable has the type of the entry that it refers to. -/
theorem var_sound {v : Var} {A : Term} (h : Γ.lookup v.name v.index = some A) :
    Sorted Γ (.var v) A := by
  rcases Γ.lookup_locate v.name v.index with ⟨k, b, hk, hb, hlookup⟩ | ⟨y, j, -, hlookup⟩
  · obtain rfl := Option.some.inj (h.symm.trans hlookup)
    rw [Sorted, resolve, hk]
    exact .var (by simp [Context.assumptions, hb])
  · rw [h] at hlookup
    cases hlookup

/-- A function has the function type from the normal form of its domain to the type of its body, if
this function type has been given a type. -/
theorem lam_sound (hsound : IsSound typeOf) (hΓ : Γ.assumptions.WellFormed) {x : Label}
    {A K A' b B W : Term} {Γ' : Context} (hK : (typeOf Γ A).result = .ok K)
    (hA' : (A.normalize fuel).result = .ok A') (hΓ' : Γ.enter x A' = .ok Γ')
    (hB : (typeOf Γ' b).result = .ok B) (hW : (typeOf Γ (.pi x A' B)).result = .ok W) :
    Sorted Γ (.lam x A b) (.pi x A' B) := by
  -- The function type was given a type, so its parts belong to universes.
  obtain ⟨u, v, w, hdom, hcod, hw, -⟩ := (hsound _ _ _ hΓ hW).generated
  have hred := (normalize_sound hA' Γ.scope).1
  have hbody := hsound _ _ _ (wellFormed_enter hΓ hdom hΓ') hB
  rw [Sorted, Context.scope_enter hΓ', Context.assumptions_enter hΓ'] at hbody
  -- The type as written has the same universe as its normal form.
  have hAK := hsound _ _ _ hΓ hK
  have hA : SortedTyping Γ.assumptions (A.resolve Γ.scope) (.univ u) :=
    hAK.to_univ hΓ ((hAK.reduces hΓ hred).unique hdom)
  have hconv : Conv (A'.resolve Γ.scope) (A.resolve Γ.scope) := hred.conv.symm
  have hpi := Typing.pi hA (hcod.exchange hdom hconv) hw
  refine .conv (.lam hpi (hbody.exchange hdom hconv)) ?_ (.pi hdom hcod hw) (isUniverse_univ w)
  exact .binder .pi hconv.symm (.refl _)

/-- A function type belongs to the universe that the universes of its parts determine. -/
theorem pi_sound (hsound : IsSound typeOf) (hΓ : Γ.assumptions.WellFormed) {x : Label}
    {A K A' B K' : Term} {Γ' : Context} {u v w : Universe} (hK : (typeOf Γ A).result = .ok K)
    (hu : (K.normalize fuel).result = .ok (.univ u)) (hA' : (A.normalize fuel).result = .ok A')
    (hΓ' : Γ.enter x A' = .ok Γ') (hK' : (typeOf Γ' B).result = .ok K')
    (hv : (K'.normalize fuel).result = .ok (.univ v)) (hw : u.function? v = some w) :
    Sorted Γ (.pi x A B) (.univ w) := by
  have hA := sorted_univ hΓ (hsound _ _ _ hΓ hK) hu
  have hred := (normalize_sound hA' Γ.scope).1
  have hdom := hA.reduces hΓ hred
  have hΓwf := wellFormed_enter hΓ hdom hΓ'
  have hcod := sorted_univ hΓwf (hsound _ _ _ hΓwf hK') hv
  rw [Context.scope_enter hΓ', Context.assumptions_enter hΓ'] at hcod
  exact .pi hA (hcod.exchange hdom hred.conv.symm) hw

/-- An application has the codomain of the function for its type, with the argument filled in. -/
theorem app_sound (hsound : IsSound typeOf) (hΓ : Γ.assumptions.WellFormed) {x : Label}
    {f a F A A' B T : Term} (hF : (typeOf Γ f).result = .ok F)
    (hpi : (F.normalize fuel).result = .ok (.pi x A B)) (hA' : (typeOf Γ a).result = .ok A')
    (hconvertible : (A.convertible fuel A').result = .ok true) (hT : B.instantiate x a = .ok T) :
    Sorted Γ (.app f a) T := by
  have hf := hsound _ _ _ hΓ hF
  have hred := (normalize_sound hpi Γ.scope).1
  -- The type of the function is not `Sort`, so its normal form is a type, too.
  obtain heq | ⟨w, hFw⟩ := hf.regular hΓ
  · rw [heq] at hred
    exact absurd hred.of_const (by simp)
  · have hpiw := hFw.reduces hΓ hred
    obtain ⟨u, v, w', hA, -, -, -⟩ := hpiw.generated
    have hconv := (convertible_iff hconvertible Γ.scope).mp rfl
    have ha := Typing.conv (hsound _ _ _ hΓ hA') hconv.symm hA (isUniverse_univ u)
    rw [Sorted, resolve_instantiate hT]
    exact .app (.conv hf hred.conv hpiw (isUniverse_univ w)) ha

/-- An annotated term has the type as it is written. -/
theorem annot_sound (hsound : IsSound typeOf) (hΓ : Γ.assumptions.WellFormed) {e A K A' : Term}
    (hK : (typeOf Γ A).result = .ok K) (hA' : (typeOf Γ e).result = .ok A')
    (hconvertible : (A.convertible fuel A').result = .ok true) : Sorted Γ (.annot e A) A := by
  have hconv := (convertible_iff hconvertible Γ.scope).mp rfl
  obtain ⟨he, u, hA⟩ :=
    (hsound _ _ _ hΓ hA').to_typed hΓ hconv.symm (hsound _ _ _ hΓ hK)
  exact .annot he hA (isUniverse_univ u)

/-- A list literal is a list of elements of the type of the first, if the others have convertible
types. -/
theorem list_sound (hsound : IsSound typeOf) (hΓ : Γ.assumptions.WellFormed) {e A K : Term}
    {es : List Term} (hA : (typeOf Γ e).result = .ok A) (hK : (typeOf Γ A).result = .ok K)
    (htype : (K.normalize fuel).result = .ok (.univ .type))
    (hes : ∀ e' ∈ es, ∃ A', (typeOf Γ e').result = .ok A' ∧
      (A.convertible fuel A').result = .ok true) : Sorted Γ (.list e es) (listOf A) := by
  have hAtype := sorted_constant hsound hΓ .type hK htype
  rw [Sorted, resolve, resolveAll_eq_map]
  refine .list hAtype (hsound _ _ _ hΓ hA) ?_
  intro t ht
  obtain ⟨e', he', rfl⟩ := List.mem_map.mp ht
  obtain ⟨A', hA', hconvertible⟩ := hes e' he'
  have hconv := (convertible_iff hconvertible Γ.scope).mp rfl
  exact .conv (hsound _ _ _ hΓ hA') hconv.symm hAtype (isUniverse_univ .type)

/-- A rule finds only types that can be derived, if its answers can be. -/
theorem sound (hsound : IsSound typeOf) (hΓ : Γ.assumptions.WellFormed) {t T : Term}
    (h : Rule fuel typeOf Γ t T) : Sorted Γ t T := by
  cases h with
  | const h => exact .const (infer_const_sound h Γ.scope)
  | var h => exact var_sound h
  | lam hA hA' hΓ' hb hpi => exact lam_sound hsound hΓ hA hA' hΓ' hb hpi
  | pi hA hK hA' hΓ' hB hK' hw => exact pi_sound hsound hΓ hA hK hA' hΓ' hB hK' hw
  | app hf hF ha hA hT => exact app_sound hsound hΓ hf hF ha hA hT
  | annot hA he h => exact annot_sound hsound hΓ hA he h
  | arith op hl hL hr hR =>
    exact .arith op (sorted_constant hsound hΓ .naturalType hl hL)
      (sorted_constant hsound hΓ .naturalType hr hR)
  | nil hA hK => exact .nil (sorted_constant hsound hΓ .type hA hK)
  | list he hA hK hes => exact list_sound hsound hΓ he hA hK hes

end Rule

/-- A type that is found can be derived. -/
theorem infer_sound (limit fuel depth : Nat) : IsSound (infer limit fuel depth) := by
  intro Γ t T hΓ h
  refine infer_induction (motive := fun _ Γ t T => Γ.assumptions.WellFormed → Sorted Γ t T)
    ?_ h hΓ
  intro depth Γ t T ih hrule hΓ
  exact hrule.sound (fun Γ t T hΓ h => ih h hΓ) hΓ

/-! ### Completeness -/

/-- The computation rejects nothing, except for being nested too deeply. -/
def NeverRejects {α : Type} (limit : Nat) (x : Inference α) : Prop :=
  ∀ e, x.result = .error (.rejected e) → e = .tooDeep limit

namespace NeverRejects

variable {limit : Nat} {α β : Type}

/-- Returning a value rejects nothing. -/
theorem pure (a : α) : NeverRejects limit (Pure.pure a : Inference α) := by
  intro e h
  cases h

/-- Normalizing and comparing reject nothing. -/
theorem lift_evaluation (x : Evaluation α) : NeverRejects limit (liftM x : Inference α) := by
  intro e h
  rw [result_lift_evaluation] at h
  cases hx : x.result <;> rw [hx] at h <;> cases h

/-- Operations on indices reject nothing. -/
theorem lift_index (x : Except IndexFault α) : NeverRejects limit (liftM x : Inference α) := by
  intro e h
  cases x <;> cases h

/-- A sequence rejects nothing if its parts do not. -/
theorem bind {x : Inference α} {f : α → Inference β} (hx : NeverRejects limit x)
    (hf : ∀ a, x.result = .ok a → NeverRejects limit (f a)) : NeverRejects limit (x >>= f) := by
  intro e h
  rw [Logged.result_bind] at h
  cases hr : x.result with
  | error e' =>
    rw [hr] at h
    obtain rfl : e' = .rejected e := Except.error.inj h
    exact hx e hr
  | ok a =>
    rw [hr] at h
    exact hf a hr e h

/-- A sequence that begins with an evaluation rejects nothing if the rest does not. -/
theorem bind_evaluation {x : Evaluation α} {f : α → Inference β}
    (hf : ∀ a, x.result = .ok a → NeverRejects limit (f a)) :
    NeverRejects limit ((liftM x : Inference α) >>= f) := by
  refine bind (lift_evaluation x) fun a ha => hf a ?_
  rwa [result_lift_evaluation, mapError_eq_ok_iff] at ha

/-- A sequence that begins with an operation on indices rejects nothing if the rest does not. -/
theorem bind_index {x : Except IndexFault α} {f : α → Inference β}
    (hf : ∀ a, x = .ok a → NeverRejects limit (f a)) :
    NeverRejects limit ((liftM x : Inference α) >>= f) := by
  refine bind (lift_index x) fun a ha => hf a ?_
  rwa [result_lift_index, mapError_eq_ok_iff] at ha

/-- A loop rejects nothing if its body does not. -/
theorem forM {f : α → Inference PUnit} {as : List α} (h : ∀ a ∈ as, NeverRejects limit (f a)) :
    NeverRejects limit (as.forM f) := by
  induction as with
  | nil => exact pure _
  | cons a as ih => exact bind (h a (by simp)) fun _ _ => ih fun b hb => h b (by simp [hb])

end NeverRejects

variable {limit : Nat}

/-- What is convertible with a constant normalizes to it. -/
theorem normalize_eq_const {t u : Term} {c : Constant} {Δ : Scope}
    (h : (t.normalize fuel).result = .ok u) (hconv : Conv (t.resolve Δ) (.const c)) :
    u = .const c := by
  obtain ⟨hred, hnormal⟩ := normalize_sound h Δ
  exact eq_const_of_resolve ((hred.conv.symm.trans hconv).eq_of_normal hnormal (.const c))

/-- The universe found in a type is the one that the type is convertible with. -/
theorem expectUniverse_eq {role : Role} {K : Term} {u v : Universe} {Δ : Scope}
    (hconv : Conv (K.resolve Δ) (.univ u)) (h : (expectUniverse fuel role K).result = .ok v) :
    v = u := by
  have heq := normalize_eq_const (normalize_of_expectUniverse h) hconv
  exact Constant.univ.inj (Term.const.inj heq)

/-- A type that is convertible with a universe passes for one. -/
theorem expectUniverse_complete {role : Role} {K : Term} {u : Universe} {Δ : Scope}
    (hconv : Conv (K.resolve Δ) (.univ u)) : NeverRejects limit (expectUniverse fuel role K) := by
  refine .bind_evaluation fun K' hK' => ?_
  rw [normalize_eq_const hK' hconv]
  exact .pure u

/-- A type that is convertible with the expected constant passes. -/
theorem expectConstant_complete {role : Role} {K : Term} {c : Constant} {Δ : Scope}
    (hconv : Conv (K.resolve Δ) (.const c)) :
    NeverRejects limit (expectConstant fuel role c K) := by
  refine .bind_evaluation fun K' hK' => ?_
  rw [if_pos (normalize_eq_const hK' hconv)]
  exact .pure ()

/-- Convertible types pass the comparison. -/
theorem expectConvertible_complete {t u : Term} {e : TypeError} {Δ : Scope}
    (hconv : Conv (t.resolve Δ) (u.resolve Δ)) :
    NeverRejects limit (expectConvertible fuel t u e) := by
  refine .bind_evaluation fun r hr => ?_
  rw [if_pos ((convertible_iff hr Δ).mpr hconv)]
  exact .pure ()

/-- The inference rejects no term that has a type, except for its depth. -/
def IsComplete (limit : Nat) (typeOf : Context → Term → Inference Term) : Prop :=
  ∀ Γ t T, Γ.assumptions.WellFormed → SortedTyping Γ.assumptions (t.resolve Γ.scope) T →
    NeverRejects limit (typeOf Γ t)

/-- The rule for variables accepts a variable that has a type. -/
theorem applyRule_var_complete {v : Var} {T : Nameless}
    (h : SortedTyping Γ.assumptions ((var v).resolve Γ.scope) T) :
    NeverRejects limit (applyRule fuel typeOf Γ (.var v)) := by
  rcases Γ.lookup_locate v.name v.index with ⟨k, b, -, -, hlookup⟩ | ⟨y, j, hfree, -⟩
  · simp only [applyRule, hlookup]
    exact .pure b.type
  · rw [resolve, hfree] at h
    exact h.generated.elim

/-- The rule for functions accepts a function that has a type. -/
theorem applyRule_lam_complete (hsound : IsSound typeOf) (hcomplete : IsComplete limit typeOf)
    (hΓ : Γ.assumptions.WellFormed) {x : Label} {A b : Term} {T : Nameless}
    (h : SortedTyping Γ.assumptions ((lam x A b).resolve Γ.scope) T) :
    NeverRejects limit (applyRule fuel typeOf Γ (.lam x A b)) := by
  obtain ⟨B₀, w, hpi, hb, -⟩ := h.generated
  obtain ⟨u, v, w', hA, hB₀, hw, -⟩ := hpi.generated
  refine .bind (hcomplete _ _ _ hΓ hA) fun K hK => ?_
  refine .bind_evaluation fun A' hA' => .bind_index fun Γ' hΓ' => ?_
  have hred := (normalize_sound hA' Γ.scope).1
  have hdom := hA.reduces hΓ hred
  have hΓwf := wellFormed_enter hΓ hdom hΓ'
  replace hb := hb.exchange hA hred.conv
  replace hB₀ := hB₀.exchange hA hred.conv
  rw [← Context.scope_enter hΓ', ← Context.assumptions_enter hΓ'] at hb
  rw [← Context.assumptions_enter hΓ'] at hB₀
  refine .bind (hcomplete _ _ _ hΓwf hb) fun B hB => ?_
  -- The type found for the body is convertible with the one derived, so it has the same universe.
  have hbody := hsound _ _ _ hΓwf hB
  have hcod := hbody.type_of_conv hΓwf (hbody.unique hb) hB₀
  rw [Context.scope_enter hΓ', Context.assumptions_enter hΓ'] at hcod
  refine .bind (hcomplete Γ (.pi x A' B) _ hΓ (.pi hdom hcod hw)) fun W hW => ?_
  exact .pure _

/-- The rule for function types accepts a function type that has a type. -/
theorem applyRule_pi_complete (hsound : IsSound typeOf) (hcomplete : IsComplete limit typeOf)
    (hΓ : Γ.assumptions.WellFormed) {x : Label} {A B : Term} {T : Nameless}
    (h : SortedTyping Γ.assumptions ((pi x A B).resolve Γ.scope) T) :
    NeverRejects limit (applyRule fuel typeOf Γ (.pi x A B)) := by
  obtain ⟨u, v, w, hA, hB, hw, -⟩ := h.generated
  refine .bind (hcomplete _ _ _ hΓ hA) fun K hK => ?_
  have hKu := (hsound _ _ _ hΓ hK).unique hA
  refine .bind (expectUniverse_complete hKu) fun u' hu' => ?_
  obtain rfl := expectUniverse_eq hKu hu'
  refine .bind_evaluation fun A' hA' => .bind_index fun Γ' hΓ' => ?_
  have hred := (normalize_sound hA' Γ.scope).1
  have hΓwf := wellFormed_enter hΓ (hA.reduces hΓ hred) hΓ'
  replace hB := hB.exchange hA hred.conv
  rw [← Context.scope_enter hΓ', ← Context.assumptions_enter hΓ'] at hB
  refine .bind (hcomplete _ _ _ hΓwf hB) fun K' hK' => ?_
  have hK'v := (hsound _ _ _ hΓwf hK').unique hB
  refine .bind (expectUniverse_complete hK'v) fun v' hv' => ?_
  obtain rfl := expectUniverse_eq hK'v hv'
  rw [Universe.function_eq_ok_iff.mpr hw]
  exact .pure _

/-- The rule for applications accepts an application that has a type. -/
theorem applyRule_app_complete (hsound : IsSound typeOf) (hcomplete : IsComplete limit typeOf)
    (hΓ : Γ.assumptions.WellFormed) {f a : Term} {T : Nameless}
    (h : SortedTyping Γ.assumptions ((app f a).resolve Γ.scope) T) :
    NeverRejects limit (applyRule fuel typeOf Γ (.app f a)) := by
  obtain ⟨A₀, B₀, hf, ha, -⟩ := h.generated
  refine .bind (hcomplete _ _ _ hΓ hf) fun F₀ hF₀ => .bind_evaluation fun F hF => ?_
  obtain ⟨hred, hnormal⟩ := normalize_sound hF Γ.scope
  -- A normal form that is convertible with a function type is one.
  have hFpi := hred.conv.symm.trans ((hsound _ _ _ hΓ hF₀).unique hf)
  obtain ⟨A₁, B₁, hpi, hA₁, -⟩ := hFpi.reduces_binder
  obtain ⟨x, A, B, rfl, rfl, -⟩ := eq_binder_of_resolve (hnormal.eq_of_reduces hpi).symm
  refine .bind (hcomplete _ _ _ hΓ ha) fun A' hA' => ?_
  have hconv := (hsound _ _ _ hΓ hA').unique ha
  refine .bind (expectConvertible_complete (hconv.trans hA₁).symm) fun _ _ => ?_
  exact .lift_index _

/-- The rule for annotations accepts an annotated term that has a type. -/
theorem applyRule_annot_complete (hsound : IsSound typeOf) (hcomplete : IsComplete limit typeOf)
    (hΓ : Γ.assumptions.WellFormed) {e A : Term} {T : Nameless}
    (h : SortedTyping Γ.assumptions ((annot e A).resolve Γ.scope) T) :
    NeverRejects limit (applyRule fuel typeOf Γ (.annot e A)) := by
  obtain ⟨K, he, hA, -, -⟩ := h.generated
  refine .bind (hcomplete _ _ _ hΓ hA) fun K' hK' => ?_
  refine .bind (hcomplete _ _ _ hΓ he) fun A' hA' => ?_
  have hconv := he.unique (hsound _ _ _ hΓ hA')
  refine .bind (expectConvertible_complete hconv) fun _ _ => ?_
  exact .pure A

/-- A part that has a constant for its type passes the test for it. -/
theorem bind_expectConstant_complete (hsound : IsSound typeOf)
    (hcomplete : IsComplete limit typeOf) (hΓ : Γ.assumptions.WellFormed) {t : Term}
    {c : Constant} {role : Role} (h : SortedTyping Γ.assumptions (t.resolve Γ.scope) (.const c))
    {rest : Inference Term} (hrest : NeverRejects limit rest) :
    NeverRejects limit (do expectConstant fuel role c (← typeOf Γ t); rest) := by
  refine .bind (hcomplete _ _ _ hΓ h) fun K hK => ?_
  exact .bind (expectConstant_complete ((hsound _ _ _ hΓ hK).unique h)) fun _ _ => hrest

/-- The rule for list literals accepts a list that has a type. -/
theorem applyRule_list_complete (hsound : IsSound typeOf) (hcomplete : IsComplete limit typeOf)
    (hΓ : Γ.assumptions.WellFormed) {e : Term} {es : List Term} {T : Nameless}
    (h : SortedTyping Γ.assumptions ((list e es).resolve Γ.scope) T) :
    NeverRejects limit (applyRule fuel typeOf Γ (.list e es)) := by
  rw [resolve, resolveAll_eq_map] at h
  obtain ⟨A₀, hA₀, he, hes, -⟩ := h.generated
  refine .bind (hcomplete _ _ _ hΓ he) fun A hA => ?_
  have heA := hsound _ _ _ hΓ hA
  have hconv := heA.unique he
  have hAtype := heA.type_of_conv hΓ hconv hA₀
  refine bind_expectConstant_complete hsound hcomplete hΓ hAtype ?_
  refine .bind (.forM fun e' he' => ?_) fun _ _ => .pure _
  have helem := hes _ (List.mem_map_of_mem he')
  refine .bind (hcomplete _ _ _ hΓ helem) fun A' hA' => ?_
  exact expectConvertible_complete (hconv.trans (helem.unique (hsound _ _ _ hΓ hA')))

/-- One application of the rules rejects no term that has a type, except for its depth. -/
theorem applyRule_complete (hsound : IsSound typeOf) (hcomplete : IsComplete limit typeOf) :
    IsComplete limit (applyRule fuel typeOf) := by
  intro Γ t T hΓ h
  cases t with
  | const c =>
    obtain ⟨C, hC, -⟩ := h.generated
    cases hC <;> exact .pure _
  | var v => exact applyRule_var_complete h
  | binder k x A b =>
    cases k with
    | lambda => exact applyRule_lam_complete hsound hcomplete hΓ h
    | pi => exact applyRule_pi_complete hsound hcomplete hΓ h
  | app f a => exact applyRule_app_complete hsound hcomplete hΓ h
  | annot e A => exact applyRule_annot_complete hsound hcomplete hΓ h
  | arith op l r =>
    obtain ⟨hl, hr, -⟩ := h.generated
    refine bind_expectConstant_complete hsound hcomplete hΓ hl ?_
    exact bind_expectConstant_complete hsound hcomplete hΓ hr (.pure _)
  | nil A =>
    obtain ⟨hA, -⟩ := h.generated
    exact bind_expectConstant_complete hsound hcomplete hΓ hA (.pure _)
  | list e es => exact applyRule_list_complete hsound hcomplete hΓ h

/-- A term that has a type is rejected only for its depth. -/
theorem infer_complete (limit fuel depth : Nat) : IsComplete limit (infer limit fuel depth) := by
  induction depth with
  | zero =>
    intro Γ t T _ _ e h
    cases h
    rfl
  | succ depth ih =>
    intro Γ t T hΓ h
    simp only [infer, relay_eq]
    refine .bind ?_ fun _ _ => applyRule_complete (infer_sound limit fuel depth) ih Γ t T hΓ h
    intro e he
    cases he

/-- A type that the checker finds can be derived. -/
theorem check_sound {maxDepth : Nat} {t T : Term} (hΓ : Γ.assumptions.WellFormed)
    (h : (t.check fuel maxDepth Γ).result = .ok T) : Sorted Γ t T := by
  rw [check_result] at h
  exact infer_sound maxDepth fuel maxDepth Γ t T hΓ h

/-- A term that has a type is not rejected by the checker, except for its depth. -/
theorem check_complete {maxDepth : Nat} {t : Term} {T : Nameless} (hΓ : Γ.assumptions.WellFormed)
    (h : SortedTyping Γ.assumptions (t.resolve Γ.scope) T) :
    NeverRejects maxDepth (t.check fuel maxDepth Γ) := by
  intro e he
  rw [check_result] at he
  exact infer_complete maxDepth fuel maxDepth Γ t T hΓ h e he

end Term

open Nameless (HasType Conv)

/-- The contexts that are built up by entering binders whose types were accepted: the type of each
type normalizes to a universe. The types need not be in normal form. -/
inductive Context.Accepted : Context → Prop where
  | empty : Accepted []
  | enter {Γ Γ' : Context} {x : Label} {A K : Term} {u : Universe} {fuel fuel' maxDepth : Nat}
      (hΓ : Accepted Γ) (hA : (A.check fuel maxDepth Γ).result = .ok K)
      (hK : (K.normalize fuel').result = .ok (.univ u)) (h : Γ.enter x A = .ok Γ') : Accepted Γ'

/-- The assumptions of an accepted context are well formed. -/
theorem Context.Accepted.wellFormed {Γ : Context} (h : Γ.Accepted) : Γ.assumptions.WellFormed := by
  induction h with
  | empty => exact Nameless.Assumptions.wellFormed_nil
  | enter _ hA hK h ih =>
    have hAu := Term.sorted_univ ih (Term.check_sound ih hA) hK
    exact Term.wellFormed_enter ih hAu h

namespace Term

/-- The checker implements the typing judgement. In an accepted context and with whatever fuel and
depth, a type that is found can be derived. Conversely, for a term that has a type, a type that is
found is convertible with it, and the only rejection is the one for the depth of the term. -/
theorem check_decides_hasType {Γ : Context} (hΓ : Γ.Accepted) (fuel maxDepth : Nat) (t : Term) :
    (∀ T, (t.check fuel maxDepth Γ).result = .ok T →
        HasType Γ.assumptions (t.resolve Γ.scope) (T.resolve Γ.scope)) ∧
      ∀ T, HasType Γ.assumptions (t.resolve Γ.scope) T →
        (∀ T', (t.check fuel maxDepth Γ).result = .ok T' → Conv (T'.resolve Γ.scope) T) ∧
          ∀ e, (t.check fuel maxDepth Γ).result = .error (.rejected e) → e = .tooDeep maxDepth := by
  have hwf := hΓ.wellFormed
  refine ⟨fun T h => (check_sound hwf h).hasType, fun T h => ?_⟩
  rw [Nameless.hasType_iff_sorted hwf] at h
  exact ⟨fun T' hT' => (check_sound hwf hT').unique h, check_complete hwf h⟩

/-- The variable `x : Type`. -/
def outer : Context := [⟨"x", .univ .type⟩]

/-- The variables `x : Type` and, inside it, `x : x`. -/
def shadowing : Context := [⟨"x", .nearby "x" 1⟩, ⟨"x", .univ .type⟩]

/-- A context in which one label hides another is accepted. -/
theorem accepted_shadowing : shadowing.Accepted := by
  have houter : outer.Accepted := by
    have hA : ((univ .type).check 1 1 []).result = .ok (.univ .kind) := by decide +kernel
    have hK : ((univ .kind).normalize 1).result = .ok (.univ .kind) := by decide +kernel
    have henter : Context.enter [] "x" (.univ .type) = .ok outer := by decide +kernel
    exact .enter .empty hA hK henter
  have hA : ((nearby "x" 0).check 1 1 outer).result = .ok (.univ .type) := by decide +kernel
  have hK : ((univ .type).normalize 1).result = .ok (.univ .type) := by decide +kernel
  have henter : outer.enter "x" (.nearby "x" 0) = .ok shadowing := by decide +kernel
  exact .enter houter hA hK henter

/-- `(λ(x : x@1) → x@1) x`, which refers to the type from outside and from inside its binder. -/
def shadowed : Term :=
  .app (.lam "x" (.nearby "x" 1) (.nearby "x" 1)) (.nearby "x" 0)

/-- The type found where one label hides another can be derived, and a limit of two is too low for
it. -/
theorem check_decides_hasType_shadowing :
    shadowing.Accepted ∧
      (shadowed.check 8 8 shadowing).result = .ok (.nearby "x" 1) ∧
      HasType shadowing.assumptions (shadowed.resolve shadowing.scope) (.bound 1) ∧
      (shadowed.check 8 2 shadowing).result = .error (.rejected (.tooDeep 2)) ∧
      ∀ T, HasType shadowing.assumptions (shadowed.resolve shadowing.scope) T →
        Conv (.bound 1) T := by
  have hcheck : (shadowed.check 8 8 shadowing).result = .ok (.nearby "x" 1) := by decide +kernel
  have hdeep : (shadowed.check 8 2 shadowing).result = .error (.rejected (.tooDeep 2)) := by
    decide +kernel
  obtain ⟨hsound, hcomplete⟩ := check_decides_hasType accepted_shadowing 8 8 shadowed
  exact ⟨accepted_shadowing, hcheck, hsound _ hcheck, hdeep,
    fun T hT => (hcomplete T hT).1 _ hcheck⟩

end Term

end Trisort
