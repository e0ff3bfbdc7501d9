import Trisort.Typing.Fuel
import Trisort.Proofs.Faults
import Trisort.Proofs.Typing.Rules

/-!
# The depth limit only cuts off

Inference with a smaller number of levels does exactly what inference with a larger one does, until
it needs a level that it does not have. Then it gives up, whatever rule asked for the level, and no
rule recovers from that. `Logged.CutShort` is this relation between two computations; like
`Logged.Approximates` it passes through sequences, so it holds for the rules if it holds for the
inference that they call (`applyRule_cutShort`), and for inference by induction on the number of
levels (`infer_cutShort`).

Every rule infers the types of all parts of its term one level down. So a term that is accepted is
not higher than the number of levels (`height_le_of_infer`).
-/

namespace Trisort

open Log

/-! ### Computations that are cut short -/

namespace Log.Logged

variable {ω ε α β : Type} {e : ε}

/-- The events of a sequence begin with those of its first part. -/
theorem events_prefix_bind (x : Logged ω ε α) (f : α → Logged ω ε β) :
    x.events <+: (x >>= f).events := by
  cases hx : x.result with
  | error e =>
    refine ⟨[], ?_⟩
    rw [events_bind_of_error hx, List.append_nil]
  | ok a =>
    rw [events_bind_of_ok hx]
    exact List.prefix_append _ _

/-- Unless `x` fails with `e`, the two computations are the same. If it does, then what it has
recorded is the beginning of what `y` records. -/
def CutShort (e : ε) (x y : Logged ω ε α) : Prop :=
  Approximates e x y ∧ (x.result = .error e → x.events <+: y.events)

namespace CutShort

/-- A computation is related to itself. -/
theorem refl (x : Logged ω ε α) : CutShort e x x := ⟨.refl x, fun _ => List.prefix_refl _⟩

/-- A computation that fails at once is the beginning of any other. -/
theorem fail (y : Logged ω ε α) : CutShort e (Logged.fail e) y :=
  ⟨.of_result_eq rfl, fun _ => List.nil_prefix⟩

/-- If the parts of a sequence are cut short, so is the sequence. -/
theorem bind {x y : Logged ω ε α} {f g : α → Logged ω ε β} (hxy : CutShort e x y)
    (hfg : ∀ a, CutShort e (f a) (g a)) : CutShort e (x >>= f) (y >>= g) := by
  refine ⟨hxy.1.bind fun a => (hfg a).1, fun h => ?_⟩
  cases hx : x.result with
  | error e' =>
    rw [result_bind, hx] at h
    obtain rfl : e' = e := Except.error.inj h
    rw [events_bind_of_error hx]
    exact (hxy.2 hx).trans (events_prefix_bind y g)
  | ok a =>
    -- The first part is over and was the same, so it is the second part that is cut short.
    have hf : (f a).result = .error e := by
      rwa [result_bind, hx] at h
    have hy : y = x := hxy.1 (by simp [hx])
    rw [hy, events_bind_of_ok hx, events_bind_of_ok hx]
    exact (List.prefix_append_right_inj _).mpr ((hfg a).2 hf)

/-- If the body of a loop is cut short, so is the loop. -/
theorem forM {f g : α → Logged ω ε PUnit} (h : ∀ a, CutShort e (f a) (g a)) (as : List α) :
    CutShort e (as.forM f) (as.forM g) := by
  induction as with
  | nil => exact .refl _
  | cons a as ih => exact .bind (h a) fun _ => ih

end CutShort

end Log.Logged

/-- If the failure is the rejection for the depth, it names the limit. -/
def Failure.NamesLimit (limit : Nat) : Failure → Prop
  | .rejected (.tooDeep l) => l = limit
  | _ => True

namespace Term

/-! ### Inference with fewer levels -/

/-- The rules are cut short only where the inference is that they call. -/
theorem applyRule_cutShort {fuel : Nat} {e : Failure}
    {typeOf typeOf' : Context → Term → Inference Term}
    (htypeOf : ∀ Γ t, (typeOf Γ t).CutShort e (typeOf' Γ t)) (Γ : Context) (t : Term) :
    (applyRule fuel typeOf Γ t).CutShort e (applyRule fuel typeOf' Γ t) := by
  cases t with
  | const c => exact .refl _
  | var v => exact .refl _
  | binder k x A b =>
    cases k with
    | lambda =>
      exact .bind (htypeOf Γ A) fun _ => .bind (.refl _) fun A' => .bind (.refl _) fun Γ' =>
        .bind (htypeOf Γ' b) fun B => .bind (htypeOf Γ _) fun _ => .refl _
    | pi =>
      exact .bind (htypeOf Γ A) fun K => .bind (.refl _) fun u => .bind (.refl _) fun A' =>
        .bind (.refl _) fun Γ' => .bind (htypeOf Γ' b) fun K' => .refl _
  | app f a =>
    refine .bind (htypeOf Γ f) fun F => .bind (.refl _) fun F' => ?_
    split
    · exact .bind (htypeOf Γ a) fun A' => .refl _
    · exact .refl _
  | annot e A => exact .bind (htypeOf Γ A) fun _ => .bind (htypeOf Γ e) fun A' => .refl _
  | arith op l r =>
    exact .bind (htypeOf Γ l) fun L => .bind (.refl _) fun _ => .bind (htypeOf Γ r) fun R => .refl _
  | nil A => exact .bind (htypeOf Γ A) fun K => .refl _
  | list e es =>
    exact .bind (htypeOf Γ e) fun A => .bind (htypeOf Γ A) fun K => .bind (.refl _) fun _ =>
      .bind (.forM (fun e' => .bind (htypeOf Γ e') fun A' => .refl _) es) fun _ => .refl _

/-- Inference with fewer levels is cut short where they run out, and is the same otherwise. The
limits that the two would report do not matter. -/
theorem infer_cutShort {d d' : Nat} (h : d ≤ d') (limit limit' fuel : Nat) (Γ : Context)
    (t : Term) :
    (infer limit fuel d Γ t).CutShort (.rejected (.tooDeep limit)) (infer limit' fuel d' Γ t) := by
  induction d generalizing d' Γ t with
  | zero => exact .fail _
  | succ d ih =>
    obtain ⟨d', rfl⟩ : ∃ k, d' = k + 1 := ⟨d' - 1, by omega⟩
    simp only [infer, relay_eq]
    exact .bind (.refl _) fun _ => applyRule_cutShort (ih (by omega)) Γ t

/-! ### The limit that is reported -/

/-- What a rule finds wrong with types is never the depth. -/
theorem ruleFailures_namesLimit (fuel limit : Nat) :
    RuleFailures fuel (Failure.NamesLimit limit) := by
  refine .of_halted (fun _ => trivial) fun e he => ?_
  cases e with
  | tooDeep l => exact he.elim
  | _ => trivial

/-! ### Height -/

mutual

/-- How many levels a term has. Constants and variables have one. -/
@[simp] def height : Term → Nat
  | .const _ | .var _ => 1
  | .binder _ _ A b => max A.height b.height + 1
  | .app f a => max f.height a.height + 1
  | .annot e A => max e.height A.height + 1
  | .arith _ l r => max l.height r.height + 1
  | .nil A => A.height + 1
  | .list e es => max e.height (heightAll es) + 1

/-- The largest height in a list of terms, zero if the list is empty. -/
def heightAll : List Term → Nat
  | [] => 0
  | e :: es => max e.height (heightAll es)

end

/-- The largest height is at most a number that no height exceeds. -/
theorem heightAll_le {n : Nat} {es : List Term} (h : ∀ e ∈ es, e.height ≤ n) :
    heightAll es ≤ n := by
  induction es with
  | nil => exact Nat.zero_le n
  | cons e es ih =>
    rw [heightAll]
    exact Nat.max_le.mpr ⟨h e (by simp), ih fun e' he' => h e' (by simp [he'])⟩

/-- A term that a rule accepts is at most one level higher than the terms accepted by the inference
that it calls. -/
theorem Rule.height_le {fuel n : Nat} {typeOf : Context → Term → Inference Term}
    (htypeOf : ∀ {Γ t T}, (typeOf Γ t).result = .ok T → t.height ≤ n) {Γ : Context} {t T : Term}
    (h : Rule fuel typeOf Γ t T) : t.height ≤ n + 1 := by
  -- Each rule asks for the types of all parts of its term.
  cases h with
  | const _ | var _ => exact Nat.succ_le_succ (Nat.zero_le n)
  | lam hA _ _ hb _ => exact Nat.succ_le_succ (Nat.max_le.mpr ⟨htypeOf hA, htypeOf hb⟩)
  | pi hA _ _ _ hB _ _ => exact Nat.succ_le_succ (Nat.max_le.mpr ⟨htypeOf hA, htypeOf hB⟩)
  | app hf _ ha _ _ => exact Nat.succ_le_succ (Nat.max_le.mpr ⟨htypeOf hf, htypeOf ha⟩)
  | annot hA he _ => exact Nat.succ_le_succ (Nat.max_le.mpr ⟨htypeOf he, htypeOf hA⟩)
  | arith op hl _ hr _ => exact Nat.succ_le_succ (Nat.max_le.mpr ⟨htypeOf hl, htypeOf hr⟩)
  | nil hA _ => exact Nat.succ_le_succ (htypeOf hA)
  | list he _ _ hes =>
    refine Nat.succ_le_succ (Nat.max_le.mpr ⟨htypeOf he, heightAll_le fun e' he' => ?_⟩)
    obtain ⟨_, hA', -⟩ := hes e' he'
    exact htypeOf hA'

/-- A term that is given a type is not higher than the number of levels. -/
theorem height_le_of_infer {limit fuel depth : Nat} {Γ : Context} {t T : Term}
    (h : (infer limit fuel depth Γ t).result = .ok T) : t.height ≤ depth := by
  refine infer_induction (motive := fun depth _ t _ => t.height ≤ depth) ?_ h
  intro depth Γ t T ih hrule
  exact hrule.height_le ih

/-! ### The depth limit -/

/-- The records of the rules that were applied, among all events of a computation. -/
def judgements {ε α : Type} (x : Logged Event ε α) : List Event :=
  x.events.filter fun
    | .judged _ _ => true
    | _ => false

/-- Checking a term applies the rules that inference applies. -/
theorem judgements_check (fuel maxDepth : Nat) (Γ : Context) (t : Term) :
    judgements (t.check fuel maxDepth Γ) = judgements (t.infer maxDepth fuel maxDepth Γ) := by
  simp only [check]
  split
  · -- A rejection adds one event, which is not the application of a rule.
    simp [judgements, Logged.events]
  · rfl

/-- **The depth limit only cuts off.** Let a term be checked with limits `d ≤ d'`, with enough fuel
in both cases. If the smaller limit is not what the first check ends with, the second check does the
same, with the same outcome and the same records. If it is, then `d` is the limit that is named, and
the rules were applied as the second check applies them at first. And no term is accepted that is
higher than the limit. -/
theorem check_cut_short_by_depth {d d' : Nat} (h : d ≤ d') {fuel fuel' : Nat} {Γ : Context}
    {t : Term} (hd : (t.check fuel d Γ).result ≠ .error (.halted .exhausted))
    (hd' : (t.check fuel' d' Γ).result ≠ .error (.halted .exhausted)) :
    ((∀ l, (t.check fuel d Γ).result ≠ .error (.rejected (.tooDeep l))) →
        t.check fuel' d' Γ = t.check fuel d Γ) ∧
      (∀ l, (t.check fuel d Γ).result = .error (.rejected (.tooDeep l)) →
        l = d ∧ judgements (t.check fuel d Γ) <+: judgements (t.check fuel' d' Γ)) ∧
      ∀ T, (t.check fuel d Γ).result = .ok T → t.height ≤ d := by
  -- Both checks are what they are with the larger amount of fuel.
  rw [← check_of_le (Nat.le_max_left fuel fuel') hd,
    ← check_of_le (Nat.le_max_right fuel fuel') hd']
  generalize max fuel fuel' = n
  obtain ⟨hsame, hcut⟩ := infer_cutShort h d d' n Γ t
  refine ⟨fun hne => ?_, fun l hl => ?_, fun T hT => ?_⟩
  · have hinfer : t.infer d' n d' Γ = t.infer d n d Γ := by
      apply hsame
      rw [← check_result]
      exact hne d
    simp only [check, hinfer]
  · rw [check_result] at hl
    obtain rfl : l = d := (ruleFailures_namesLimit n d).infer (fun _ => trivial) rfl d Γ t _ hl
    refine ⟨rfl, ?_⟩
    rw [judgements_check, judgements_check]
    exact (hcut hl).filter _
  · rw [check_result] at hT
    exact height_le_of_infer hT

-- Two levels are the height of the term, but its type has to be inferred too, and takes a third.
/-- The identity on natural numbers needs three levels, and with two it is cut short after four
judgements. -/
theorem check_cut_short_by_depth_identity :
    (((constant (.nearest "x")).check 4 2 []).result = .error (.rejected (.tooDeep 2)) ∧
        (judgements ((constant (.nearest "x")).check 4 2 [])).length = 4 ∧
        judgements ((constant (.nearest "x")).check 4 2 []) <+:
          judgements ((constant (.nearest "x")).check 4 8 [])) ∧
      ((constant (.nearest "x")).check 4 3 []).result =
          .ok (.pi "x" (.const .naturalType) (.const .naturalType)) ∧
        (constant (.nearest "x")).height ≤ 3 ∧
        (constant (.nearest "x")).check 4 8 [] = (constant (.nearest "x")).check 4 3 [] := by
  have hshort : ((constant (.nearest "x")).check 4 2 []).result =
      .error (.rejected (.tooDeep 2)) := by decide +kernel
  have hlength : (judgements ((constant (.nearest "x")).check 4 2 [])).length = 4 := by
    decide +kernel
  have hfull : ((constant (.nearest "x")).check 4 3 []).result =
      .ok (.pi "x" (.const .naturalType) (.const .naturalType)) := by decide +kernel
  have hfuel : ∀ d ∈ [2, 3, 8],
      ((constant (.nearest "x")).check 4 d []).result ≠ .error (.halted .exhausted) := by
    decide +kernel
  obtain ⟨-, hcut, -⟩ :=
    check_cut_short_by_depth (d := 2) (by decide) (hfuel 2 (by simp)) (hfuel 8 (by simp))
  obtain ⟨hsame, -, hheight⟩ :=
    check_cut_short_by_depth (d := 3) (by decide) (hfuel 3 (by simp)) (hfuel 8 (by simp))
  exact ⟨⟨hshort, hlength, (hcut 2 hshort).2⟩, hfull, hheight _ hfull, hsame (by simp [hfull])⟩

end Term

end Trisort
