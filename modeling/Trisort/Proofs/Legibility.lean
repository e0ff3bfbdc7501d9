import Trisort.Proofs.Words
import Mathlib.Logic.Relation

/-!
# The reading form can be read

A term is legible if it has no double literal and its labels and the names of its variables are
identifiers other than the reserved words. The reading form of a legible term determines the term.

This is proved by reading. `Reader.step` is the step of a machine that takes a text apart as it is
written. Its tasks are to read a term of some precedence, and a stack of frames says what the terms
are read for; the frames for left-leaning forms stay on the stack as long as further operands
follow. `Term.Follows p rest` says that nothing in `rest` goes on with a term of precedence `p`, and
`Term.Reads t` says what the machine does, at each precedence, with the text of `t` in front of such
a rest. The lemmas that pass from one precedence to the next follow the way in which parentheses are
set; with them, a term is read if its parts are (`Term.reads`). As a step has at most one outcome,
a text cannot be read as two terms.
-/

namespace Trisort

open Relation

/-! ### Legible terms -/

namespace Term

mutual

/-- The term has no double literal, and its labels and the names of its variables are
identifiers. -/
@[simp] def Legible : Term → Prop
  | .const c => ∀ x, c ≠ .double x
  | .var v => v.name.IsIdentifier
  | .binder _ x A b => x.IsIdentifier ∧ A.Legible ∧ b.Legible
  | .app f a => f.Legible ∧ a.Legible
  | .annot e A => e.Legible ∧ A.Legible
  | .arith _ l r => l.Legible ∧ r.Legible
  | .nil A => A.Legible
  | .list e es => e.Legible ∧ LegibleAll es

/-- The terms of the list are legible. -/
@[simp] def LegibleAll : List Term → Prop
  | [] => True
  | e :: es => e.Legible ∧ LegibleAll es

end

/-- A list of terms is legible if each of its elements is. -/
theorem legibleAll_iff {es : List Term} : LegibleAll es ↔ ∀ e ∈ es, e.Legible := by
  induction es with
  | nil => simp
  | cons e es ih => rw [LegibleAll, ih, List.forall_mem_cons]

end Term

/-! ### The reader -/

namespace Reader

/-- What follows the given characters, if the text begins with them. -/
def skip : List Char → List Char → Option (List Char)
  | [], cs => some cs
  | c :: pattern, d :: cs => if d = c then skip pattern cs else none
  | _ :: _, [] => none

/-- A text that begins with the given characters goes on with what comes after them. -/
@[simp] theorem skip_append (pattern cs : List Char) : skip pattern (pattern ++ cs) = some cs := by
  induction pattern with
  | nil => rfl
  | cons c pattern ih => simp [skip, ih]

/-- Whether a text begins with an argument, which the sign of an operation is not. -/
def startsArgument : List Char → Bool
  | [] => false
  | c :: cs => (c == '(' || c == '[' || isWordChar c) && !(c == '+' && cs.head? == some ' ')

/-- What the reader does next. -/
inductive Task where
  /-- Read a term of any precedence. -/
  | function
  /-- Read a row of operands with the sign of the operation between them. -/
  | arith (op : Operation)
  /-- Read a function and its arguments. -/
  | application
  /-- Read a word, a list literal or a term in parentheses. -/
  | enclosed
  /-- Hand over a term that has been read. -/
  | found (t : Term)

/-- What a term is read for. -/
inductive Frame where
  /-- It may stand before an arrow or a colon. -/
  | before
  /-- It is what a function type with the given domain leads to. -/
  | target (A : Term)
  /-- It is the type of the given term. -/
  | ascribed (e : Term)
  /-- It is the type of a binder. -/
  | domain (k : Binder) (x : Label)
  /-- It is the body of a binder. -/
  | body (k : Binder) (x : Label) (A : Term)
  /-- It is the type of the elements of an empty list. -/
  | elementType
  /-- It stands in parentheses. -/
  | parenthesis
  /-- It is the first element of a list literal. -/
  | first
  /-- It is an element of a list literal after the first and the given ones. -/
  | next (e : Term) (es : List Term)
  /-- It is the left operand of an operation, if an operand follows. -/
  | left (op : Operation)
  /-- It is the right operand of an operation. -/
  | right (op : Operation) (l : Term)
  /-- It is a function, if an argument follows. -/
  | head
  /-- It is an argument. -/
  | argument (f : Term)

/-- A task, what is to be done with the outcome, and the text that has not been read yet. -/
structure State where
  task : Task
  frames : List Frame
  text : List Char

/-- The task of reading an operand of an operation. -/
def operand (op : Operation) : Task := if op = .plus then .arith .times else .application

/-- Starts to read the type of a binder. -/
def beginBinder (k : Binder) (K : List Frame) (cs : List Char) : Option State := do
  let cs ← skip ['('] cs
  let rest ← skip " : ".toList (cs.dropWhile isWordChar)
  some ⟨.function, .domain k (String.ofList (cs.takeWhile isWordChar)) :: K, rest⟩

/-- Starts to read a term of any precedence. -/
def beginFunction (K : List Frame) : List Char → Option State
  | 'λ' :: cs => beginBinder .lambda K cs
  | '∀' :: cs => beginBinder .pi K cs
  | '[' :: ']' :: cs => (skip " : List ".toList cs).map (⟨.enclosed, .elementType :: K, ·⟩)
  | cs => some ⟨.arith .plus, .before :: K, cs⟩

/-- Starts to read an enclosed term. -/
def beginEnclosed (K : List Frame) : List Char → Option State
  | '(' :: cs => some ⟨.function, .parenthesis :: K, cs⟩
  | '[' :: cs => some ⟨.function, .first :: K, cs⟩
  | cs => (readWord (cs.takeWhile isWordChar)).map (⟨.found ·, K, cs.dropWhile isWordChar⟩)

/-- Goes on after a term that may stand before an arrow or a colon. -/
def resumeBefore (t : Term) (K : List Frame) : List Char → Option State
  | ' ' :: '→' :: ' ' :: cs => some ⟨.function, .target t :: K, cs⟩
  | ' ' :: ':' :: ' ' :: cs => some ⟨.function, .ascribed t :: K, cs⟩
  | cs => some ⟨.found t, K, cs⟩

/-- Goes on after the given elements of a list literal. -/
def resumeElement (e : Term) (es : List Term) (K : List Frame) : List Char → Option State
  | ',' :: ' ' :: cs => some ⟨.function, .next e es :: K, cs⟩
  | ']' :: cs => some ⟨.found (.list e es), K, cs⟩
  | _ => none

/-- Goes on after a left operand. -/
def resumeLeft (op : Operation) (t : Term) (K : List Frame) (cs : List Char) : Option State :=
  match skip (' ' :: op.sign.toList ++ [' ']) cs with
  | some cs => some ⟨operand op, .right op t :: K, cs⟩
  | none => some ⟨.found t, K, cs⟩

/-- Goes on after a function. -/
def resumeHead (t : Term) (K : List Frame) : List Char → Option State
  | ' ' :: cs =>
    if startsArgument cs then some ⟨.enclosed, .argument t :: K, cs⟩
    else some ⟨.found t, K, ' ' :: cs⟩
  | cs => some ⟨.found t, K, cs⟩

/-- Uses a term for what it was read for. -/
def resume (t : Term) (K : List Frame) (cs : List Char) : Frame → Option State
  | .before => resumeBefore t K cs
  | .target A => some ⟨.found (.pi .anonymous A t), K, cs⟩
  | .ascribed e => some ⟨.found (.annot e t), K, cs⟩
  | .domain k x => (skip ") → ".toList cs).map (⟨.function, .body k x t :: K, ·⟩)
  | .body k x A => some ⟨.found (.binder k x A t), K, cs⟩
  | .elementType => some ⟨.found (.nil t), K, cs⟩
  | .parenthesis => (skip [')'] cs).map (⟨.found t, K, ·⟩)
  | .first => resumeElement t [] K cs
  | .next e es => resumeElement e (es ++ [t]) K cs
  | .left op => resumeLeft op t K cs
  | .right op l => some ⟨.found (.arith op l t), .left op :: K, cs⟩
  | .head => resumeHead t K cs
  | .argument f => some ⟨.found (.app f t), .head :: K, cs⟩

/-- One step of reading. -/
def step : State → Option State
  | ⟨.function, K, cs⟩ => beginFunction K cs
  | ⟨.arith op, K, cs⟩ => some ⟨operand op, .left op :: K, cs⟩
  | ⟨.application, K, cs⟩ => some ⟨.enclosed, .head :: K, cs⟩
  | ⟨.enclosed, K, cs⟩ => beginEnclosed K cs
  | ⟨.found t, F :: K, cs⟩ => resume t K cs F
  | ⟨.found _, [], _⟩ => none

/-- Any number of steps. -/
abbrev Runs : State → State → Prop := ReflTransGen fun s s' => step s = some s'

/-- Reading ends in one way at most. -/
theorem Runs.unique {s u v : State} (hu : Runs s u) (hv : Runs s v) (hu' : step u = none)
    (hv' : step v = none) : u = v := by
  have hdet : Relator.RightUnique fun s s' : State => step s = some s' := by
    intro s a b ha hb
    exact Option.some.inj (ha.symm.trans hb)
  have hstop {a b : State} (ha : step a = none) (hab : Runs a b) : b = a := by
    rcases ReflTransGen.cases_head hab with heq | ⟨c, hc, -⟩
    · exact heq.symm
    · rw [ha] at hc
      cases hc
  rcases ReflTransGen.total_of_right_unique hdet hu hv with huv | hvu
  · exact (hstop hu' huv).symm
  · exact hstop hv' hvu

end Reader

namespace Term

open Reader

/-! ### Parentheses -/

variable {p q : Precedence} {t : Term} {text rest : List Char}

/-- A form that binds strongly enough has no parentheses. -/
theorem parenthesize_of_le (h : q.rank ≤ p.rank) (f : List Char → List Char) :
    parenthesize (needsParentheses q p) f rest = f rest := by
  rw [needsParentheses, decide_eq_false (Nat.not_lt.mpr h)]
  rfl

/-- A form that binds too weakly is put in parentheses. -/
theorem parenthesize_of_lt (h : p.rank < q.rank) (f : List Char → List Char) :
    parenthesize (needsParentheses q p) f rest = '(' :: f (')' :: rest) := by
  rw [needsParentheses, decide_eq_true h]
  rfl

/-- A function where any term may stand. -/
theorem write_function_lam (x : Label) (A b : Term) (rest : List Char) :
    (lam x A b).write .function rest =
      'λ' :: '(' :: x.toList ++ ' ' :: ':' :: ' ' ::
        A.write .function (')' :: ' ' :: '→' :: ' ' :: b.write .function rest) := by
  rw [write_lam, parenthesize_of_le (by decide)]

/-- A function type where any term may stand. -/
theorem write_function_pi (x : Label) (A b : Term) (rest : List Char) :
    (pi x A b).write .function rest =
      if x.isAnonymous then A.write .sum (' ' :: '→' :: ' ' :: b.write .function rest)
      else
        '∀' :: '(' :: x.toList ++ ' ' :: ':' :: ' ' ::
          A.write .function (')' :: ' ' :: '→' :: ' ' :: b.write .function rest) := by
  rw [write_pi, parenthesize_of_le (by decide)]

/-- An application where any term may stand. -/
theorem write_function_app (f a : Term) (rest : List Char) :
    (app f a).write .function rest = f.write .application (' ' :: a.write .enclosed rest) := by
  rw [write_app, parenthesize_of_le (by decide)]

/-- An annotation where any term may stand. -/
theorem write_function_annot (e A : Term) (rest : List Char) :
    (annot e A).write .function rest =
      e.write .sum (' ' :: ':' :: ' ' :: A.write .function rest) := by
  rw [write_annot, parenthesize_of_le (by decide)]

/-- An operation where any term may stand. -/
theorem write_function_arith (op : Operation) (l r : Term) (rest : List Char) :
    (arith op l r).write .function rest =
      l.write op.precedence
        (' ' :: op.sign.toList ++ ' ' :: r.write op.rightPrecedence rest) := by
  rw [write_arith, parenthesize_of_le (by cases op <;> decide)]

/-- An empty list where any term may stand. -/
theorem write_function_nil (A : Term) (rest : List Char) :
    (nil A).write .function rest = "[] : List ".toList ++ A.write .enclosed rest := by
  rw [write_nil, parenthesize_of_le (by decide)]

/-- A term is written in parentheses or not, and is otherwise written in the same way everywhere. -/
theorem write_eq (p : Precedence) (t : Term) (rest : List Char) :
    t.write p rest = parenthesize (needsParentheses t.precedence p) (t.write .function) rest := by
  cases t with
  | const c => exact (parenthesize_of_le (Nat.zero_le _) _).symm
  | var v => exact (parenthesize_of_le (Nat.zero_le _) _).symm
  | binder k x A b =>
    cases k with
    | lambda =>
      rw [write_lam, funext (write_function_lam x A b)]
      rfl
    | pi =>
      rw [write_pi, funext (write_function_pi x A b)]
      rfl
  | app f a =>
    rw [write_app, funext (write_function_app f a)]
    rfl
  | annot e A =>
    rw [write_annot, funext (write_function_annot e A)]
    rfl
  | arith op l r =>
    rw [write_arith, funext (write_function_arith op l r)]
    rfl
  | nil A =>
    rw [write_nil, funext (write_function_nil A)]
    rfl
  | list e es => rw [write_list, parenthesize_of_le (Nat.zero_le _), write_list]

/-- Where its precedence is not allowed, a term is written in parentheses. -/
theorem write_of_lt (h : p.rank < t.precedence.rank) (rest : List Char) :
    t.write p rest = '(' :: t.write .function (')' :: rest) := by
  rw [write_eq, parenthesize_of_lt h]

/-- Where its precedence is allowed, a term is written as where any term may stand. -/
theorem write_of_le (h : t.precedence.rank ≤ p.rank) (rest : List Char) :
    t.write p rest = t.write .function rest := by
  rw [write_eq, parenthesize_of_le h]

/-! ### How a text begins -/

/-- The term is written as a word, and can be read off from it. -/
def IsWritten (t : Term) (w : List Char) : Prop :=
  IsWord w ∧ readWord w = some t ∧ ∀ p rest, t.write p rest = w ++ rest

/-- A legible constant is written as a word from which it can be read off. -/
theorem isWritten_const {c : Constant} (h : (const c).Legible) : (const c).IsWritten c.display :=
  ⟨isWord_constant h, readWord_constant h, fun _ _ => rfl⟩

/-- A legible variable is written as a word from which it can be read off. -/
theorem isWritten_var {v : Var} (h : (var v).Legible) : (var v).IsWritten v.display.toList :=
  ⟨isWord_variable h, readWord_variable h, fun _ _ => rfl⟩

/-- A word begins an argument. -/
theorem IsWritten.startsArgument_write {w : List Char} (h : t.IsWritten w) (p : Precedence)
    (rest : List Char) : startsArgument (t.write p rest) = true := by
  obtain ⟨⟨hne, hchars, hplus⟩, -, htext⟩ := h
  obtain ⟨c, w, rfl⟩ := List.exists_cons_of_ne_nil hne
  have hc : isWordChar c = true := hchars c List.mem_cons_self
  rw [htext]
  cases w with
  | nil =>
    have hne : c ≠ '+' := by simpa using hplus
    simp [startsArgument, hc, hne]
  | cons d w =>
    -- After a sign the word goes on, so the sign is not that of an operation.
    have hd : d ≠ ' ' := by
      rintro rfl
      cases hchars ' ' (by simp)
    simp [startsArgument, hc, hd]

/-- What is written in an enclosed place begins like an argument. -/
theorem startsArgument_write (h : t.Legible) (rest : List Char) :
    startsArgument (t.write .enclosed rest) = true := by
  have hparen {u : Term} (hu : Precedence.enclosed.rank < u.precedence.rank) :
      startsArgument (u.write .enclosed rest) = true := by
    rw [write_of_lt hu]
    rfl
  cases t with
  | const c => exact (isWritten_const h).startsArgument_write _ rest
  | var v => exact (isWritten_var h).startsArgument_write _ rest
  | binder k x A b => exact hparen (Nat.succ_pos _)
  | app f a => exact hparen (Nat.succ_pos _)
  | annot e A => exact hparen (Nat.succ_pos _)
  | arith op l r => exact hparen (by cases op <;> exact Nat.succ_pos _)
  | nil A => exact hparen (Nat.succ_pos _)
  | list e es =>
    rw [write_list]
    rfl

/-- A word has a first character, which belongs to words. -/
theorem IsWritten.exists_head {w : List Char} (h : t.IsWritten w) (p : Precedence)
    (rest : List Char) : ∃ c cs, t.write p rest = c :: cs ∧ isWordChar c = true := by
  obtain ⟨⟨hne, hchars, -⟩, -, htext⟩ := h
  obtain ⟨c, w, rfl⟩ := List.exists_cons_of_ne_nil hne
  exact ⟨c, w ++ rest, htext p rest, hchars c List.mem_cons_self⟩

/-- A text begins with a parenthesis or as it does in a place that takes all terms. -/
theorem write_eq_or (p : Precedence) (t : Term) (rest : List Char) :
    (∃ cs, t.write p rest = '(' :: cs) ∨ t.write p rest = t.write .function rest := by
  by_cases h : p.rank < t.precedence.rank
  · exact .inl ⟨_, write_of_lt h rest⟩
  · exact .inr (write_of_le (Nat.le_of_not_lt h) rest)

/-- No text begins with a closing bracket. -/
theorem write_ne_closing (h : t.Legible) (p : Precedence) (rest cs : List Char) :
    t.write p rest ≠ ']' :: cs := by
  have hword {u : Term} {w : List Char} (hu : u.IsWritten w) (p : Precedence)
      (rest : List Char) : u.write p rest ≠ ']' :: cs := by
    obtain ⟨c, cs', heq, hc⟩ := hu.exists_head p rest
    rw [heq]
    rintro ⟨⟩
    cases hc
  induction t generalizing p rest with
  | const c => exact hword (isWritten_const h) p rest
  | var v => exact hword (isWritten_var h) p rest
  | binder k x A b ihA _ =>
    rcases write_eq_or p (.binder k x A b) rest with ⟨cs', heq⟩ | heq
    · simp [heq]
    · rw [heq]
      cases k with
      | lambda => simp [write_function_lam]
      | pi =>
        rw [write_function_pi]
        split
        · exact ihA h.2.1 _ _
        · simp
  | app f a ihf _ =>
    rcases write_eq_or p (.app f a) rest with ⟨cs', heq⟩ | heq
    · simp [heq]
    · rw [heq, write_function_app]
      exact ihf h.1 _ _
  | annot e A ihe _ =>
    rcases write_eq_or p (.annot e A) rest with ⟨cs', heq⟩ | heq
    · simp [heq]
    · rw [heq, write_function_annot]
      exact ihe h.1 _ _
  | arith op l r ihl _ =>
    rcases write_eq_or p (.arith op l r) rest with ⟨cs', heq⟩ | heq
    · simp [heq]
    · rw [heq, write_function_arith]
      exact ihl h.1 _ _
  | nil A _ =>
    rcases write_eq_or p (.nil A) rest with ⟨cs', heq⟩ | heq
    · simp [heq]
    · simp [heq, write_function_nil]
  | list e es _ _ => simp [write_list]

/-- The text is not that of a binding form or of an empty list. -/
def Plain (text : List Char) : Prop :=
  (∀ cs, text ≠ 'λ' :: cs) ∧ (∀ cs, text ≠ '∀' :: cs) ∧ ∀ cs, text ≠ '[' :: ']' :: cs

/-- A term in parentheses is not a binding form or an empty list. -/
theorem plain_open (cs : List Char) : Plain ('(' :: cs) := by simp [Plain]

/-- A word is not a binding form or an empty list. -/
theorem IsWritten.plain {w : List Char} (h : t.IsWritten w) (p : Precedence) (rest : List Char) :
    Plain (t.write p rest) := by
  obtain ⟨c, cs, heq, hc⟩ := h.exists_head p rest
  rw [heq]
  refine ⟨?_, ?_, ?_⟩ <;>
  · rintro _ ⟨⟩
    cases hc

/-- Annotations and functions bind more weakly than sums. -/
theorem sum_lt_rank (h : t.precedence = .ascription ∨ t.precedence = .function) :
    Precedence.sum.rank < t.precedence.rank := by
  rcases h with h | h <;> rw [h] <;> decide

/-- What is written in a place for sums begins with a word, a list or a parenthesis. -/
theorem plain_write (h : t.Legible) (hp : p.rank ≤ Precedence.sum.rank) (rest : List Char) :
    Plain (t.write p rest) := by
  have hloose {u : Term} {p : Precedence} (hp : p.rank ≤ Precedence.sum.rank)
      (hu : u.precedence = .ascription ∨ u.precedence = .function) (rest : List Char) :
      Plain (u.write p rest) := by
    rw [write_of_lt (Nat.lt_of_le_of_lt hp (sum_lt_rank hu))]
    exact plain_open _
  induction t generalizing p rest with
  | const c => exact (isWritten_const h).plain p rest
  | var v => exact (isWritten_var h).plain p rest
  | binder k x A b _ _ => exact hloose hp (.inr rfl) rest
  | app f a ihf _ =>
    rcases write_eq_or p (.app f a) rest with ⟨cs, heq⟩ | heq
    · rw [heq]
      exact plain_open cs
    · rw [heq, write_function_app]
      exact ihf h.1 (by decide) _
  | annot e A _ _ => exact hloose hp (.inl rfl) rest
  | arith op l r ihl _ =>
    rcases write_eq_or p (.arith op l r) rest with ⟨cs, heq⟩ | heq
    · rw [heq]
      exact plain_open cs
    · rw [heq, write_function_arith]
      exact ihl h.1 (by cases op <;> decide) _
  | nil A _ => exact hloose hp (.inl rfl) rest
  | list e es _ _ =>
    rw [write_list]
    refine ⟨by simp, by simp, fun cs heq => ?_⟩
    exact write_ne_closing h.1 _ _ _ (List.cons.inj heq).2

/-! ### What may follow a text -/

/-- Nothing in the text that follows goes on with a term of the given precedence. -/
structure Follows (p : Precedence) (rest : List Char) : Prop where
  word : ∀ c cs, rest = c :: cs → isWordChar c = false
  argument : Precedence.application.rank ≤ p.rank → ∀ cs, rest = ' ' :: cs →
    startsArgument cs = false
  operand : ∀ op : Operation, op.precedence.rank ≤ p.rank →
    skip (' ' :: op.sign.toList ++ [' ']) rest = none
  arrow : Precedence.function.rank ≤ p.rank → ∀ cs, rest ≠ ' ' :: '→' :: ' ' :: cs
  type : Precedence.function.rank ≤ p.rank → ∀ cs, rest ≠ ' ' :: ':' :: ' ' :: cs

/-- What does not go on with a term does not go on with one that binds more strongly. -/
theorem Follows.mono (h : Follows q rest) (hpq : p.rank ≤ q.rank) : Follows p rest where
  word := h.word
  argument hp := h.argument (Nat.le_trans hp hpq)
  operand op hp := h.operand op (Nat.le_trans hp hpq)
  arrow hp := h.arrow (Nat.le_trans hp hpq)
  type hp := h.type (Nat.le_trans hp hpq)

/-- A closing sign ends a term of any precedence. -/
theorem follows_closing {c : Char} (h : c = ')' ∨ c = ']' ∨ c = ',') (cs : List Char) :
    Follows p (c :: cs) := by
  have hword : isWordChar c = false := by
    rcases h with rfl | rfl | rfl <;> rfl
  have hblank : c ≠ ' ' := by
    rcases h with rfl | rfl | rfl <;> decide
  constructor
  · rintro _ _ ⟨⟩
    exact hword
  · rintro _ _ ⟨⟩
    exact absurd rfl hblank
  · intro op _
    exact if_neg hblank
  · rintro _ _ ⟨⟩
    exact hblank rfl
  · rintro _ _ ⟨⟩
    exact hblank rfl

/-- Nothing goes on with a term at the end of the text. -/
theorem follows_nil : Follows p [] where
  word := by simp
  argument := by simp
  operand op _ := rfl
  arrow := by simp
  type := by simp

/-- A blank ends an enclosed term. -/
theorem follows_blank (cs : List Char) : Follows .enclosed (' ' :: cs) where
  word := by
    rintro _ _ ⟨⟩
    decide
  argument h := absurd h (by decide)
  operand op h := by cases op <;> exact absurd h (by decide)
  arrow h := absurd h (by decide)
  type h := absurd h (by decide)

/-- The sign of an operation ends the operands of the operation. -/
theorem follows_sign (op : Operation) (cs : List Char) :
    Follows op.rightPrecedence (' ' :: op.sign.toList ++ ' ' :: cs) where
  word := by
    rintro _ _ ⟨⟩
    decide
  argument _ cs' h := by
    cases op <;> cases h <;> rfl
  operand op' h := by
    cases op <;> cases op' <;> first | rfl | exact absurd h (by decide)
  arrow h := by cases op <;> exact absurd h (by decide)
  type h := by cases op <;> exact absurd h (by decide)

/-- So does an arrow or a colon, for terms that stand before it. -/
theorem follows_mark {c : Char} (h : c = '→' ∨ c = ':') (cs : List Char) :
    Follows .sum (' ' :: c :: cs) where
  word := by
    rintro _ _ ⟨⟩
    decide
  argument _ cs' heq := by
    cases heq
    rcases h with rfl | rfl <;> rfl
  operand op _ := by
    rcases h with rfl | rfl <;> cases op <;> rfl
  arrow h := absurd h (by decide)
  type h := absurd h (by decide)

/-- A comma or a closing bracket does not go on with an element. -/
theorem follows_writeTail (es : List Term) (rest : List Char) :
    Follows p (writeTail es (']' :: rest)) := by
  cases es with
  | nil => exact follows_closing (by simp) rest
  | cons e es =>
    rw [writeTail_cons]
    exact follows_closing (by simp) _

/-! ### Reading what was written -/

/-- Where nothing goes on, a term is handed over. -/
theorem runs_head (t : Term) (K : List Frame) (h : Follows .application rest) :
    Runs ⟨.found t, .head :: K, rest⟩ ⟨.found t, K, rest⟩ := by
  apply ReflTransGen.single
  show resumeHead t K rest = some ⟨.found t, K, rest⟩
  unfold resumeHead
  split
  · rw [h.argument (by decide) _ rfl]
    rfl
  · rfl

/-- A term that is followed by no further operand is handed over as it is. -/
theorem runs_left (t : Term) (K : List Frame) {op : Operation} (h : Follows op.precedence rest) :
    Runs ⟨.found t, .left op :: K, rest⟩ ⟨.found t, K, rest⟩ := by
  apply ReflTransGen.single
  show resumeLeft op t K rest = some ⟨.found t, K, rest⟩
  rw [resumeLeft, h.operand op (Nat.le_refl _)]

/-- A term that is followed by no arrow and no colon is handed over as it is. -/
theorem runs_before (t : Term) (K : List Frame) (h : Follows .function rest) :
    Runs ⟨.found t, .before :: K, rest⟩ ⟨.found t, K, rest⟩ := by
  apply ReflTransGen.single
  show resumeBefore t K rest = some ⟨.found t, K, rest⟩
  unfold resumeBefore
  split
  · exact absurd rfl (h.arrow (by decide) _)
  · exact absurd rfl (h.type (by decide) _)
  · rfl

/-- A text that is not a binding form or an empty list begins with a sum. -/
theorem step_function_of_plain (h : Plain text) (K : List Frame) :
    step ⟨.function, K, text⟩ = some ⟨.arith .plus, .before :: K, text⟩ := by
  show beginFunction K text = _
  unfold beginFunction
  split
  · exact absurd rfl (h.1 _)
  · exact absurd rfl (h.2.1 _)
  · exact absurd rfl (h.2.2 _)
  · rfl

/-- The term is found where an enclosed term is expected. -/
def ReadsEnclosed (t : Term) : Prop :=
  ∀ K rest, Follows .enclosed rest →
    Runs ⟨.enclosed, K, t.write .enclosed rest⟩ ⟨.found t, K, rest⟩

/-- Where an application is expected, the term is found and may be applied to what comes next. -/
def ReadsApplication (t : Term) : Prop :=
  ∀ K rest, Follows .enclosed rest →
    Runs ⟨.application, K, t.write .application rest⟩ ⟨.found t, .head :: K, rest⟩

/-- Where a row of operands is expected, the term is found and may be the left operand of what comes
next. -/
def ReadsArith (op : Operation) (t : Term) : Prop :=
  ∀ K rest, Follows op.rightPrecedence rest →
    Runs ⟨.arith op, K, t.write op.precedence rest⟩ ⟨.found t, .left op :: K, rest⟩

/-- The term is found where an operand is expected. -/
def ReadsOperand (op : Operation) (t : Term) : Prop :=
  ∀ K rest, Follows op.rightPrecedence rest →
    Runs ⟨operand op, K, t.write op.rightPrecedence rest⟩ ⟨.found t, K, rest⟩

/-- The term is found where any term is expected. -/
def ReadsFunction (t : Term) : Prop :=
  ∀ K rest, Follows .function rest →
    Runs ⟨.function, K, t.write .function rest⟩ ⟨.found t, K, rest⟩

/-- The term is found wherever it is written. -/
structure Reads (t : Term) : Prop where
  enclosed : t.ReadsEnclosed
  application : t.ReadsApplication
  arith (op : Operation) : t.ReadsArith op
  function : t.ReadsFunction

/-! #### From one precedence to the next -/

/-- Two places make a difference only for terms that are loose enough for one and too loose for the
other. -/
theorem write_eq_write (h : p.rank < t.precedence.rank ↔ q.rank < t.precedence.rank)
    (rest : List Char) : t.write p rest = t.write q rest := by
  rw [write_eq p, write_eq q, needsParentheses, needsParentheses, decide_eq_decide.mpr h]

/-- A term in parentheses is found if the term is. -/
theorem ReadsFunction.enclosed (h : t.ReadsFunction) (ht : t.precedence ≠ .enclosed) :
    t.ReadsEnclosed := by
  intro K rest _
  have hlt : Precedence.enclosed.rank < t.precedence.rank := by
    revert ht
    cases t.precedence <;> decide
  rw [write_of_lt hlt]
  refine .head rfl (.trans (h (.parenthesis :: K) (')' :: rest) ?_) (.single rfl))
  exact follows_closing (.inl rfl) rest

/-- An application that consists of a function only is found if this is. -/
theorem ReadsEnclosed.application (h : t.ReadsEnclosed) (ht : t.precedence ≠ .application) :
    t.ReadsApplication := by
  intro K rest hrest
  have hplace : t.write .application rest = t.write .enclosed rest := by
    apply write_eq_write
    revert ht
    cases t.precedence <;> decide
  rw [hplace]
  exact .head rfl (h (.head :: K) rest hrest)

/-- An application is a factor. -/
theorem ReadsApplication.operand (h : t.ReadsApplication) : t.ReadsOperand .times := by
  intro K rest hrest
  exact (h K rest (hrest.mono (by decide))).trans (runs_head t K hrest)

/-- A product is a summand. -/
theorem ReadsArith.operand (h : t.ReadsArith .times) : t.ReadsOperand .plus := by
  intro K rest hrest
  exact (h K rest (hrest.mono (by decide))).trans (runs_left t K hrest)

/-- A row that consists of one operand is found if this is. -/
theorem ReadsOperand.arith {op : Operation} (h : t.ReadsOperand op)
    (ht : t.precedence ≠ op.precedence) : t.ReadsArith op := by
  intro K rest hrest
  have hplace : t.write op.precedence rest = t.write op.rightPrecedence rest := by
    apply write_eq_write
    revert ht
    cases op <;> cases t.precedence <;> decide
  rw [hplace]
  exact .head rfl (h (.left op :: K) rest hrest)

/-- A sum that nothing goes on with is found where any term is expected. -/
theorem ReadsArith.function (h : t.ReadsArith .plus) (hlegible : t.Legible)
    (ht : t.precedence.rank ≤ Precedence.sum.rank) : t.ReadsFunction := by
  intro K rest hrest
  have hplain := plain_write hlegible (p := .sum) (by decide) rest
  rw [← write_of_le ht]
  refine .head (step_function_of_plain hplain K) ?_
  refine .trans (h (.before :: K) rest (hrest.mono (by decide))) ?_
  exact .trans (runs_left t (.before :: K) (hrest.mono (by decide))) (runs_before t K hrest)

/-- A term that is read as an application or tighter is read everywhere. -/
theorem Reads.of_application (h : t.ReadsApplication) (hlegible : t.Legible)
    (ht : t.precedence.rank ≤ Precedence.application.rank)
    (henclosed : t.ReadsFunction → t.ReadsEnclosed) : Reads t := by
  have hne (op : Operation) : t.precedence ≠ op.precedence := by
    intro heq
    rw [heq] at ht
    revert ht
    cases op <;> decide
  have htimes := h.operand.arith (hne .times)
  have hplus := htimes.operand.arith (hne .plus)
  have hfunction := hplus.function hlegible (Nat.le_trans ht (by decide))
  refine ⟨henclosed hfunction, h, fun op => ?_, hfunction⟩
  cases op with
  | plus => exact hplus
  | times => exact htimes

/-- An enclosed term is found at each precedence, if it is found as such. -/
theorem Reads.of_enclosed (h : t.ReadsEnclosed) (hlegible : t.Legible)
    (ht : t.precedence = .enclosed) : Reads t := by
  have happlication := h.application (by simp [ht])
  exact .of_application happlication hlegible (by simp [ht, Precedence.rank]) fun _ => h

/-- An operation is found at each precedence, if it is found as a row of operands. -/
theorem Reads.of_arith {op : Operation} (h : t.ReadsArith op) (hlegible : t.Legible)
    (ht : t.precedence = op.precedence) : Reads t := by
  have hne : t.precedence ≠ .enclosed ∧ t.precedence ≠ .application := by
    rw [ht]
    cases op <;> decide
  cases op with
  | plus =>
    have hfunction := h.function hlegible (by rw [ht]; decide)
    have henclosed := hfunction.enclosed hne.1
    have happlication := henclosed.application hne.2
    refine ⟨henclosed, happlication, fun op => ?_, hfunction⟩
    cases op with
    | plus => exact h
    | times => exact happlication.operand.arith (by rw [ht]; decide)
  | times =>
    have hplus := h.operand.arith (by rw [ht]; decide)
    have hfunction := hplus.function hlegible (by rw [ht]; decide)
    have henclosed := hfunction.enclosed hne.1
    refine ⟨henclosed, henclosed.application hne.2, fun op => ?_, hfunction⟩
    cases op with
    | plus => exact hplus
    | times => exact h

/-- An annotation or function is found at each precedence, if it is found where any term may
stand. -/
theorem Reads.of_function (h : t.ReadsFunction)
    (ht : t.precedence = .ascription ∨ t.precedence = .function) : Reads t := by
  have hne {q : Precedence} (hq : q.rank ≤ Precedence.sum.rank) : t.precedence ≠ q := by
    rintro rfl
    exact Nat.not_lt.mpr hq (sum_lt_rank ht)
  have henclosed := h.enclosed (hne (by decide))
  have happlication := henclosed.application (hne (by decide))
  have htimes := happlication.operand.arith (hne (by decide))
  refine ⟨henclosed, happlication, fun op => ?_, h⟩
  cases op with
  | plus => exact htimes.operand.arith (hne (by decide))
  | times => exact htimes

/-! #### The constructs -/

/-- A word ends at the next character that is not part of a word. -/
theorem span_word {w : List Char} (hw : IsWord w) (hrest : Follows .enclosed rest) :
    (w ++ rest).takeWhile isWordChar = w ∧ (w ++ rest).dropWhile isWordChar = rest := by
  obtain ⟨-, hchars, -⟩ := hw
  rw [List.takeWhile_append_of_pos hchars, List.dropWhile_append_of_pos hchars]
  cases rest with
  | nil => simp
  | cons c cs => simp [hrest.word c cs rfl]

/-- A word is found. -/
theorem IsWritten.reads {w : List Char} (h : t.IsWritten w) : t.ReadsEnclosed := by
  intro K rest hrest
  obtain ⟨c, cs, heq, hc⟩ := h.exists_head .enclosed rest
  obtain ⟨hw, hread, htext⟩ := h
  obtain ⟨htake, hdrop⟩ := span_word hw hrest
  rw [← htext .enclosed, heq] at htake hdrop
  rw [heq]
  apply ReflTransGen.single
  show beginEnclosed K (c :: cs) = some ⟨.found t, K, rest⟩
  unfold beginEnclosed
  split
  case h_1 hopen =>
    cases hopen
    cases hc
  case h_2 hopen =>
    cases hopen
    cases hc
  case h_3 =>
    rw [htake, hdrop, hread]
    rfl

/-- The remaining elements of a list literal are read one after another. -/
theorem runs_elements (e : Term) (before : List Term) {es : List Term}
    (h : ∀ e' ∈ es, e'.Reads) (K : List Frame) (rest : List Char) :
    ∃ s, resumeElement e before K (writeTail es (']' :: rest)) = some s ∧
      Runs s ⟨.found (.list e (before ++ es)), K, rest⟩ := by
  induction es generalizing before with
  | nil =>
    refine ⟨_, rfl, ?_⟩
    rw [List.append_nil]
  | cons e' es ih =>
    rw [writeTail_cons]
    refine ⟨_, rfl, ?_⟩
    obtain ⟨s, hs, hrun⟩ := ih (before ++ [e']) fun e'' he'' => h e'' (by simp [he''])
    rw [List.append_assoc, List.singleton_append] at hrun
    refine .trans ((h e' (by simp)).function _ _ (follows_writeTail es rest)) ?_
    exact .head hs hrun

/-- A list literal is found if its elements are. -/
theorem reads_list {e : Term} {es : List Term} (he : e.Reads) (hes : ∀ e' ∈ es, e'.Reads) :
    (list e es).ReadsEnclosed := by
  intro K rest _
  obtain ⟨s, hs, hrun⟩ := runs_elements e [] hes K rest
  rw [write_list]
  refine .head rfl (.trans (he.function (.first :: K) _ (follows_writeTail es rest)) ?_)
  exact .head hs hrun

/-- An application is found if function and argument are. -/
theorem reads_app {f a : Term} (hf : f.Reads) (ha : a.Reads) (hlegible : a.Legible) :
    (app f a).ReadsApplication := by
  intro K rest hrest
  rw [write_app, parenthesize_of_le (Nat.le_refl _)]
  refine .trans (hf.application K _ (follows_blank _)) ?_
  have hstep : step ⟨.found f, .head :: K, ' ' :: a.write .enclosed rest⟩ =
      some ⟨.enclosed, .argument f :: K, a.write .enclosed rest⟩ :=
    if_pos (startsArgument_write hlegible rest)
  exact .head hstep (.trans (ha.enclosed (.argument f :: K) rest hrest) (.single rfl))

/-- An operation is found if its operands are. -/
theorem reads_arith {op : Operation} {l r : Term} (hl : l.Reads) (hr : r.ReadsOperand op) :
    (arith op l r).ReadsArith op := by
  intro K rest hrest
  have hsign : ' ' :: op.sign.toList ++ ' ' :: r.write op.rightPrecedence rest =
      (' ' :: op.sign.toList ++ [' ']) ++ r.write op.rightPrecedence rest := by simp
  rw [write_arith, parenthesize_of_le (Nat.le_refl _)]
  refine .trans (hl.arith op K _ (follows_sign op _)) ?_
  have hstep : step ⟨.found l, .left op :: K,
      ' ' :: op.sign.toList ++ ' ' :: r.write op.rightPrecedence rest⟩ =
        some ⟨operand op, .right op l :: K, r.write op.rightPrecedence rest⟩ := by
    show resumeLeft op l K _ = _
    rw [hsign, resumeLeft, skip_append]
  exact .head hstep (.trans (hr (.right op l :: K) rest hrest) (.single rfl))

/-- A term that is found wherever it is written is found as an operand. -/
theorem Reads.operand (h : t.Reads) (op : Operation) : t.ReadsOperand op := by
  cases op with
  | plus => exact (h.arith .times).operand
  | times => exact h.application.operand

/-- A term that stands before an arrow or a colon is read up to there. -/
theorem Reads.before (h : t.Reads) (hlegible : t.Legible) {c : Char} (hc : c = '→' ∨ c = ':')
    (K : List Frame) (cs : List Char) :
    Runs ⟨.function, K, t.write .sum (' ' :: c :: cs)⟩
      ⟨.found t, .before :: K, ' ' :: c :: cs⟩ := by
  have hfollows := follows_mark hc cs
  refine .head (step_function_of_plain (plain_write hlegible (by decide) _) K) ?_
  exact .trans (h.arith .plus _ _ (hfollows.mono (by decide))) (runs_left t _ hfollows)

/-- An annotation is found if its parts are. -/
theorem reads_annot {e A : Term} (he : e.Reads) (hA : A.Reads) (hlegible : e.Legible) :
    (annot e A).ReadsFunction := by
  intro K rest hrest
  rw [write_function_annot]
  refine .trans (he.before hlegible (.inr rfl) K _) ?_
  exact .head rfl (.trans (hA.function (.ascribed e :: K) rest hrest) (.single rfl))

/-- A function type with the anonymous label is found if its parts are. -/
theorem reads_arrow {A b : Term} (hA : A.Reads) (hb : b.Reads) (hlegible : A.Legible) :
    (pi .anonymous A b).ReadsFunction := by
  intro K rest hrest
  rw [write_function_pi, if_pos (by simp)]
  refine .trans (hA.before hlegible (.inl rfl) K _) ?_
  exact .head rfl (.trans (hb.function (.target A :: K) rest hrest) (.single rfl))

/-- A binding form after its first sign. -/
theorem runs_binder (k : Binder) {x : Label} {A b : Term} (hx : x.IsIdentifier) (hA : A.Reads)
    (hb : b.Reads) (K : List Frame) {rest : List Char} (hrest : Follows .function rest) :
    ∃ s, beginBinder k K ('(' :: x.toList ++ ' ' :: ':' :: ' ' ::
        A.write .function (')' :: ' ' :: '→' :: ' ' :: b.write .function rest)) = some s ∧
      Runs s ⟨.found (.binder k x A b), K, rest⟩ := by
  obtain ⟨htake, hdrop⟩ := span_word hx.isWord (follows_blank (':' :: ' ' ::
    A.write .function (')' :: ' ' :: '→' :: ' ' :: b.write .function rest)))
  refine ⟨⟨.function, .domain k x :: K,
    A.write .function (')' :: ' ' :: '→' :: ' ' :: b.write .function rest)⟩, ?_, ?_⟩
  · simp [beginBinder, skip, htake, hdrop]
  · refine .trans (hA.function _ _ (follows_closing (.inl rfl) _)) (.head rfl ?_)
    exact .trans (hb.function (.body k x A :: K) rest hrest) (.single rfl)

/-- A binding form with a label is found if its parts are. -/
theorem reads_binder (k : Binder) {x : Label} {A b : Term} (hx : x.IsIdentifier) (hA : A.Reads)
    (hb : b.Reads) (hlegible : A.Legible) : (binder k x A b).ReadsFunction := by
  intro K rest hrest
  obtain ⟨s, hs, hrun⟩ := runs_binder k hx hA hb K hrest
  cases k with
  | lambda =>
    rw [write_function_lam]
    exact .head hs hrun
  | pi =>
    by_cases hanonymous : x = .anonymous
    · subst hanonymous
      exact reads_arrow hA hb hlegible K rest hrest
    · rw [write_function_pi, if_neg (by simp [hanonymous])]
      exact .head hs hrun

/-- An empty list is found if its element type is. -/
theorem reads_nil {A : Term} (hA : A.Reads) : (nil A).ReadsFunction := by
  intro K rest hrest
  rw [write_function_nil]
  refine .head rfl (.trans (hA.enclosed (.elementType :: K) rest ?_) (.single rfl))
  exact hrest.mono (by decide)

/-- A legible term is found wherever it is written. -/
theorem reads (h : t.Legible) : t.Reads := by
  induction t with
  | const c => exact .of_enclosed (isWritten_const h).reads h rfl
  | var v => exact .of_enclosed (isWritten_var h).reads h rfl
  | binder k x A b ihA ihb =>
    obtain ⟨hx, hA, hb⟩ := h
    exact .of_function (reads_binder k hx (ihA hA) (ihb hb) hA) (.inr rfl)
  | app f a ihf iha =>
    obtain ⟨hf, ha⟩ := h
    refine .of_application (reads_app (ihf hf) (iha ha) ha) ⟨hf, ha⟩ (Nat.le_refl _) fun happ => ?_
    exact happ.enclosed (by simp [precedence])
  | annot e A ihe ihA => exact .of_function (reads_annot (ihe h.1) (ihA h.2) h.1) (.inl rfl)
  | arith op l r ihl ihr => exact .of_arith (reads_arith (ihl h.1) ((ihr h.2).operand op)) h rfl
  | nil A ihA => exact .of_function (reads_nil (ihA h)) (.inl rfl)
  | list e es ihe ihes =>
    have hes : ∀ e' ∈ es, e'.Reads := fun e' he' => ihes e' he' (legibleAll_iff.mp h.2 e' he')
    exact .of_enclosed (reads_list (ihe h.1) hes) h rfl

/-- **The reading form is unambiguous.** Two terms without double literals, whose labels and
variable names are identifiers other than the reserved words, have the same reading form only if
they are the same term. -/
theorem display_unambiguous {a b : Term} (ha : a.Legible) (hb : b.Legible) :
    a.display = b.display ↔ a = b := by
  constructor
  · intro h
    have htext : a.write .function [] = b.write .function [] := String.ofList_injective h
    have hreadA := (reads ha).function [] [] follows_nil
    have hreadB := (reads hb).function [] [] follows_nil
    rw [htext] at hreadA
    have hfound := congrArg State.task (hreadA.unique hreadB rfl rfl)
    exact Task.found.inj hfound
  · rintro rfl
    rfl

/-- `x +3`, the function `x` applied to an integer. -/
def applied : Term := .app (.var (.nearest "x")) (.const (.integer 3))

/-- `x + 3`, a sum of naturals. -/
def added : Term := .arith .plus (.var (.nearest "x")) (.natural 3)

/-- A blank tells the sign of a sum from that of an integer. -/
theorem display_unambiguous_signs :
    (applied.Legible ∧ applied.display = "x +3") ∧ (added.Legible ∧ added.display = "x + 3") ∧
      applied.display ≠ added.display := by
  have hx : Label.IsIdentifier "x" := ⟨⟨'x', [], rfl, by decide, by simp⟩, by decide⟩
  have happlied : applied.Legible := ⟨hx, by simp⟩
  have hadded : added.Legible := ⟨hx, by simp⟩
  have hne : applied ≠ added := by decide
  exact ⟨⟨happlied, by decide +kernel⟩, ⟨hadded, by decide +kernel⟩,
    mt (display_unambiguous happlied hadded).mp hne⟩

end Term

end Trisort
