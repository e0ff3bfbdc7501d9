import Trisort.Term.Display

/-!
# Words

Constants and variables are written as single words. `Trisort.readWord` finds the constant or
variable that a word denotes: the first character tells a literal with a sign, a literal without one
and a name apart, and names that are not reserved are those of variables. It undoes writing for all
constants except the double literals (`readWord_constant`) and for all variables whose names are
identifiers (`readWord_variable`).
-/

namespace Trisort

/-- The characters of constants and variables. -/
def isWordChar (c : Char) : Bool := c.isAlphanum || c == '_' || c == '@' || c == '+' || c == '-'

/-- The words that denote constants. -/
def reservedWords : List String :=
  ["Type", "Kind", "Sort", "Double", "Bool", "Natural", "Integer", "List", "True", "False"]

/-- The label is a letter or an underscore, followed by letters, digits and underscores, and not a
reserved word. -/
def Label.IsIdentifier (x : Label) : Prop :=
  (∃ c cs, x.toList = c :: cs ∧ (c.isAlpha ∨ c = '_') ∧ ∀ d ∈ cs, d.isAlphanum ∨ d = '_') ∧
    x ∉ reservedWords

/-- The constants that are not literals of numbers. -/
def Constant.named : List Constant :=
  [.univ .type, .univ .kind, .univ .sort, .doubleType, .boolType, .naturalType, .integerType,
    .listType, .bool true, .bool false]

/-- The number with the given decimal digits. -/
def readDecimal (ds : List Char) : Nat := Nat.ofDigitChars 10 ds 0

/-- The variable that a word denotes: a name, and an index if it is not zero. -/
def readVariable (w : List Char) : Option Term :=
  let i := readDecimal ((w.dropWhile (· ≠ '@')).drop 1)
  if h : i < Var.indexBound then
    some (.var ⟨String.ofList (w.takeWhile (· ≠ '@')), i, h⟩)
  else none

/-- The constant or variable that a word denotes. -/
def readWord : List Char → Option Term
  | [] => none
  | c :: w =>
    if c = '+' then some (.const (.integer (.ofInt (readDecimal w))))
    else if c = '-' then some (.const (.integer (.ofInt (-readDecimal w))))
    else if c.isDigit then some (.natural (.ofNat (readDecimal (c :: w))))
    else match Constant.named.find? (·.display = c :: w) with
      | some k => some (.const k)
      | none => readVariable (c :: w)

/-! ### Numerals -/

/-- A number is written in decimal digits. -/
theorem toList_toString (n : Nat) : (toString n).toList = Nat.toDigits 10 n := by
  rw [Nat.toString_eq_ofList_toDigits, String.toList_ofList]

/-- A number is written with digits only. -/
theorem isDigit_of_mem_toString {n : Nat} {c : Char} (h : c ∈ (toString n).toList) :
    c.isDigit = true := by
  rw [toList_toString] at h
  exact Nat.isDigit_of_mem_toDigits (by decide) (by decide) h

/-- A number is read as it is written. -/
theorem readDecimal_toString (n : Nat) : readDecimal (toString n).toList = n := by
  rw [toList_toString]
  exact Nat.ofDigitChars_ten_toDigits

/-- A number has a digit. -/
theorem toString_ne_nil (n : Nat) : (toString n).toList ≠ [] := by
  rw [toList_toString]
  exact Nat.toDigits_ne_nil

/-- Digits belong to words. -/
theorem isWordChar_of_isDigit {c : Char} (h : c.isDigit = true) : isWordChar c = true := by
  simp [isWordChar, Char.isAlphanum, h]

/-- Letters, digits and underscores belong to words. -/
theorem isWordChar_of_isAlphanum {c : Char} (h : c.isAlphanum = true ∨ c = '_') :
    isWordChar c = true := by
  rcases h with h | rfl
  · simp [isWordChar, h]
  · rfl

/-- An integer that is not negative is written as a natural number. -/
theorem toString_of_nonneg {i : Int} (h : 0 ≤ i) : toString i = toString i.toNat := by
  obtain ⟨n, rfl⟩ := Int.eq_ofNat_of_zero_le h
  rfl

/-- A negative integer is written as a natural number after a minus sign. -/
theorem toString_of_neg {i : Int} (h : i < 0) : toString i = "-" ++ toString (-i).toNat := by
  obtain ⟨n, rfl⟩ := Int.eq_negSucc_of_lt_zero h
  rfl

/-! ### Reading a word -/

/-- The constants other than literals of numbers are written as the reserved words. -/
theorem display_named : Constant.named.map Constant.display = reservedWords.map String.toList := by
  decide

/-- A word that is not reserved is not a constant's name. -/
theorem find_named_eq_none {w : List Char} (h : String.ofList w ∉ reservedWords) :
    Constant.named.find? (·.display = w) = none := by
  rw [List.find?_eq_none]
  intro k hk hdisplay
  have hmem : w ∈ reservedWords.map String.toList := by
    rw [← display_named, ← of_decide_eq_true hdisplay]
    exact List.mem_map_of_mem hk
  obtain ⟨x, hx, rfl⟩ := List.mem_map.mp hmem
  rw [String.ofList_toList] at h
  exact h hx

/-- A word that begins with a digit denotes a natural literal. -/
theorem readWord_of_isDigit {c : Char} (h : c.isDigit = true) (w : List Char) :
    readWord (c :: w) = some (.natural (.ofNat (readDecimal (c :: w)))) := by
  have hplus : c ≠ '+' := by
    rintro rfl
    cases h
  have hminus : c ≠ '-' := by
    rintro rfl
    cases h
  simp only [readWord, if_neg hplus, if_neg hminus, if_pos h]

/-- A natural literal is read as it is written. -/
theorem readWord_natural (n : UInt64) :
    readWord (Constant.natural n).display = some (.natural n) := by
  show readWord (toString n.toNat).toList = some (.natural n)
  obtain ⟨c, w, hcw⟩ := List.exists_cons_of_ne_nil (toString_ne_nil n.toNat)
  have hdigit : c.isDigit = true := by
    apply isDigit_of_mem_toString (n := n.toNat)
    rw [hcw]
    exact List.mem_cons_self
  rw [hcw, readWord_of_isDigit hdigit, ← hcw, readDecimal_toString, UInt64.ofNat_toNat]

/-- An integer literal always has a sign. -/
theorem Constant.display_integer (i : Int64) :
    (integer i).display =
      if 0 ≤ i.toInt then '+' :: (toString i.toInt).toList else (toString i.toInt).toList := rfl

/-- An integer literal is read as it is written. -/
theorem readWord_integer (i : Int64) :
    readWord (Constant.integer i).display = some (.const (.integer i)) := by
  rw [Constant.display_integer]
  by_cases h : 0 ≤ i.toInt
  · rw [if_pos h, toString_of_nonneg h]
    show some (Term.const (.integer (.ofInt (readDecimal (toString i.toInt.toNat).toList)))) = _
    rw [readDecimal_toString, Int.toNat_of_nonneg h, Int64.ofInt_toInt]
  · rw [if_neg h, toString_of_neg (Int.lt_of_not_ge h), String.toList_append]
    show some (Term.const (.integer (.ofInt (-readDecimal (toString (-i.toInt).toNat).toList)))) = _
    have hneg : -((-i.toInt).toNat : Int) = i.toInt := by omega
    rw [readDecimal_toString, hneg, Int64.ofInt_toInt]

/-- A constant is read as it is written, unless it is a double literal. -/
theorem readWord_constant {c : Constant} (h : ∀ x, c ≠ .double x) :
    readWord c.display = some (.const c) := by
  cases c with
  | double x => exact absurd rfl (h x)
  | natural n => exact readWord_natural n
  | integer i => exact readWord_integer i
  | univ u => cases u <;> rfl
  | bool b => cases b <;> rfl
  | _ => rfl

/-- The name of a variable is what precedes the sign for an index. -/
theorem ne_at_of_mem {x : Label} (h : x.IsIdentifier) {c : Char} (hc : c ∈ x.toList) : c ≠ '@' := by
  obtain ⟨⟨d, ds, hx, hd, hds⟩, -⟩ := h
  rintro rfl
  rw [hx, List.mem_cons] at hc
  rcases hc with rfl | hc
  · revert hd
    decide
  · have := hds _ hc
    revert this
    decide

/-- A variable is read from its name and the digits behind the `@`. -/
theorem readVariable_eq {w : List Char} {v : Var} (hname : w.takeWhile (· ≠ '@') = v.name.toList)
    (hindex : readDecimal ((w.dropWhile (· ≠ '@')).drop 1) = v.index) :
    readVariable w = some (.var v) := by
  have hlt : readDecimal ((w.dropWhile (· ≠ '@')).drop 1) < Var.indexBound := by
    rw [hindex]
    exact v.index_lt
  have hv : (⟨String.ofList (w.takeWhile (· ≠ '@')), _, hlt⟩ : Var) = v := by
    refine Var.ext ?_ hindex
    exact (congrArg String.ofList hname).trans String.ofList_toList
  show dite _ _ _ = _
  rw [dif_pos hlt, hv]

/-- A variable is read as it is written, if its name is an identifier. -/
theorem readVariable_display {v : Var} (h : v.name.IsIdentifier) :
    readVariable v.display.toList = some (.var v) := by
  have htake (rest : List Char) : (v.name.toList ++ rest).takeWhile (· ≠ '@') =
      v.name.toList ++ rest.takeWhile (· ≠ '@') :=
    List.takeWhile_append_of_pos fun c hc => by simpa using ne_at_of_mem h hc
  have hdrop (rest : List Char) : (v.name.toList ++ rest).dropWhile (· ≠ '@') =
      rest.dropWhile (· ≠ '@') :=
    List.dropWhile_append_of_pos fun c hc => by simpa using ne_at_of_mem h hc
  unfold Var.display
  split
  case isTrue hindex =>
    rw [← List.append_nil v.name.toList]
    apply readVariable_eq
    · rw [htake, List.takeWhile_nil, List.append_nil]
    · rw [hdrop, List.dropWhile_nil, hindex]
      rfl
  case isFalse hindex =>
    have htext : (v.name ++ "@" ++ toString v.index).toList =
        v.name.toList ++ '@' :: (toString v.index).toList := by
      simp only [String.toList_append, List.append_assoc]
      rfl
    rw [htext]
    apply readVariable_eq
    · rw [htake, List.takeWhile_cons_of_neg (by decide), List.append_nil]
    · rw [hdrop, List.dropWhile_cons_of_neg (by decide)]
      exact readDecimal_toString v.index

/-- No reserved word is the text of a variable with an identifier for its name. -/
theorem display_notMem_reservedWords {v : Var} (h : v.name.IsIdentifier) :
    v.display ∉ reservedWords := by
  unfold Var.display
  split
  · exact h.2
  · intro hmem
    -- An index is announced by a sign that no reserved word has.
    have hat : ∀ x ∈ reservedWords, '@' ∉ x.toList := by decide
    apply hat _ hmem
    simp [String.toList_append]

/-- No digit begins an identifier. -/
theorem not_isDigit {c : Char} (h : c.isAlpha = true ∨ c = '_') : ¬ c.isDigit = true := by
  rw [Char.isDigit_iff_toNat]
  -- The digits come before the capital letters, and these before the small ones.
  have hcapital : '9'.toNat < 'A'.toNat := by decide
  have hsmall : '9'.toNat < 'a'.toNat := by decide
  rcases h with h | rfl
  · rcases (Bool.or_eq_true _ _).mp h with hupper | hlower
    · have hle : 'A'.toNat ≤ c.toNat := (of_decide_eq_true hupper).1
      omega
    · have hle : 'a'.toNat ≤ c.toNat := of_decide_eq_true ((Bool.and_eq_true _ _).mp hlower).1
      omega
  · decide

/-- A word for a variable is not taken for a constant. -/
theorem readWord_variable {v : Var} (h : v.name.IsIdentifier) :
    readWord v.display.toList = some (.var v) := by
  obtain ⟨c, w, hcw, hc⟩ : ∃ c w, v.display.toList = c :: w ∧ (c.isAlpha ∨ c = '_') := by
    obtain ⟨⟨c, cs, hx, hc, -⟩, -⟩ := h
    unfold Var.display
    split
    · exact ⟨c, cs, hx, hc⟩
    · exact ⟨c, _, by simp only [String.toList_append, hx, List.cons_append]; rfl, hc⟩
  have hplus : c ≠ '+' := by
    rintro rfl
    revert hc
    decide
  have hminus : c ≠ '-' := by
    rintro rfl
    revert hc
    decide
  have hdigit : ¬ c.isDigit = true := not_isDigit hc
  have hnamed := find_named_eq_none (w := c :: w) (by
    rw [← hcw, String.ofList_toList]
    exact display_notMem_reservedWords h)
  rw [hcw]
  simp only [readWord, if_neg hplus, if_neg hminus, if_neg hdigit, hnamed]
  rw [← hcw, readVariable_display h]

/-! ### The form of words -/

/-- The text is a word that is not the sign of an operation. -/
def IsWord (w : List Char) : Prop :=
  w ≠ [] ∧ (∀ c ∈ w, isWordChar c = true) ∧ w ≠ ['+']

/-- A number is written as a word. -/
theorem isWord_toString (n : Nat) : IsWord (toString n).toList := by
  refine ⟨toString_ne_nil n, fun c hc => isWordChar_of_isDigit (isDigit_of_mem_toString hc), ?_⟩
  intro h
  have hplus : ('+' : Char).isDigit = true :=
    isDigit_of_mem_toString (n := n) (by rw [h]; exact List.mem_cons_self)
  cases hplus

/-- A sign in front of a numeral makes a word. -/
theorem isWord_signed {c : Char} (h : isWordChar c = true) (n : Nat) :
    IsWord (c :: (toString n).toList) := by
  refine ⟨List.cons_ne_nil _ _, List.forall_mem_cons.mpr ⟨h, (isWord_toString n).2.1⟩, ?_⟩
  intro heq
  exact toString_ne_nil n (List.cons.inj heq).2

/-- A constant is written as a word, unless it is a double literal. -/
theorem isWord_constant {c : Constant} (h : ∀ x, c ≠ .double x) : IsWord c.display := by
  cases c with
  | double x => exact absurd rfl (h x)
  | natural n => exact isWord_toString n.toNat
  | integer i =>
    rw [Constant.display_integer]
    by_cases h : 0 ≤ i.toInt
    · rw [if_pos h, toString_of_nonneg h]
      exact isWord_signed rfl _
    · rw [if_neg h, toString_of_neg (Int.lt_of_not_ge h), String.toList_append]
      exact isWord_signed rfl _
  | univ u => cases u <;> exact ⟨by decide, List.all_eq_true.mp rfl, by decide⟩
  | bool b => cases b <;> exact ⟨by decide, List.all_eq_true.mp rfl, by decide⟩
  | _ => exact ⟨by decide, List.all_eq_true.mp rfl, by decide⟩

/-- An identifier is a word. -/
theorem Label.IsIdentifier.isWord {x : Label} (h : x.IsIdentifier) : IsWord x.toList := by
  obtain ⟨⟨c, cs, hx, hc, hcs⟩, -⟩ := h
  rw [hx]
  have hhead : isWordChar c = true := by
    rcases hc with hc | rfl
    · simp [isWordChar, Char.isAlphanum, hc]
    · rfl
  refine ⟨List.cons_ne_nil _ _, ?_, ?_⟩
  · exact List.forall_mem_cons.mpr ⟨hhead, fun d hd => isWordChar_of_isAlphanum (hcs d hd)⟩
  · rintro heq
    obtain ⟨rfl, -⟩ := List.cons.inj heq
    revert hc
    decide

/-- A variable is written as a word, if its name is an identifier. -/
theorem isWord_variable {v : Var} (h : v.name.IsIdentifier) : IsWord v.display.toList := by
  obtain ⟨hne, hchars, hplus⟩ := h.isWord
  unfold Var.display
  split
  · exact ⟨hne, hchars, hplus⟩
  · rw [String.toList_append, String.toList_append, List.append_assoc]
    refine ⟨by simp [hne], ?_, ?_⟩
    · simp only [List.forall_mem_append]
      exact ⟨hchars, List.all_eq_true.mp rfl, (isWord_toString v.index).2.1⟩
    · intro heq
      have hlength := congrArg List.length heq
      have hname := List.length_pos_iff.mpr hne
      simp only [List.length_append, List.length_cons, List.length_nil] at hlength
      have hat : "@".toList.length = 1 := rfl
      omega

end Trisort
