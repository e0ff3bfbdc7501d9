import Trisort.Settings
import Trisort.Outcome
import Mathlib.Data.List.TakeWhile

/-!
# The values that settings accept

A depth is a decimal numeral of a positive number in range, a verbosity is one of six words in
either case, and white space may stand around both. The grammar is said here on its own, without
the functions that read: `Trims`, `IsNumeral`, `IsDepth` and `IsVerbosity` are statements about the
characters of a value. Each reading function is shown to accept its part of the grammar, and
`read_accepts_exactly` puts them together: which sources give settings, which settings they give,
and which key is blamed where they give none.
-/

namespace Trisort

namespace Text

/-! ### White space around a text -/

/-- The code points with the property `White_Space`. -/
def whiteSpace : List Nat :=
  [0x9, 0xa, 0xb, 0xc, 0xd, 0x20, 0x85, 0xa0, 0x1680, 0x2000, 0x2001, 0x2002, 0x2003, 0x2004,
    0x2005, 0x2006, 0x2007, 0x2008, 0x2009, 0x200a, 0x2028, 0x2029, 0x202f, 0x205f, 0x3000]

/-- The test for blanks finds the characters with the property `White_Space`, and no others. -/
theorem isBlank_iff {c : Char} : isBlank c = true ↔ c.toNat ∈ whiteSpace := by
  simp only [isBlank, whiteSpace, Bool.or_eq_true, Bool.and_eq_true, decide_eq_true_eq,
    List.mem_cons, List.not_mem_nil, or_false]
  omega

/-- The text `s` is all of `value` but for white space around it, and has none at its own ends. -/
structure Trims (value s : List Char) : Prop where
  around : ∃ before after, value = before ++ s ++ after ∧
    (∀ c ∈ before, c.toNat ∈ whiteSpace) ∧ ∀ c ∈ after, c.toNat ∈ whiteSpace
  first : ∀ c ∈ s.head?, c.toNat ∉ whiteSpace
  last : ∀ c ∈ s.getLast?, c.toNat ∉ whiteSpace

/-- Nothing is dropped from a text that does not begin with white space. -/
theorem dropWhile_isBlank_of_head {s : List Char} (h : ∀ c ∈ s.head?, c.toNat ∉ whiteSpace) :
    s.dropWhile isBlank = s := by
  cases s with
  | nil => rfl
  | cons c s => exact List.dropWhile_cons_of_neg (mt isBlank_iff.mp (h c rfl))

/-- Once blanks have been dropped, the text does not begin with white space. -/
theorem not_whiteSpace_of_head_dropWhile {s : List Char} {c : Char}
    (h : c ∈ (s.dropWhile isBlank).head?) : c.toNat ∉ whiteSpace := by
  have hc := List.head?_dropWhile_not isBlank s
  rw [Option.mem_def.mp h] at hc
  rw [← isBlank_iff, hc]
  exact Bool.false_ne_true

/-- What `trim` leaves is the text without white space around it. -/
theorem trims_trim (value : List Char) : Trims value (trim value) := by
  have hsplit : trim value ++ ((value.dropWhile isBlank).reverse.takeWhile isBlank).reverse =
      value.dropWhile isBlank := by
    rw [trim, ← List.reverse_append, List.takeWhile_append_dropWhile, List.reverse_reverse]
  refine ⟨⟨value.takeWhile isBlank, ((value.dropWhile isBlank).reverse.takeWhile isBlank).reverse,
    ?_, fun c hc => ?_, fun c hc => ?_⟩, fun c hc => ?_, fun c hc => ?_⟩
  · rw [List.append_assoc, hsplit, List.takeWhile_append_dropWhile]
  · exact isBlank_iff.mp (List.mem_takeWhile_imp hc)
  · exact isBlank_iff.mp (List.mem_takeWhile_imp (List.mem_reverse.mp hc))
  · -- what is left begins where the blanks in front were taken away
    apply not_whiteSpace_of_head_dropWhile (s := value)
    rw [← hsplit, List.head?_append, Option.mem_def.mp hc]
    rfl
  · rw [trim, List.getLast?_reverse] at hc
    exact not_whiteSpace_of_head_dropWhile hc

/-- There is only one way to leave out white space around a text, and `trim` finds it. -/
theorem trim_eq_of_trims {value s : List Char} (h : Trims value s) : trim value = s := by
  obtain ⟨⟨before, after, rfl, hbefore, hafter⟩, hfirst, hlast⟩ := h
  have hbefore' : ∀ c ∈ before, isBlank c = true := fun c hc => isBlank_iff.mpr (hbefore c hc)
  have hafter' : ∀ c ∈ after, isBlank c = true := fun c hc => isBlank_iff.mpr (hafter c hc)
  rw [trim, List.append_assoc, List.dropWhile_append_of_pos hbefore']
  cases s with
  | nil => rw [List.nil_append, List.dropWhile_eq_nil_iff.mpr hafter']; rfl
  | cons c s =>
    have hfront : (c :: s ++ after).dropWhile isBlank = c :: s ++ after :=
      dropWhile_isBlank_of_head hfirst
    have hback : (c :: s).reverse.dropWhile isBlank = (c :: s).reverse :=
      dropWhile_isBlank_of_head (by rwa [List.head?_reverse])
    rw [hfront, List.reverse_append,
      List.dropWhile_append_of_pos fun d hd => hafter' d (List.mem_reverse.mp hd), hback,
      List.reverse_reverse]

/-- The relation is the graph of `trim`. -/
theorem trims_iff {value s : List Char} : Trims value s ↔ s = trim value :=
  ⟨fun h => (trim_eq_of_trims h).symm, fun h => h ▸ trims_trim value⟩

/-! ### Numerals -/

/-- A single `+`, or nothing. -/
def IsSign (s : List Char) : Prop := s = [] ∨ s = ['+']

/-- The text is a numeral of `n`: one or more digits, possibly after a sign. -/
def IsNumeral (s : List Char) (n : Nat) : Prop :=
  ∃ sign ds, s = sign ++ ds ∧ IsSign sign ∧ ds ≠ [] ∧ (∀ c ∈ ds, c.isDigit = true) ∧
    Nat.ofDigitChars 10 ds 0 = n

/-- The digits that the text begins with, possibly after a sign, come to `bound` or more before
anything else is met. -/
def ReachesBound (bound : Nat) (s : List Char) : Prop :=
  ∃ sign ds rest, s = sign ++ ds ++ rest ∧ IsSign sign ∧ (∀ c ∈ ds, c.isDigit = true) ∧
    bound ≤ Nat.ofDigitChars 10 ds 0

/-- The characters that stand for a number are the decimal digits. -/
theorem digit?_eq {c : Char} :
    digit? c = if c.isDigit = true then some (c.toNat - '0'.toNat) else none := by
  have h : ('0' ≤ c ∧ c ≤ '9') ↔ c.isDigit = true := Char.isDigit_iff_toNat.symm
  simp only [digit?, h]

section Digits

variable {bound n : Nat} {cs : List Char}

/-- A digit is added to the number, unless that becomes too large. -/
theorem readDigits_cons_of_digit {c : Char} (hc : c.isDigit = true) :
    readDigits bound n (c :: cs) =
      if 10 * n + (c.toNat - '0'.toNat) < bound then
        readDigits bound (10 * n + (c.toNat - '0'.toNat)) cs
      else .error .tooLarge := by
  simp only [readDigits, digit?_eq, if_pos hc]

/-- Reading stops at a character that is not a digit, whatever the number. -/
theorem readDigits_cons_of_not_digit {c : Char} (hc : ¬ c.isDigit = true) :
    readDigits bound n (c :: cs) = .error .invalidDigit := by
  simp only [readDigits, digit?_eq, if_neg hc]

/-- More digits never make a number smaller. -/
theorem le_ofDigitChars (n : Nat) (ds : List Char) : n ≤ Nat.ofDigitChars 10 ds n := by
  induction ds generalizing n with
  | nil => exact Nat.le_refl n
  | cons d ds ih =>
    rw [Nat.ofDigitChars_cons]
    exact Nat.le_trans (by omega) (ih _)

/-- Digits are read exactly if there is nothing else and the number stays in range. -/
theorem readDigits_eq_ok_iff (hn : n < bound) {m : Nat} :
    readDigits bound n cs = .ok m ↔
      (∀ c ∈ cs, c.isDigit = true) ∧ Nat.ofDigitChars 10 cs n = m ∧ m < bound := by
  induction cs generalizing n with
  | nil =>
    simp only [readDigits, Except.ok.injEq, List.not_mem_nil, false_implies, implies_true,
      Nat.ofDigitChars_nil, true_and]
    exact ⟨fun h => ⟨h, h ▸ hn⟩, And.left⟩
  | cons c cs ih =>
    by_cases hc : c.isDigit = true
    · rw [readDigits_cons_of_digit hc, List.forall_mem_cons, Nat.ofDigitChars_cons]
      split
      · next hlt => rw [ih hlt, and_iff_right hc]
      · next hge =>
        have hle := le_ofDigitChars (10 * n + (c.toNat - '0'.toNat)) cs
        refine iff_of_false nofun ?_
        rintro ⟨-, rfl, hlt⟩
        omega
    · rw [readDigits_cons_of_not_digit hc, List.forall_mem_cons]
      exact iff_of_false nofun fun h => hc h.1.1

/-- It takes a digit to reach the bound. -/
theorem ne_nil_of_le_ofDigitChars (hn : n < bound) {ds : List Char}
    (h : bound ≤ Nat.ofDigitChars 10 ds n) : ds ≠ [] := by
  rintro rfl
  exact Nat.not_lt.mpr h hn

/-- The number becomes too large exactly if some digits at the beginning reach the bound. -/
theorem readDigits_eq_tooLarge_iff (hn : n < bound) :
    readDigits bound n cs = .error .tooLarge ↔
      ∃ ds rest, cs = ds ++ rest ∧ (∀ c ∈ ds, c.isDigit = true) ∧
        bound ≤ Nat.ofDigitChars 10 ds n := by
  induction cs generalizing n with
  | nil =>
    refine iff_of_false nofun ?_
    rintro ⟨ds, rest, h, -, hle⟩
    exact ne_nil_of_le_ofDigitChars hn hle (List.append_eq_nil_iff.mp h.symm).1
  | cons c cs ih =>
    by_cases hc : c.isDigit = true
    · rw [readDigits_cons_of_digit hc]
      split
      · next hlt =>
        rw [ih hlt]
        constructor
        · rintro ⟨ds, rest, rfl, hds, hle⟩
          exact ⟨c :: ds, rest, rfl, List.forall_mem_cons.mpr ⟨hc, hds⟩,
            by rwa [Nat.ofDigitChars_cons]⟩
        · rintro ⟨ds, rest, h, hds, hle⟩
          obtain ⟨d, ds, rfl⟩ := List.exists_cons_of_ne_nil (ne_nil_of_le_ofDigitChars hn hle)
          obtain ⟨rfl, rfl⟩ := List.cons.inj h
          rw [Nat.ofDigitChars_cons] at hle
          exact ⟨ds, rest, rfl, (List.forall_mem_cons.mp hds).2, hle⟩
      · next hge =>
        refine iff_of_true rfl ⟨[c], cs, rfl, List.forall_mem_singleton.mpr hc, ?_⟩
        rw [Nat.ofDigitChars_cons, Nat.ofDigitChars_nil]
        exact Nat.not_lt.mp hge
    · rw [readDigits_cons_of_not_digit hc]
      refine iff_of_false nofun ?_
      rintro ⟨ds, rest, h, hds, hle⟩
      obtain ⟨d, ds, rfl⟩ := List.exists_cons_of_ne_nil (ne_nil_of_le_ofDigitChars hn hle)
      obtain ⟨rfl, -⟩ := List.cons.inj h
      exact hc (List.forall_mem_cons.mp hds).1

end Digits

/-- The text without the sign in front. -/
def unsigned : List Char → List Char
  | '+' :: cs => cs
  | cs => cs

/-- A text is a sign, or nothing, and the text without it. -/
theorem exists_sign (s : List Char) : ∃ sign, IsSign sign ∧ s = sign ++ unsigned s := by
  fun_cases unsigned s with
  | case1 cs => exact ⟨['+'], .inr rfl, rfl⟩
  | case2 => exact ⟨[], .inl rfl, rfl⟩

/-- A sign is not a digit, so the text splits in one way only. -/
theorem unsigned_append {sign ds : List Char} (hsign : IsSign sign) (hds : ds ≠ [])
    (hdigits : ∀ c ∈ ds, c.isDigit = true) (rest : List Char) :
    unsigned (sign ++ ds ++ rest) = ds ++ rest := by
  obtain ⟨d, ds, rfl⟩ := List.exists_cons_of_ne_nil hds
  rcases hsign with rfl | rfl
  · have hd : d ≠ '+' := by
      rintro rfl
      exact absurd (hdigits '+' List.mem_cons_self) (by decide)
    simp [unsigned, hd]
  · rfl

/-- A numeral is one or more digits once the sign is left out. -/
theorem isNumeral_iff {s : List Char} {n : Nat} :
    IsNumeral s n ↔ unsigned s ≠ [] ∧ (∀ c ∈ unsigned s, c.isDigit = true) ∧
      Nat.ofDigitChars 10 (unsigned s) 0 = n := by
  constructor
  · rintro ⟨sign, ds, rfl, hsign, hds, hdigits, hn⟩
    have hunsigned : unsigned (sign ++ ds) = ds := by
      simpa using unsigned_append hsign hds hdigits []
    rw [hunsigned]
    exact ⟨hds, hdigits, hn⟩
  · rintro ⟨hne, hdigits, hn⟩
    obtain ⟨sign, hsign, hs⟩ := exists_sign s
    exact ⟨sign, unsigned s, hs, hsign, hne, hdigits, hn⟩

/-- The bound is reached exactly if it is once the sign is left out. -/
theorem reachesBound_iff {bound : Nat} (hbound : 0 < bound) {s : List Char} :
    ReachesBound bound s ↔ ∃ ds rest, unsigned s = ds ++ rest ∧ (∀ c ∈ ds, c.isDigit = true) ∧
      bound ≤ Nat.ofDigitChars 10 ds 0 := by
  constructor
  · rintro ⟨sign, ds, rest, rfl, hsign, hdigits, hle⟩
    have hds := ne_nil_of_le_ofDigitChars hbound hle
    exact ⟨ds, rest, unsigned_append hsign hds hdigits rest, hdigits, hle⟩
  · rintro ⟨ds, rest, hs, hdigits, hle⟩
    obtain ⟨sign, hsign, hs'⟩ := exists_sign s
    exact ⟨sign, ds, rest, by rw [List.append_assoc, ← hs, ← hs'], hsign, hdigits, hle⟩

/-- Reading a numeral is reading the digits after the sign, of which there must be one. -/
theorem readNumeral_cases (bound : Nat) (s : List Char) :
    unsigned s ≠ [] ∧ readNumeral bound s = readDigits bound 0 (unsigned s) ∨
      unsigned s = [] ∧ ∃ e, readNumeral bound s = .error e ∧ e ≠ .tooLarge := by
  fun_cases readNumeral bound s with
  | case1 => exact .inr ⟨rfl, _, rfl, nofun⟩
  | case2 => exact .inr ⟨rfl, _, rfl, nofun⟩
  | case3 cs hcs => exact .inl ⟨fun h => hcs h, rfl⟩
  | case4 s hnil _ hplus =>
    have hself : unsigned s = s := unsigned.eq_2 s hplus
    exact .inl ⟨by rwa [hself], by rw [hself]⟩

/-- The numerals of numbers in range are read, and nothing else is. -/
theorem readNumeral_eq_ok_iff {bound : Nat} (hbound : 0 < bound) {s : List Char} {n : Nat} :
    readNumeral bound s = .ok n ↔ IsNumeral s n ∧ n < bound := by
  rw [isNumeral_iff]
  rcases readNumeral_cases bound s with ⟨hne, hread⟩ | ⟨hnil, e, hread, -⟩
  · rw [hread, readDigits_eq_ok_iff hbound, and_iff_right hne, and_assoc]
  · rw [hread]
    exact iff_of_false nofun fun h => h.1.1 hnil

/-- A text is refused for its size exactly if its digits reach the bound before anything else is
met. -/
theorem readNumeral_eq_tooLarge_iff {bound : Nat} (hbound : 0 < bound) {s : List Char} :
    readNumeral bound s = .error .tooLarge ↔ ReachesBound bound s := by
  rw [reachesBound_iff hbound]
  rcases readNumeral_cases bound s with ⟨-, hread⟩ | ⟨hnil, e, hread, he⟩
  · rw [hread, readDigits_eq_tooLarge_iff hbound]
  · rw [hread, hnil, Except.error.injEq]
    exact iff_of_false he fun ⟨_, _, h, _, hle⟩ =>
      ne_nil_of_le_ofDigitChars hbound hle (List.append_eq_nil_iff.mp h.symm).1

/-! ### The case of letters -/

/-- The code point of a character in capital letters. -/
theorem toNat_toUpper (c : Char) :
    c.toUpper.toNat = if 97 ≤ c.toNat ∧ c.toNat ≤ 122 then c.toNat - 32 else c.toNat := by
  delta Char.toUpper
  split
  · next h =>
    have hletter : 97 ≤ c.toNat ∧ c.toNat ≤ 122 := h
    -- The difference is negative, so it is added as the word that stands for `-32`.
    have hdown : ('A'.val - 'a'.val).toNat = 4294967264 := rfl
    rw [if_pos hletter]
    show (c.val + ('A'.val - 'a'.val)).toNat = c.toNat - 32
    rw [UInt32.toNat_add, hdown, Char.toNat_val]
    omega
  · next h => exact (if_neg h).symm

/-- The code point of a character in small letters. -/
theorem toNat_toLower (c : Char) :
    c.toLower.toNat = if 65 ≤ c.toNat ∧ c.toNat ≤ 90 then c.toNat + 32 else c.toNat := by
  delta Char.toLower
  split
  · next h =>
    have hletter : 65 ≤ c.toNat ∧ c.toNat ≤ 90 := h
    have hup : ('a'.val - 'A'.val).toNat = 32 := rfl
    rw [if_pos hletter]
    show (c.val + ('a'.val - 'A'.val)).toNat = c.toNat + 32
    rw [UInt32.toNat_add, hup, Char.toNat_val]
    omega
  · next h => exact (if_neg h).symm

/-- Two characters agree in capital letters exactly if they agree in small letters. -/
theorem toUpper_eq_iff {c d : Char} : c.toUpper = d.toUpper ↔ c.toLower = d.toLower := by
  simp only [← Char.toNat_inj, toNat_toUpper, toNat_toLower]
  grind

/-- Two texts agree in capital letters exactly if they agree in small letters. -/
theorem map_toUpper_eq_iff {s t : List Char} :
    s.map Char.toUpper = t.map Char.toUpper ↔ s.map Char.toLower = t.map Char.toLower := by
  induction s generalizing t with
  | nil => cases t <;> simp
  | cons c s ih =>
    cases t with
    | nil => simp
    | cons d t => simp only [List.map_cons, List.cons.injEq, toUpper_eq_iff, ih]

end Text

namespace Log.Verbosity

/-! ### Words for verbosities -/

/-- The word for a verbosity in small letters. -/
def word : Verbosity → String
  | off => "off"
  | upTo .error => "error"
  | upTo .warn => "warn"
  | upTo .info => "info"
  | upTo .debug => "debug"
  | upTo .trace => "trace"

/-- The word has no capital letters. -/
theorem word_toLower (v : Verbosity) : v.word.toList.map Char.toLower = v.word.toList := by
  rcases v with _ | (_ | _ | _ | _ | _) <;> decide

/-- The name is the word in capital letters. -/
theorem word_toUpper (v : Verbosity) : v.word.toList.map Char.toUpper = v.name.toList := by
  rcases v with _ | (_ | _ | _ | _ | _) <;> decide

/-- No two verbosities have the same name. -/
theorem find?_name (v : Verbosity) :
    all.find? (fun u => u.name.toList == v.name.toList) = some v := by
  rcases v with _ | (_ | _ | _ | _ | _) <;> decide

/-- A verbosity is named by its word, whatever the case of the letters. -/
theorem ofName?_eq_some_iff {s : List Char} {v : Verbosity} :
    ofName? s = some v ↔ s.map Char.toLower = v.word.toList := by
  have hcase : s.map Char.toUpper = v.name.toList ↔ s.map Char.toLower = v.word.toList := by
    rw [← word_toUpper, Text.map_toUpper_eq_iff, word_toLower]
  rw [← hcase]
  constructor
  · intro h
    have hname : v.name.toList = s.map Char.toUpper := by simpa using List.find?_some h
    exact hname.symm
  · intro h
    rw [ofName?, h, find?_name]

end Log.Verbosity

namespace Settings

open Text

/-! ### The grammar of the two keys -/

/-- The value is a numeral of `n`, which is positive and fits in 32 bits. -/
def IsDepth (value : String) (n : Nat) : Prop :=
  ∃ s, Trims value.toList s ∧ IsNumeral s n ∧ 1 ≤ n ∧ n ≤ 0xffff_ffff

/-- The value is the word for `v`, up to the case of the letters `A` to `Z`. -/
def IsVerbosity (value : String) (v : Log.Verbosity) : Prop :=
  ∃ s, Trims value.toList s ∧ s.map Char.toLower = v.word.toList

/-- The digits that the value begins with exceed 32 bits before anything else is met. -/
def ExceedsDepths (value : String) : Prop :=
  ∃ s, Trims value.toList s ∧ ReachesBound 0x1_0000_0000 s

/-- What an entry says about a setting: the default if it is absent, else what its value means. -/
def Says {α : Type} (absent : α) (Means : String → α → Prop) : Option String → α → Prop
  | none, a => a = absent
  | some value, a => Means value a

theorem depthBound_pos : 0 < depthBound := by decide

/-- The depths in the grammar are read, and nothing else is. -/
theorem readDepth_eq_ok_iff {value : String} {n : Nat} :
    readDepth value = .ok n ↔ IsDepth value n := by
  have hread : readDepth value = .ok n ↔
      readNumeral depthBound (trim value.toList) = .ok n ∧ n ≠ 0 := by
    rw [readDepth]
    split <;> simp_all
    omega
  have hrange : n < depthBound ∧ n ≠ 0 ↔ 1 ≤ n ∧ n ≤ 0xffff_ffff := by
    rw [depthBound]
    omega
  simp only [IsDepth, trims_iff, exists_eq_left]
  rw [hread, readNumeral_eq_ok_iff depthBound_pos, and_assoc, hrange]

/-- A depth is refused for its size exactly if its digits exceed the range. -/
theorem readDepth_eq_tooLarge_iff {value : String} :
    readDepth value = .error (.numeral .tooLarge) ↔ ExceedsDepths value := by
  have hread : readDepth value = .error (.numeral .tooLarge) ↔
      readNumeral depthBound (trim value.toList) = .error .tooLarge := by
    rw [readDepth]
    split <;> simp_all
  simp only [ExceedsDepths, trims_iff, exists_eq_left]
  exact hread.trans (readNumeral_eq_tooLarge_iff depthBound_pos)

/-- The verbosities in the grammar are read, and nothing else is. -/
theorem readVerbosity_eq_ok_iff {value : String} {v : Log.Verbosity} :
    readVerbosity value = .ok v ↔ IsVerbosity value v := by
  simp only [IsVerbosity, trims_iff, exists_eq_left, ← Log.Verbosity.ofName?_eq_some_iff]
  rw [readVerbosity]
  split <;> simp_all

/-! ### One key after the other -/

section Keys

variable {α : Type} {key : Key} {absent : α} {parse : String → Except Reason α}
  {Means : String → α → Prop} {entry : Option String}

/-- A key is read exactly if its entry says something, and then as what it says. -/
theorem readKey_eq_ok_iff (hparse : ∀ {value a}, parse value = .ok a ↔ Means value a) {a : α} :
    readKey key absent parse entry = .ok a ↔ Says absent Means entry a := by
  cases entry with
  | none => rw [readKey, Says, Except.ok.injEq, eq_comm]
  | some value => rw [readKey, Says, mapError_eq_ok_iff, hparse]

/-- Only a value that is present is refused, and the error holds the key and the whole value. -/
theorem readKey_eq_error_iff {e : Error} :
    readKey key absent parse entry = .error e ↔
      e.key = key ∧ entry = some e.value ∧ parse e.value = .error e.reason := by
  cases entry with
  | none => exact iff_of_false nofun fun h => nomatch h.2.1
  | some value =>
    rw [readKey]
    constructor
    · intro h
      cases hparse : parse value with
      | ok a =>
        rw [hparse] at h
        cases h
      | error r =>
        rw [hparse] at h
        cases h
        exact ⟨rfl, rfl, hparse⟩
    · rintro ⟨rfl, hvalue, hparse⟩
      rw [Option.some.inj hvalue, hparse]
      rfl

end Keys

section Read

variable {lookup : String → Option String}

/-- The depth is asked for first, and the first error counts. -/
theorem read_pure : Id.run (read fun name => pure (lookup name)) =
    (readKey .maxDepth default.maxDepth readDepth (lookup Key.maxDepth.name) >>= fun maxDepth =>
      readKey .verbosity default.verbosity readVerbosity (lookup Key.verbosity.name) >>=
        fun verbosity => pure ⟨maxDepth, verbosity⟩) := by
  simp only [read, pure_bind]
  cases readKey .maxDepth default.maxDepth readDepth (lookup Key.maxDepth.name) with
  | error e => rfl
  | ok maxDepth =>
    cases readKey .verbosity default.verbosity readVerbosity (lookup Key.verbosity.name) with
    | error e => rfl
    | ok verbosity => rfl

/-- Settings are found exactly if both entries say something, and they are what the entries say. -/
theorem read_eq_ok_iff {s : Settings} :
    Id.run (read fun name => pure (lookup name)) = .ok s ↔
      Says 1024 IsDepth (lookup Key.maxDepth.name) s.maxDepth ∧
        Says (.upTo .warn) IsVerbosity (lookup Key.verbosity.name) s.verbosity := by
  simp only [read_pure, bind_eq_ok_iff, pure_eq_ok_iff, readKey_eq_ok_iff readDepth_eq_ok_iff,
    readKey_eq_ok_iff readVerbosity_eq_ok_iff]
  constructor
  · rintro ⟨n, hn, v, hv, rfl⟩
    exact ⟨hn, hv⟩
  · rintro ⟨hn, hv⟩
    exact ⟨_, hn, _, hv, rfl⟩

/-- Settings are refused for the depth, or else for the verbosity, if the depth is not refused. -/
theorem read_eq_error_iff {e : Error} :
    Id.run (read fun name => pure (lookup name)) = .error e ↔
      (e.key = .maxDepth ∧ lookup Key.maxDepth.name = some e.value ∧
        readDepth e.value = .error e.reason) ∨
      ∃ n, Says 1024 IsDepth (lookup Key.maxDepth.name) n ∧ e.key = .verbosity ∧
        lookup Key.verbosity.name = some e.value ∧ readVerbosity e.value = .error e.reason := by
  simp only [read_pure, bind_eq_error_iff, readKey_eq_ok_iff readDepth_eq_ok_iff,
    readKey_eq_error_iff, pure_ne_error, and_false, exists_false, or_false]
  rfl

end Read

/-- Only the refusal for size is put into these words. -/
theorem Reason.message_eq_tooLarge_iff {r : Reason} :
    r.message = "number too large to fit in target type" ↔ r = .numeral .tooLarge := by
  rcases r with (_ | _ | _) | _ | _ <;> decide

/-- No entry says that the depth is zero. -/
theorem ne_zero_of_says {entry : Option String} {n : Nat} (h : Says 1024 IsDepth entry n) :
    n ≠ 0 := by
  cases entry with
  | none =>
    rw [Says] at h
    omega
  | some value =>
    obtain ⟨-, -, -, hpos, -⟩ := h
    omega

/-- **Settings are read from exactly their grammar.** A source gives settings if and only if each of
its two entries is absent or in the grammar. The settings are then what the entries say, and the
depth is not `0`. Otherwise the first entry out of the grammar is blamed, the depth before the
verbosity, with its value as it was found. A depth is called too large exactly if its digits, read
from the left, leave the range before anything else is met. -/
theorem read_accepts_exactly (lookup : String → Option String) :
    (∀ s, Id.run (read fun name => pure (lookup name)) = .ok s ↔
      Says 1024 IsDepth (lookup Key.maxDepth.name) s.maxDepth ∧
        Says (.upTo .warn) IsVerbosity (lookup Key.verbosity.name) s.verbosity) ∧
    (∀ s, Id.run (read fun name => pure (lookup name)) = .ok s → s.maxDepth ≠ 0) ∧
    ∀ e, Id.run (read fun name => pure (lookup name)) = .error e →
      (e.key = .maxDepth ∧ lookup Key.maxDepth.name = some e.value ∧
        (∀ n, ¬ IsDepth e.value n) ∧
        (e.reason.message = "number too large to fit in target type" ↔ ExceedsDepths e.value)) ∨
      (e.key = .verbosity ∧ lookup Key.verbosity.name = some e.value ∧
        (∀ v, ¬ IsVerbosity e.value v) ∧
        ∃ n, Says 1024 IsDepth (lookup Key.maxDepth.name) n) := by
  refine ⟨fun s => read_eq_ok_iff, fun s hs => ne_zero_of_says (read_eq_ok_iff.mp hs).1,
    fun e he => ?_⟩
  rcases read_eq_error_iff.mp he with ⟨hkey, hentry, hread⟩ | ⟨n, hn, hkey, hentry, hread⟩
  · refine .inl ⟨hkey, hentry, fun n hn => ?_, ?_⟩
    · rw [readDepth_eq_ok_iff.mpr hn] at hread
      cases hread
    · rw [Reason.message_eq_tooLarge_iff, ← readDepth_eq_tooLarge_iff, hread, Except.error.injEq]
  · refine .inr ⟨hkey, hentry, fun v hv => ?_, n, hn⟩
    rw [readVerbosity_eq_ok_iff.mpr hv] at hread
    cases hread

/-- A source with a value for both keys. -/
def bothKeys (depth verbosity : String) (name : String) : Option String :=
  if name = Key.maxDepth.name then some depth
  else if name = Key.verbosity.name then some verbosity
  else none

/-- The largest depth and a word in mixed case are read through their padding. With one more the
depth is too large before the letter after it is met, and is blamed before the verbosity. -/
theorem read_accepts_exactly_largest :
    (Id.run (read fun name => pure (bothKeys "\u3000+004294967295\t" " tRaCe\n" name)) =
        .ok ⟨0xffff_ffff, .upTo .trace⟩ ∧
      IsDepth "\u3000+004294967295\t" 0xffff_ffff ∧ IsVerbosity " tRaCe\n" (.upTo .trace)) ∧
    (Id.run (read fun name => pure (bothKeys " +4294967296x " "loud" name)) =
        .error ⟨.maxDepth, " +4294967296x ", .numeral .tooLarge⟩ ∧
      (∀ n, ¬ IsDepth " +4294967296x " n) ∧ ExceedsDepths " +4294967296x ") := by
  have hok : Id.run (read fun name => pure (bothKeys "\u3000+004294967295\t" " tRaCe\n" name)) =
      .ok ⟨0xffff_ffff, .upTo .trace⟩ := by decide +kernel
  have herror : Id.run (read fun name => pure (bothKeys " +4294967296x " "loud" name)) =
      .error ⟨.maxDepth, " +4294967296x ", .numeral .tooLarge⟩ := by decide +kernel
  refine ⟨⟨hok, ((read_accepts_exactly _).1 _).mp hok⟩, herror, ?_⟩
  rcases (read_accepts_exactly _).2.2 _ herror with ⟨-, -, hdepth, hlarge⟩ | ⟨hkey, -⟩
  · exact ⟨hdepth, hlarge.mp rfl⟩
  · cases hkey

end Settings

end Trisort
