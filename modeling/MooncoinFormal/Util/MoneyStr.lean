import Mathlib
import MooncoinFormal.Primitives.Amount

/-!
# Amounts as text

`util/moneystr.cpp`. An amount is written as its whole coins, a point and at least
two of the eight decimals. The reader collects the digits before the point and adds
up those after it, and guards the multiplication by the size of the whole part: ten
digits at most. The money limit of this coin has eleven.
-/

namespace MooncoinFormal.Util

open Primitives List Nat Bool Int

/-- `IsSpace` of `util/strencodings.h`. -/
def isSpace (c : Char) : Bool :=
  c == ' ' || c == '\x0c' || c == '\n' || c == '\r' || c == '\t' || c == '\x0b'

variable (str : List Char)

/-- `TrimString` with the default pattern. -/
def trimString : List Char :=
  ((str.dropWhile isSpace).reverse.dropWhile isSpace).reverse

/-- `ValidAsCString`: no zero byte inside. -/
def validAsCString : Bool :=
  decide ('\x00' ∉ str)

/-- How many characters the loop of `FormatMoney` drops from the end; the text is
given from its last character on. -/
def nTrim : List Char → Nat
  | last :: next :: before :: rest =>
    if last == '0' && before.isDigit then nTrim (next :: before :: rest) + 1 else 0
  | _ => 0

/-- The text that `strprintf("%d.%08d", quotient, remainder)` makes. -/
def untrimmed (quotient remainder : Nat) : List Char :=
  toDigits 10 quotient ++ '.' :: (toDigits 10 remainder).leftpad 8 '0'

def formatMoney (n : CAmount) : List Char :=
  let nAbs := n.toInt.natAbs
  let str := untrimmed (nAbs / 100000000) (nAbs % 100000000)
  let str := str.take (str.length - nTrim str.reverse)
  if n < 0 then '-' :: str else str

def scanUnits (nMult nUnits : Int64) : List Char → Int64 × List Char
  | [] => (nUnits, [])
  | c :: p =>
    if c.isDigit && decide (0 < nMult) then
      scanUnits (nMult / 10) (nUnits + nMult * Int64.ofNat (c.toNat - '0'.toNat)) p
    else (nUnits, c :: p)

/-- The loop over the text: the digits before the point, the units after it and
what is left where the loop stops. -/
def scanMoney : List Char → Option (List Char × Int64 × List Char)
  | [] => some ([], 0, [])
  | c :: p =>
    if c == '.' then
      let (nUnits, p) := scanUnits (coin / 10) 0 p
      some ([], nUnits, p)
    else if isSpace c then none
    else if !c.isDigit then none
    else do
      let (strWhole, nUnits, p) ← scanMoney p
      return (c :: strWhole, nUnits, p)

/-- `atoi64` of a text of digits: `strtoll`, which stops at the largest value. -/
def atoi64 : Int64 :=
  Int64.ofNat (min (ofDigitChars 10 str 0) (2 ^ 63 - 1))

def parseMoney (moneyString : List Char) : Option CAmount :=
  if !validAsCString moneyString then none
  else
    let str := trimString moneyString
    if str.isEmpty then none
    else
      match scanMoney str with
      | none => none
      | some (strWhole, nUnits, p) =>
        if !p.isEmpty then none
        else if 10 < strWhole.length then none
        else if nUnits < 0 || nUnits > coin then none
        else
          let nWhole := atoi64 strWhole
          some (nWhole * coin + nUnits)

/-! ## Digits after the point -/

abbrev AllDigits (text : List Char) : Prop := ∀ c ∈ text, c.isDigit = true

def digitsValue (digits : List Char) : Nat :=
  ofDigitChars 10 digits 0

theorem digitsValue_append (first second : List Char) :
    digitsValue (first ++ second) = digitsValue first * 10 ^ second.length +
      digitsValue second := by
  rw [digitsValue, ofDigitChars_append, ofDigitChars_eq_ofDigitChars_zero, mul_comm]
  rfl

theorem digitsValue_cons (digit : Char) (rest : List Char) :
    digitsValue (digit :: rest) =
      (digit.toNat - '0'.toNat) * 10 ^ rest.length + digitsValue rest := by
  have split := digitsValue_append [digit] rest
  rw [singleton_append] at split
  rw [split]
  simp [digitsValue, ofDigitChars]

theorem digits_of_toDigits (number : Nat) :
    AllDigits (toDigits 10 number) ∧ digitsValue (toDigits 10 number) = number :=
  ⟨fun _ => isDigit_of_mem_toDigits (by decide) (by decide),
    ofDigitChars_toDigits (by decide) (by decide)⟩

theorem digitsValue_replicate (count : Nat) : digitsValue (replicate count '0') = 0 := by
  rw [digitsValue, ofDigitChars_replicate_zero, mul_zero]

variable {digits text fraction whole : List Char} {place : Nat} {nUnits : Int64}

theorem digitsValue_lt (all : AllDigits digits) : digitsValue digits < 10 ^ digits.length := by
  induction digits with
  | nil => decide
  | cons digit rest ih =>
    obtain ⟨isDigit, tail⟩ := forall_mem_cons.mp all
    have small : digit.toNat - '0'.toNat ≤ 9 := by
      simp only [Char.isDigit, and_eq_true, decide_eq_true_eq] at isDigit
      have high : digit.toNat ≤ 57 := isDigit.2
      show digit.toNat - 48 ≤ 9
      omega
    rw [digitsValue_cons, length_cons, pow_succ]
    calc (digit.toNat - '0'.toNat) * 10 ^ rest.length + digitsValue rest
        < 9 * 10 ^ rest.length + 10 ^ rest.length :=
          add_lt_add_of_le_of_lt (mul_le_mul_right _ small) (ih tail)
      _ = 10 ^ rest.length * 10 := by ring

theorem place_lt (within : place < 8) : 10 ^ place < 2 ^ 63 :=
  lt_of_le_of_lt (Nat.pow_le_pow_right (by decide) (by omega : place ≤ 7)) (by decide)

theorem nMult_div (within : place < 8) :
    Int64.ofNat (10 ^ place) / 10 = Int64.ofNat (10 ^ place / 10) := by
  rw [Int64.ofNat_div (place_lt within) (by decide)]
  rfl

theorem nMult_pos (within : place < 8) : 0 < Int64.ofNat (10 ^ place) := by
  rw [Int64.lt_iff_toInt_lt, Int64.toInt_ofNat_of_lt (place_lt within)]
  exact natCast_pos.mpr (Nat.pow_pos (by decide))

theorem scanUnits_cons {digit : Char} (isDigit : digit.isDigit = true) (within : place < 8)
    (units : Nat) (rest : List Char) :
    scanUnits (Int64.ofNat (10 ^ (place + 1) / 10)) (Int64.ofNat units) (digit :: rest) =
      scanUnits (Int64.ofNat (10 ^ place / 10))
        (Int64.ofNat (units + 10 ^ place * (digit.toNat - '0'.toNat))) rest := by
  rw [pow_succ, Nat.mul_div_cancel _ (by decide), scanUnits, isDigit,
    decide_eq_true (nMult_pos within), Bool.and_self, if_pos rfl, nMult_div within,
    ← Int64.ofNat_mul, ← Int64.ofNat_add]

theorem scanUnits_digits (all : AllDigits digits) (places : Nat)
    (fits : digits.length ≤ places) (within : places ≤ 8) (units : Nat) :
    scanUnits (Int64.ofNat (10 ^ places / 10)) (Int64.ofNat units) digits =
      (Int64.ofNat (units + digitsValue digits * 10 ^ (places - digits.length)), []) := by
  induction digits generalizing places units with
  | nil => simp [scanUnits, digitsValue, ofDigitChars]
  | cons digit rest ih =>
    obtain ⟨below, rfl⟩ : ∃ below, places = below + 1 :=
      ⟨places - 1, by rw [length_cons] at fits; omega⟩
    rw [length_cons, add_le_add_iff_right] at fits
    obtain ⟨isDigit, others⟩ := forall_mem_cons.mp all
    rw [scanUnits_cons isDigit (by omega), ih others below fits (by omega)]
    congr 2
    obtain ⟨spare, rfl⟩ := Nat.exists_eq_add_of_le fits
    rw [digitsValue_cons, length_cons, Nat.add_sub_cancel_left,
      show rest.length + spare + 1 - (rest.length + 1) = spare by omega, pow_add]
    ring

theorem scanUnits_all (places : Nat) (within : places ≤ 8) (units : Nat)
    (scanned : scanUnits (Int64.ofNat (10 ^ places / 10)) (Int64.ofNat units) text = (nUnits, [])) :
    text.length ≤ places ∧ AllDigits text := by
  induction text generalizing places units with
  | nil => exact ⟨zero_le _, nofun⟩
  | cons c rest ih =>
    by_cases read : (c.isDigit && decide (0 < Int64.ofNat (10 ^ places / 10))) = true
    · obtain ⟨isDigit, positive⟩ := and_eq_true_iff.mp read
      cases places with
      | zero => exact absurd positive (by decide)
      | succ below =>
        rw [scanUnits_cons isDigit (by omega)] at scanned
        obtain ⟨fits, digits⟩ := ih below (by omega) _ scanned
        exact ⟨succ_le_succ fits, forall_mem_cons.mpr ⟨isDigit, digits⟩⟩
    · rw [scanUnits, if_neg read] at scanned
      cases scanned

/-! ## Numerals -/

/-- A text is the numeral of its digits before and after the point; the point may be
missing when nothing follows it. -/
structure IsNumeral (text whole fraction : List Char) : Prop where
  text_eq : text = whole ∧ fraction = [] ∨ text = whole ++ '.' :: fraction
  whole_digits : ∀ c ∈ whole, c.isDigit = true
  fraction_digits : ∀ c ∈ fraction, c.isDigit = true

def numeralValue (whole fraction : List Char) : ℚ :=
  digitsValue whole + digitsValue fraction / 10 ^ fraction.length

def fractionUnits (fraction : List Char) : Nat :=
  digitsValue fraction * 10 ^ (8 - fraction.length)

theorem fractionUnits_lt (all : AllDigits fraction) (fits : fraction.length ≤ 8) :
    fractionUnits fraction < 10 ^ 8 :=
  calc fractionUnits fraction < 10 ^ fraction.length * 10 ^ (8 - fraction.length) :=
        Nat.mul_lt_mul_of_pos_right (digitsValue_lt all) (Nat.pow_pos (by decide))
    _ = 10 ^ 8 := by rw [← pow_add, Nat.add_sub_cancel' fits]

theorem numeralValue_mul_coin (whole : List Char) (fits : fraction.length ≤ 8) :
    numeralValue whole fraction * 10 ^ 8 =
      ((digitsValue whole * 10 ^ 8 + fractionUnits fraction : Nat) : ℚ) := by
  have power : (10 : ℚ) ^ 8 = 10 ^ fraction.length * 10 ^ (8 - fraction.length) := by
    rw [← pow_add, Nat.add_sub_cancel' fits]
  rw [numeralValue, add_mul, fractionUnits]
  push_cast
  congr 1
  rw [power]
  field_simp

theorem isSpace_of_isDigit {c : Char} (digit : c.isDigit = true) : isSpace c = false := by
  simp only [Char.isDigit, and_eq_true, decide_eq_true_eq] at digit
  have low : 48 ≤ c.toNat := digit.1
  have other : ∀ d : Char, d.toNat < 48 → (c == d) = false := by
    intro d small
    rw [beq_eq_false_iff_ne]
    rintro rfl
    omega
  simp [isSpace, other]

theorem scanMoney_whole (all : AllDigits whole) {rest strWhole p : List Char}
    (scanned : scanMoney rest = some (strWhole, nUnits, p)) :
    scanMoney (whole ++ rest) = some (whole ++ strWhole, nUnits, p) := by
  induction whole with
  | nil => exact scanned
  | cons digit whole ih =>
    obtain ⟨isDigit, others⟩ := forall_mem_cons.mp all
    have noPoint : (digit == '.') = false := by
      rw [beq_eq_false_iff_ne]
      rintro rfl
      exact absurd isDigit (by decide)
    rw [cons_append, scanMoney, noPoint, isSpace_of_isDigit isDigit, isDigit, ih others]
    rfl

theorem scanMoney_point (all : AllDigits fraction) (fits : fraction.length ≤ 8) :
    scanMoney ('.' :: fraction) = some ([], Int64.ofNat (fractionUnits fraction), []) := by
  have units := scanUnits_digits all 8 fits (le_refl 8) 0
  rw [zero_add] at units
  exact congrArg (fun scanned : Int64 × List Char => some ([], scanned.1, scanned.2)) units

theorem isNumeral_of_scanMoney {strWhole : List Char}
    (scanned : scanMoney text = some (strWhole, nUnits, [])) :
    ∃ fraction, IsNumeral text strWhole fraction ∧ fraction.length ≤ 8 ∧
      nUnits = Int64.ofNat (fractionUnits fraction) := by
  induction text generalizing strWhole with
  | nil =>
    cases scanned
    exact ⟨[], ⟨.inl ⟨rfl, rfl⟩, by simp, by simp⟩, by decide, by decide⟩
  | cons c rest ih =>
    rw [scanMoney] at scanned
    split at scanned
    · rename_i point
      obtain rfl : c = '.' := by simpa using point
      cases units : scanUnits (coin / 10) 0 rest with
      | mk value left =>
        rw [units] at scanned
        cases scanned
        obtain ⟨fits, digits⟩ := scanUnits_all 8 (le_refl 8) 0 units
        refine ⟨rest, ⟨.inr rfl, by simp, digits⟩, fits, ?_⟩
        have same := scanUnits_digits digits 8 fits (le_refl 8) 0
        rw [zero_add] at same
        exact (Prod.mk.inj (units.symm.trans same)).1
    · split at scanned
      · cases scanned
      split at scanned
      · cases scanned
      rename_i digit
      obtain ⟨⟨whole, units, left⟩, inner, done⟩ := Option.bind_eq_some_iff.mp scanned
      cases done
      obtain ⟨fraction, numeral, fits, value⟩ := ih inner
      refine ⟨fraction, ⟨?_, ?_, numeral.fraction_digits⟩, fits, value⟩
      · rcases numeral.text_eq with ⟨same, empty⟩ | same
        · exact .inl ⟨by rw [same], empty⟩
        · exact .inr (by rw [same, cons_append])
      · exact forall_mem_cons.mpr ⟨by simpa using digit, numeral.whole_digits⟩

/-! ## Reading -/

theorem atoi64_eq (all : AllDigits whole) (fits : whole.length ≤ 10) :
    atoi64 whole = Int64.ofNat (digitsValue whole) := by
  have bound := digitsValue_lt all
  have power : 10 ^ whole.length ≤ 10 ^ 10 := Nat.pow_le_pow_right (by decide) fits
  rw [atoi64, min_eq_left]
  · rfl
  · show digitsValue whole ≤ 2 ^ 63 - 1
    omega

theorem units_lt (wholeDigits : AllDigits whole) (fits : whole.length ≤ 10)
    (fractionDigits : AllDigits fraction) (short : fraction.length ≤ 8) :
    digitsValue whole * 10 ^ 8 + fractionUnits fraction < 10 ^ 18 := by
  have first := digitsValue_lt wholeDigits
  have power : 10 ^ whole.length ≤ 10 ^ 10 := Nat.pow_le_pow_right (by decide) fits
  have second := fractionUnits_lt fractionDigits short
  omega

theorem parseMoney_eq_some {value : CAmount} (read : parseMoney text = some value) :
    ∃ whole fraction, IsNumeral (trimString text) whole fraction ∧ whole.length ≤ 10 ∧
      fraction.length ≤ 8 ∧
      value = Int64.ofNat (digitsValue whole * 10 ^ 8 + fractionUnits fraction) := by
  unfold parseMoney at read
  split at read
  · cases read
  dsimp only at read
  split at read
  · cases read
  split at read
  · cases read
  rename_i strWhole nUnits p scanned
  split at read
  · cases read
  rename_i ended
  obtain rfl : p = [] := by simpa using ended
  split at read
  · cases read
  rename_i size
  split at read
  · cases read
  obtain ⟨fraction, numeral, short, rfl⟩ := isNumeral_of_scanMoney scanned
  have fits : strWhole.length ≤ 10 := Nat.le_of_not_lt size
  refine ⟨strWhole, fraction, numeral, fits, short, ?_⟩
  rw [Int64.ofNat_add, Int64.ofNat_mul, ← atoi64_eq numeral.whole_digits fits]
  exact (Option.some.inj read).symm

theorem trimString_of_ends {first : Char} {middle : List Char} {last : Char}
    (front : isSpace first = false) (back : isSpace last = false) :
    trimString (first :: middle ++ [last]) = first :: middle ++ [last] := by
  rw [trimString, cons_append, dropWhile_cons_of_neg (by simp [front]),
    ← cons_append, reverse_append, reverse_singleton, singleton_append,
    dropWhile_cons_of_neg (by simp [back]), reverse_cons, reverse_reverse]

theorem not_mem_of_digits (all : AllDigits digits) : '\x00' ∉ digits := by
  intro member
  exact absurd (all _ member) (by decide)

theorem parseMoney_numeral (wholeDigits : AllDigits whole) (wholeSize : whole ≠ [])
    (fractionDigits : AllDigits fraction) (fractionSize : fraction ≠ [])
    (short : fraction.length ≤ 8) :
    parseMoney (whole ++ '.' :: fraction) =
      if whole.length ≤ 10 then
        some (Int64.ofNat (digitsValue whole * 10 ^ 8 + fractionUnits fraction))
      else none := by
  have valid : validAsCString (whole ++ '.' :: fraction) = true := by
    have point : '\x00' ≠ '.' := by decide
    simp [validAsCString, not_mem_of_digits wholeDigits, not_mem_of_digits fractionDigits, point]
  have trimmed : trimString (whole ++ '.' :: fraction) = whole ++ '.' :: fraction := by
    obtain ⟨first, wholeRest, rfl⟩ := exists_cons_of_ne_nil wholeSize
    obtain ⟨fractionFront, last, rfl⟩ := eq_nil_or_concat' fraction |>.resolve_left fractionSize
    have ends := @trimString_of_ends first (wholeRest ++ '.' :: fractionFront) last
      (isSpace_of_isDigit (wholeDigits first mem_cons_self))
      (isSpace_of_isDigit (fractionDigits last (by simp)))
    simpa using ends
  have scanned := scanMoney_whole wholeDigits (scanMoney_point fractionDigits short)
  have units := fractionUnits_lt fractionDigits short
  have inRange : (Int64.ofNat (fractionUnits fraction) < 0 ||
      Int64.ofNat (fractionUnits fraction) > coin) = false := by
    have value : (Int64.ofNat (fractionUnits fraction)).toInt = fractionUnits fraction :=
      Int64.toInt_ofNat_of_lt (lt_trans units (by decide))
    have coinValue : coin.toInt = 100000000 := by decide
    have zeroValue : (0 : Int64).toInt = 0 := by decide
    simp only [or_eq_false_iff, decide_eq_false_iff_not, Int64.lt_iff_toInt_lt, gt_iff_lt,
      value, coinValue, zeroValue]
    omega
  have nonempty : (whole ++ '.' :: fraction).isEmpty = false := by simp
  simp only [parseMoney, valid, trimmed, scanned, inRange, nonempty, append_nil,
    isEmpty_nil, Bool.not_true, false_eq_true, if_false]
  by_cases size : whole.length ≤ 10
  · rw [if_neg (not_lt.mpr size), if_pos size, atoi64_eq wholeDigits size, Int64.ofNat_add,
      Int64.ofNat_mul]
    rfl
  · rw [if_pos (not_le.mp size), if_neg size]

/-! ## Writing -/

theorem nTrim_digits {digits : List Char} (all : AllDigits digits)
    (size : 2 ≤ digits.length) (rest : List Char) :
    ∃ kept, digits = replicate (nTrim (digits ++ '.' :: rest)) '0' ++ kept ∧ 2 ≤ kept.length := by
  induction digits with
  | nil => exact absurd size (by decide)
  | cons last digits ih =>
    match digits, size with
    | [next], _ =>
      have point : '.'.isDigit = false := by decide
      exact ⟨[last, next], by simp [nTrim, point], by simp⟩
    | next :: before :: digits, _ =>
      have tail := forall_mem_cons.mp all
      have isDigit : before.isDigit = true := all before (by simp)
      obtain ⟨kept, split, long⟩ := ih tail.2 (by simp)
      by_cases zero : last = '0'
      · refine ⟨kept, ?_, long⟩
        subst zero
        rw [cons_append, cons_append, cons_append, nTrim, isDigit,
          if_pos (by simp), replicate_succ, cons_append]
        exact congrArg _ split
      · refine ⟨last :: next :: before :: digits, ?_, by simp⟩
        rw [cons_append, cons_append, cons_append, nTrim, if_neg (by simp [zero])]
        rfl

theorem decimals_spec {remainder : Nat} (small : remainder < 10 ^ 8) :
    ((toDigits 10 remainder).leftpad 8 '0').length = 8 ∧
      AllDigits ((toDigits 10 remainder).leftpad 8 '0') ∧
      digitsValue ((toDigits 10 remainder).leftpad 8 '0') = remainder := by
  have size : (toDigits 10 remainder).length ≤ 8 :=
    (length_toDigits_le_iff (by decide) (by decide)).mpr small
  refine ⟨by rw [length_leftpad, max_eq_left size], ?_, ?_⟩
  · intro c member
    rw [leftpad, mem_append] at member
    rcases member with padding | digit
    · rw [eq_of_mem_replicate padding]
      decide
    · exact (digits_of_toDigits _).1 c digit
  · rw [leftpad, digitsValue_append, digitsValue_replicate, zero_mul, zero_add]
    exact (digits_of_toDigits _).2

theorem formatMoney_eq {n : CAmount} (positive : 0 ≤ n.toInt) :
    ∃ fraction, formatMoney n = toDigits 10 (n.toInt.natAbs / 100000000) ++ '.' :: fraction ∧
      AllDigits fraction ∧ fraction ≠ [] ∧ fraction.length ≤ 8 ∧
      fractionUnits fraction = n.toInt.natAbs % 100000000 := by
  generalize quotientIs : n.toInt.natAbs / 100000000 = quotient
  generalize remainderIs : n.toInt.natAbs % 100000000 = remainder
  have small : remainder < 10 ^ 8 := by omega
  obtain ⟨length, digits, value⟩ := decimals_spec small
  -- the eight decimals, before any is dropped
  generalize decimalsIs : (toDigits 10 remainder).leftpad 8 '0' = decimals at length digits value
  obtain ⟨kept, split, long⟩ := @nTrim_digits decimals.reverse
    (fun c member => digits c (mem_reverse.mp member)) (by simp [length])
    (toDigits 10 quotient).reverse
  generalize trimIs : nTrim (decimals.reverse ++ '.' :: (toDigits 10 quotient).reverse) = trim
    at split
  have decimalsSplit : decimals = kept.reverse ++ replicate trim '0' := by
    rw [← reverse_reverse decimals, split, reverse_append, reverse_replicate]
  have sizes : kept.length + trim = 8 := by
    rw [← length, decimalsSplit]
    simp
  have backwards : (untrimmed quotient remainder).reverse =
      decimals.reverse ++ '.' :: (toDigits 10 quotient).reverse := by
    rw [untrimmed, decimalsIs, reverse_append, reverse_cons, append_assoc, singleton_append]
  have text : untrimmed quotient remainder =
      (toDigits 10 quotient ++ '.' :: kept.reverse) ++ replicate trim '0' := by
    rw [untrimmed, decimalsIs, decimalsSplit, append_assoc, cons_append]
  have notNegative : ¬ n < 0 := by
    rw [Int64.lt_iff_toInt_lt]
    exact not_lt.mpr positive
  refine ⟨kept.reverse, ?_, ?_, ?_, ?_, ?_⟩
  · simp only [formatMoney, quotientIs, remainderIs, backwards, trimIs, notNegative, if_false]
    rw [text, length_append, length_replicate, Nat.add_sub_cancel, take_left]
  · intro c member
    exact digits c (by rw [decimalsSplit]; exact mem_append_left _ member)
  · intro empty
    rw [reverse_eq_nil_iff] at empty
    subst empty
    exact absurd long (by decide)
  · rw [length_reverse]
    omega
  · rw [← value, decimalsSplit, digitsValue_append, digitsValue_replicate, fractionUnits,
      length_replicate, length_reverse, add_zero,
      show 8 - kept.length = trim by omega]

theorem parseMoney_formatMoney {n : CAmount} (positive : 0 ≤ n.toInt) :
    parseMoney (formatMoney n) = if n.toInt < 10 ^ 18 then some n else none := by
  obtain ⟨fraction, written, digits, size, short, units⟩ := formatMoney_eq positive
  obtain ⟨wholeDigits, value⟩ := digits_of_toDigits (n.toInt.natAbs / 100000000)
  have amount : Int64.ofNat
      (n.toInt.natAbs / 100000000 * 10 ^ 8 + n.toInt.natAbs % 100000000) = n := by
    have whole : n.toInt.natAbs / 100000000 * 10 ^ 8 + n.toInt.natAbs % 100000000 =
        n.toInt.natAbs := div_add_mod' n.toInt.natAbs 100000000
    have high := n.toInt_lt
    apply Int64.toInt_inj.mp
    rw [whole, Int64.toInt_ofNat_of_lt (by omega), natAbs_of_nonneg positive]
  rw [written, parseMoney_numeral wholeDigits toDigits_ne_nil digits size short, value, units,
    amount]
  refine if_congr ?_ rfl rfl
  rw [length_toDigits_le_iff (by decide) (by decide)]
  omega

/-- Amounts in the money range are read back exactly when they are below ten billion
coins; and whatever text is accepted, the amount is the numeral's value in base
units, without a wrap of the signed word. -/
theorem parseMoney_inverts_formatMoney (n : CAmount) (text : List Char) (value : CAmount) :
    (moneyRange n = true →
      (parseMoney (formatMoney n) = some n ↔ n.toInt < 10000000000 * coin.toInt)) ∧
    (parseMoney text = some value →
      ∃ whole fraction, IsNumeral (trimString text) whole fraction ∧
        (value.toInt : ℚ) = numeralValue whole fraction * coin.toInt) := by
  have coinValue : coin.toInt = 10 ^ 8 := by decide
  refine ⟨?_, ?_⟩
  · intro inRange
    rw [parseMoney_formatMoney ((moneyRange_iff n).mp inRange).1, coinValue]
    split
    · rename_i small
      exact ⟨fun _ => small, fun _ => rfl⟩
    · rename_i large
      exact ⟨fun absurdity => (nomatch absurdity), fun small => absurd small large⟩
  · intro read
    obtain ⟨whole, fraction, numeral, fits, short, rfl⟩ := parseMoney_eq_some read
    have bound := units_lt numeral.whole_digits fits numeral.fraction_digits short
    refine ⟨whole, fraction, numeral, ?_⟩
    have exact := numeralValue_mul_coin whole short
    rw [Int64.toInt_ofNat_of_lt (lt_trans bound (by decide)), coinValue, cast_natCast,
      Int.cast_pow, Int.cast_ofNat, exact]

theorem oneCoin_inverts :
    parseMoney (formatMoney coin) = some coin ∧
      ∃ whole fraction, IsNumeral (trimString " 1.5".toList) whole fraction ∧
        ((150000000 : CAmount).toInt : ℚ) = numeralValue whole fraction * coin.toInt :=
  have both := parseMoney_inverts_formatMoney coin " 1.5".toList 150000000
  ⟨(both.1 (by decide)).mpr (by decide), both.2 (by decide +kernel)⟩

/-- The money limit itself is written with eleven digits before the point. -/
theorem parseMoney_formatMoney_maxMoney :
    moneyRange maxMoney = true ∧ formatMoney maxMoney = "38440000000.00".toList ∧
      parseMoney (formatMoney maxMoney) = none := by
  decide +kernel

end MooncoinFormal.Util
