import Mathlib
import MooncoinFormal.Util.MoneyStr

/-!
# Amounts in remote procedure calls

`ValueFromAmount` of `core_write.cpp` writes an amount with its eight decimals;
`AmountFromValue` of `rpc/util.cpp` reads a JSON number with `ParseFixedPoint` of
`util/strencodings.cpp`. The reader keeps zeros at the end of the digits apart from the
mantissa until another digit follows, and refuses a mantissa of more than eighteen
digits. The money limit of this coin has nineteen.
-/

namespace MooncoinFormal.Rpc

open Primitives Util List Option Nat Bool Char

/-! ## The source functions -/

/-- A JSON value as far as amounts are concerned: `getValStr` of numbers and strings. -/
inductive UniValue where
  | num (val : List Char)
  | str (val : List Char)
  | other
  deriving DecidableEq

def valueFromAmount (amount : CAmount) : UniValue :=
  let nAbs := amount.toInt.natAbs
  .num ((if amount < 0 then ['-'] else []) ++
    untrimmed (nAbs / coin.toInt.toNat) (nAbs % coin.toInt.toNat))

/-- `UPPER_BOUND`, the largest number of eighteen digits. -/
def upperBound : Nat := 10 ^ 18 - 1

/-- The loop that brings the zeros kept apart, and the next digit's place, into the
mantissa. -/
def raise : (rounds mantissa : Nat) → Option Nat
  | 0, mantissa => some mantissa
  | rounds + 1, mantissa =>
    if mantissa > upperBound / 10 then none else raise rounds (mantissa * 10)

def processMantissaDigit (ch : Char) (mantissa tzeros : Nat) : Option (Nat × Nat) :=
  if ch = '0' then some (mantissa, tzeros + 1)
  else (raise (tzeros + 1) mantissa).map fun raised => (raised + (ch.toNat - '0'.toNat), 0)

/-- The mantissa, the zeros kept apart, and how many digits were read. -/
structure Scan where
  mantissa : Nat
  tzeros : Nat
  count : Nat

def scanMantissa : List Char → Scan → Option (Scan × List Char)
  | [], scan => some (scan, [])
  | ch :: rest, scan =>
    if ch.isDigit then do
      let (mantissa, tzeros) ← processMantissaDigit ch scan.mantissa scan.tzeros
      scanMantissa rest ⟨mantissa, tzeros, scan.count + 1⟩
    else some (scan, ch :: rest)

/-- The digits before the point: a single zero, or digits that do not start with one. -/
def scanWhole : List Char → Option (Scan × List Char)
  | [] => none
  | ch :: rest =>
    if ch = '0' then some (⟨0, 0, 0⟩, rest)
    else if '1' ≤ ch ∧ ch ≤ '9' then scanMantissa (ch :: rest) ⟨0, 0, 0⟩
    else none

/-- The digits after the point, which count as `point_ofs`. -/
def scanFraction (scan : Scan) : List Char → Option (Scan × List Char)
  | '.' :: ch :: rest =>
    if ch.isDigit then scanMantissa (ch :: rest) { scan with count := 0 } else none
  | ['.'] => none
  | text => some ({ scan with count := 0 }, text)

def scanExponentDigits : List Char → (exponent : Nat) → Option (Nat × List Char)
  | [], exponent => some (exponent, [])
  | ch :: rest, exponent =>
    if ch.isDigit then
      if exponent > upperBound / 10 then none
      else scanExponentDigits rest (exponent * 10 + (ch.toNat - '0'.toNat))
    else some (exponent, ch :: rest)

/-- At least one digit is expected. -/
def scanExponentNumber : List Char → Option (Nat × List Char)
  | [] => none
  | ch :: rest => if ch.isDigit then scanExponentDigits (ch :: rest) 0 else none

def scanSignedExponent : List Char → Option (Int × List Char)
  | '+' :: rest => (scanExponentNumber rest).map fun (exponent, left) => (exponent, left)
  | '-' :: rest => (scanExponentNumber rest).map fun (exponent, left) => (-exponent, left)
  | text => (scanExponentNumber text).map fun (exponent, left) => (exponent, left)

def scanExponent : List Char → Option (Int × List Char)
  | 'e' :: rest => scanSignedExponent rest
  | 'E' :: rest => scanSignedExponent rest
  | text => some (0, text)

/-- The last loop, over the decimal places that are missing. -/
def scale : (exponent : Nat) → (mantissa : Int) → Option Int
  | 0, mantissa => some mantissa
  | exponent + 1, mantissa =>
    if mantissa > upperBound / 10 ∨ mantissa < -(upperBound / 10 : Int) then none
    else scale exponent (mantissa * 10)

/-- What is done with the digits once the whole text is read. -/
def finalize (negative : Bool) (scan : Scan) (exponent : Int) (decimals : Nat) : Option Int :=
  let exponent := exponent - scan.count + scan.tzeros + decimals
  let mantissa : Int := if negative then -scan.mantissa else scan.mantissa
  if exponent < 0 then none
  else if exponent ≥ 18 then none
  else do
    let amount ← scale exponent.toNat mantissa
    if amount > upperBound ∨ amount < -upperBound then none else some amount

def parseUnsigned (negative : Bool) (decimals : Nat) (text : List Char) : Option Int := do
  let (whole, afterWhole) ← scanWhole text
  let (scan, afterFraction) ← scanFraction whole afterWhole
  let (exponent, left) ← scanExponent afterFraction
  if left = [] then finalize negative scan exponent decimals else none

def parseFixedPoint (val : List Char) (decimals : Nat) : Option Int :=
  match val with
  | '-' :: rest => parseUnsigned true decimals rest
  | text => parseUnsigned false decimals text

/-- `JSONRPCError` with `RPC_TYPE_ERROR`. -/
inductive TypeError where
  | notNumberOrString
  | invalidAmount
  | outOfRange
  deriving DecidableEq

def amountFromText (val : List Char) : Except TypeError CAmount :=
  match parseFixedPoint val 8 with
  | none => .error .invalidAmount
  | some amount =>
    if moneyRange (Int64.ofInt amount) then .ok (Int64.ofInt amount) else .error .outOfRange

def amountFromValue : UniValue → Except TypeError CAmount
  | .num val => amountFromText val
  | .str val => amountFromText val
  | .other => .error .notNumberOrString

/-! ## Decimal numbers -/

structure Exponent where
  upper : Bool
  sign : Option Bool
  digits : List Char
  all_digits : ∀ c ∈ digits, c.isDigit = true
  nonempty : digits ≠ []

structure Decimal where
  negative : Bool
  whole : List Char
  fraction : Option (List Char)
  exponent : Option Exponent
  whole_digits : ∀ c ∈ whole, c.isDigit = true
  whole_nonempty : whole ≠ []
  fraction_digits : ∀ digits, fraction = some digits → ∀ c ∈ digits, c.isDigit = true
  fraction_nonempty : fraction ≠ some []

namespace Exponent

def text (exponent : Exponent) : List Char :=
  (if exponent.upper then 'E' else 'e') ::
    (match exponent.sign with
      | none => []
      | some true => ['-']
      | some false => ['+']) ++ exponent.digits

def value (exponent : Exponent) : Int :=
  if exponent.sign = some true then -(digitsValue exponent.digits) else digitsValue exponent.digits

end Exponent

def fractionText : Option (List Char) → List Char
  | none => []
  | some digits => '.' :: digits

def exponentText : Option Exponent → List Char
  | none => []
  | some exponent => exponent.text

namespace Decimal

def text (decimal : Decimal) : List Char :=
  (if decimal.negative then ['-'] else []) ++
    (decimal.whole ++ (fractionText decimal.fraction ++ exponentText decimal.exponent))

def value (decimal : Decimal) : ℚ :=
  (if decimal.negative then -1 else 1) * digitsValue (decimal.whole ++ decimal.fraction.getD []) *
    10 ^ ((decimal.exponent.map Exponent.value).getD 0 - (decimal.fraction.getD []).length)

end Decimal

/-! ## What is scanned -/

variable {mantissa exponent decimals : Nat} {ch : Char} {left text rest : List Char} {scan : Scan}
  {amount : Int}

/-- No digit follows. -/
abbrev Stops (text : List Char) : Prop := ∀ c ∈ text.head?, c.isDigit = false

theorem scale_natCast (exponent mantissa : Nat) :
    scale exponent mantissa = (raise exponent mantissa).map (↑) := by
  induction exponent generalizing mantissa with
  | zero => rfl
  | succ exponent ih =>
    rw [scale, raise]
    by_cases large : mantissa > upperBound / 10
    · rw [if_pos (by omega), if_pos large]
      rfl
    · rw [if_neg (by omega), if_neg large, ← ih, cast_mul]
      rfl

theorem scale_eq_some {mantissa : Int} (run : scale exponent mantissa = some amount) :
    amount = mantissa * 10 ^ exponent := by
  induction exponent generalizing mantissa with
  | zero =>
    cases run
    rw [pow_zero, mul_one]
  | succ exponent ih =>
    rw [scale] at run
    split at run
    · cases run
    · rw [ih run, pow_succ, mul_assoc, mul_comm 10]

theorem raise_of_lt {rounds : Nat} (fits : mantissa * 10 ^ rounds < 10 ^ 18) :
    raise rounds mantissa = some (mantissa * 10 ^ rounds) := by
  induction rounds generalizing mantissa with
  | zero => rw [raise, pow_zero, mul_one]
  | succ rounds ih =>
    have step : mantissa * 10 ^ (rounds + 1) = mantissa * 10 * 10 ^ rounds := by ring
    have below : mantissa * 10 ≤ mantissa * 10 * 10 ^ rounds :=
      Nat.le_mul_of_pos_right _ (Nat.pow_pos (by decide))
    rw [step] at fits ⊢
    have small : ¬ mantissa > upperBound / 10 := by
      have bound : upperBound / 10 = 10 ^ 17 - 1 := by decide
      omega
    rw [raise, if_neg small, ih fits]

def Scan.number (scan : Scan) : Nat := scan.mantissa * 10 ^ scan.tzeros

theorem processMantissaDigit_eq_some {tzeros mantissa' tzeros' : Nat}
    (run : processMantissaDigit ch mantissa tzeros = some (mantissa', tzeros')) :
    mantissa' * 10 ^ tzeros' = mantissa * 10 ^ tzeros * 10 + (ch.toNat - '0'.toNat) ∧
      tzeros' ≤ tzeros + 1 := by
  unfold processMantissaDigit at run
  split at run
  · rename_i zero
    cases run
    rw [zero, pow_succ, ← Nat.mul_assoc, Nat.sub_self]
    exact ⟨rfl, le_refl _⟩
  · obtain ⟨raised, loop, same⟩ := map_eq_some_iff.mp run
    cases same
    have scaled := scale_natCast (tzeros + 1) mantissa
    rw [loop] at scaled
    have value : raised = mantissa * 10 ^ (tzeros + 1) := by exact_mod_cast scale_eq_some scaled
    rw [value, pow_succ, ← mul_assoc, pow_zero, mul_one]
    exact ⟨rfl, zero_le _⟩

theorem processMantissaDigit_isSome {ch : Char} {mantissa tzeros : Nat}
    (fits : mantissa * 10 ^ tzeros * 10 < 10 ^ 18) :
    (processMantissaDigit ch mantissa tzeros).isSome = true := by
  unfold processMantissaDigit
  split
  · rfl
  · rw [raise_of_lt (by rwa [pow_succ, ← mul_assoc])]
    rfl

theorem scanMantissa_eq_some {scan' : Scan} (run : scanMantissa text scan = some (scan', left)) :
    ∃ digits, text = digits ++ left ∧ AllDigits digits ∧
      scan'.count = scan.count + digits.length ∧
      scan'.number = scan.number * 10 ^ digits.length + digitsValue digits ∧
      scan'.tzeros ≤ scan.tzeros + digits.length ∧ Stops left := by
  induction text generalizing scan with
  | nil =>
    cases run
    exact ⟨[], rfl, nofun, rfl, by simp [digitsValue], le_refl _, nofun⟩
  | cons ch rest ih =>
    rw [scanMantissa] at run
    split at run
    · rename_i isDigit
      obtain ⟨⟨mantissa, tzeros⟩, first, later⟩ := bind_eq_some_iff.mp run
      obtain ⟨digits, rfl, all, count, number, zeros, stop⟩ := ih later
      dsimp only at count zeros
      obtain ⟨value, few⟩ := processMantissaDigit_eq_some first
      refine ⟨ch :: digits, rfl, forall_mem_cons.mpr ⟨isDigit, all⟩, ?_, ?_, ?_, stop⟩
      · rw [count, length_cons]
        omega
      · rw [number, Scan.number, value, digitsValue_cons, length_cons, Scan.number]
        ring
      · rw [length_cons]
        exact le_trans zeros (by omega)
    · rename_i notDigit
      cases run
      refine ⟨[], rfl, nofun, rfl, by simp [digitsValue], le_refl _, ?_⟩
      simpa [Stops] using notDigit

theorem ne_nil_of_stop {digits : List Char} (isDigit : ch.isDigit = true)
    (form : ch :: rest = digits ++ left) (stop : Stops left) : digits ≠ [] := by
  rintro rfl
  rw [nil_append] at form
  have first := stop ch (by rw [← form]; rfl)
  rw [isDigit] at first
  cases first

theorem scanMantissa_of_lt {digits left : List Char} (all : AllDigits digits)
    (stop : Stops left) {scan : Scan}
    (fits : scan.number * 10 ^ digits.length + digitsValue digits < 10 ^ 18) :
    ∃ scan', scanMantissa (digits ++ left) scan = some (scan', left) := by
  induction digits generalizing scan with
  | nil =>
    match left with
    | [] => exact ⟨scan, rfl⟩
    | ch :: rest =>
      have notDigit : ¬ ch.isDigit = true := by
        rw [stop ch rfl]
        exact Bool.false_ne_true
      exact ⟨scan, by rw [nil_append, scanMantissa, if_neg notDigit]⟩
  | cons ch rest ih =>
    obtain ⟨isDigit, others⟩ := forall_mem_cons.mp all
    rw [length_cons, digitsValue_cons, pow_succ] at fits
    have room : scan.mantissa * 10 ^ scan.tzeros * 10 < 10 ^ 18 := by
      have below : scan.number * 10 ≤ scan.number * (10 ^ rest.length * 10) :=
        Nat.mul_le_mul_left _ (Nat.le_mul_of_pos_left _ (Nat.pow_pos (by decide)))
      exact lt_of_le_of_lt below (by omega)
    obtain ⟨⟨mantissa, tzeros⟩, first⟩ :=
      isSome_iff_exists.mp (@processMantissaDigit_isSome ch _ _ room)
    have value := (processMantissaDigit_eq_some first).1
    have next : (⟨mantissa, tzeros, scan.count + 1⟩ : Scan).number * 10 ^ rest.length +
        digitsValue rest < 10 ^ 18 := by
      rw [Scan.number, value]
      refine lt_of_le_of_lt (le_of_eq ?_) fits
      rw [Scan.number]
      ring
    obtain ⟨scan', run⟩ := ih others next
    refine ⟨scan', ?_⟩
    rw [cons_append, scanMantissa, if_pos isDigit, first]
    exact run

theorem isDigit_of_le (range : '1' ≤ ch ∧ ch ≤ '9') : ch.isDigit = true := by
  have low : 49 ≤ ch.toNat := range.1
  have high : ch.toNat ≤ 57 := range.2
  simp only [isDigit, and_eq_true, decide_eq_true_eq]
  exact ⟨le_trans (by decide : 48 ≤ 49) low, high⟩

theorem scanWhole_eq_some (run : scanWhole text = some (scan, left)) :
    ∃ whole, text = whole ++ left ∧ whole ≠ [] ∧ AllDigits whole ∧
      scan.number = digitsValue whole := by
  match text with
  | [] => cases run
  | ch :: rest =>
    rw [scanWhole] at run
    split at run
    · rename_i zero
      cases run
      exact ⟨['0'], by rw [zero]; rfl, by simp, by simp [AllDigits], by decide⟩
    · split at run
      · rename_i range
        obtain ⟨digits, form, all, -, number, -, stop⟩ := scanMantissa_eq_some run
        exact ⟨digits, form, ne_nil_of_stop (isDigit_of_le range) form stop, all,
          by rw [number]; simp [Scan.number]⟩
      · cases run

theorem scanFraction_eq_some {scan' : Scan} (run : scanFraction scan text = some (scan', left)) :
    ∃ fraction, text = fractionText fraction ++ left ∧
      (∀ digits, fraction = some digits → AllDigits digits) ∧ fraction ≠ some [] ∧
      scan'.count = (fraction.getD []).length ∧
      scan'.number = scan.number * 10 ^ (fraction.getD []).length +
        digitsValue (fraction.getD []) := by
  unfold scanFraction at run
  split at run
  · rename_i ch rest
    split at run
    · rename_i isDigit
      obtain ⟨digits, form, all, count, number, -, stop⟩ := scanMantissa_eq_some run
      exact ⟨some digits, by rw [form]; rfl, fun _ same => some.inj same ▸ all,
        fun empty => ne_nil_of_stop isDigit form stop (some.inj empty),
        by rw [count]; exact zero_add _, number⟩
    · cases run
  · cases run
  · cases run
    exact ⟨none, rfl, nofun, nofun, rfl, by simp [Scan.number, digitsValue]⟩

theorem scanExponentDigits_eq_some {exponent' : Nat}
    (run : scanExponentDigits text exponent = some (exponent', left)) :
    ∃ digits, text = digits ++ left ∧ AllDigits digits ∧
      exponent' = exponent * 10 ^ digits.length + digitsValue digits ∧ Stops left := by
  induction text generalizing exponent with
  | nil =>
    cases run
    exact ⟨[], rfl, nofun, by simp [digitsValue], nofun⟩
  | cons ch rest ih =>
    rw [scanExponentDigits] at run
    split at run
    · rename_i isDigit
      split at run
      · cases run
      · obtain ⟨digits, rfl, all, value, stop⟩ := ih run
        refine ⟨ch :: digits, rfl, forall_mem_cons.mpr ⟨isDigit, all⟩, ?_, stop⟩
        rw [value, digitsValue_cons, length_cons]
        ring
    · rename_i notDigit
      cases run
      exact ⟨[], rfl, nofun, by simp [digitsValue], by simpa [Stops] using notDigit⟩

variable {number : Nat}

theorem scanExponentNumber_eq_some (run : scanExponentNumber text = some (number, left)) :
    ∃ digits, text = digits ++ left ∧ AllDigits digits ∧ digits ≠ [] ∧
      number = digitsValue digits := by
  match text with
  | [] => cases run
  | ch :: rest =>
    rw [scanExponentNumber] at run
    split at run
    · rename_i isDigit
      obtain ⟨digits, form, all, value, stop⟩ := scanExponentDigits_eq_some run
      exact ⟨digits, form, all, ne_nil_of_stop isDigit form stop, by rw [value, zero_mul, zero_add]⟩
    · cases run

theorem scanSignedExponent_eq_some {number : Int}
    (run : scanSignedExponent text = some (number, left)) (upper : Bool) :
    ∃ exponent : Exponent, (if upper then 'E' else 'e') :: text = exponent.text ++ left ∧
      exponent.value = number := by
  unfold scanSignedExponent at run
  split at run
  all_goals
    obtain ⟨⟨magnitude, _⟩, scanned, same⟩ := map_eq_some_iff.mp run
    cases same
    obtain ⟨digits, rfl, all, nonempty, rfl⟩ := scanExponentNumber_eq_some scanned
  · exact ⟨⟨upper, some false, digits, all, nonempty⟩, rfl, rfl⟩
  · exact ⟨⟨upper, some true, digits, all, nonempty⟩, rfl, rfl⟩
  · exact ⟨⟨upper, none, digits, all, nonempty⟩, rfl, rfl⟩

theorem scanExponent_eq_some {number : Int} (run : scanExponent text = some (number, left)) :
    ∃ exponent, text = exponentText exponent ++ left ∧
      (exponent.map Exponent.value).getD 0 = number := by
  unfold scanExponent at run
  split at run
  · obtain ⟨exponent, form, value⟩ := scanSignedExponent_eq_some run false
    exact ⟨some exponent, form, value⟩
  · obtain ⟨exponent, form, value⟩ := scanSignedExponent_eq_some run true
    exact ⟨some exponent, form, value⟩
  · cases run
    exact ⟨none, rfl, rfl⟩

theorem finalize_eq_some {negative : Bool} {exponent : Int}
    (run : finalize negative scan exponent decimals = some amount) :
    (amount : ℚ) = (if negative then -1 else 1) * scan.number *
        10 ^ (exponent - scan.count) * 10 ^ decimals ∧ |amount| ≤ upperBound := by
  unfold finalize at run
  dsimp only at run
  split at run
  · cases run
  split at run
  · cases run
  obtain ⟨scaled, loop, checked⟩ := bind_eq_some_iff.mp run
  split at checked
  · cases checked
  cases checked
  refine ⟨?_, abs_le.mpr (by omega)⟩
  have places : (10 : ℚ) ^ (exponent - scan.count + scan.tzeros + decimals).toNat =
      10 ^ scan.tzeros * 10 ^ (exponent - scan.count) * 10 ^ decimals := by
    rw [← zpow_natCast, Int.toNat_of_nonneg (by omega), zpow_add₀ (by norm_num),
      zpow_add₀ (by norm_num), zpow_natCast, zpow_natCast]
    ring
  rw [scale_eq_some loop, Scan.number]
  push_cast
  rw [places]
  cases negative with
  | true =>
    simp only [if_true]
    ring
  | false =>
    simp only [false_eq_true, if_false]
    ring

theorem parseUnsigned_eq_some {negative : Bool}
    (run : parseUnsigned negative decimals text = some amount) :
    ∃ decimal : Decimal, decimal.negative = negative ∧
      text = decimal.whole ++ (fractionText decimal.fraction ++ exponentText decimal.exponent) ∧
      (amount : ℚ) = decimal.value * 10 ^ decimals ∧ |amount| ≤ upperBound := by
  obtain ⟨⟨whole, afterWhole⟩, first, later⟩ := bind_eq_some_iff.mp run
  obtain ⟨⟨scan, afterFraction⟩, second, later⟩ := bind_eq_some_iff.mp later
  obtain ⟨⟨exponent, left⟩, third, later⟩ := bind_eq_some_iff.mp later
  dsimp only at later
  split at later
  · rename_i ends
    subst ends
    obtain ⟨wholeDigits, rfl, nonempty, all, wholeNumber⟩ := scanWhole_eq_some first
    obtain ⟨fraction, rfl, fractionAll, fractionNonempty, count, number⟩ :=
      scanFraction_eq_some second
    obtain ⟨exponent, rfl, rfl⟩ := scanExponent_eq_some third
    obtain ⟨value, bounded⟩ := finalize_eq_some later
    refine ⟨⟨negative, wholeDigits, fraction, exponent, all, nonempty, fractionAll,
      fractionNonempty⟩, rfl, by rw [append_nil], ?_, bounded⟩
    rw [value, number, wholeNumber, count, Decimal.value, digitsValue_append]
  · cases later

theorem parseFixedPoint_eq_some {val : List Char}
    (run : parseFixedPoint val decimals = some amount) :
    ∃ decimal : Decimal, decimal.text = val ∧ (amount : ℚ) = decimal.value * 10 ^ decimals ∧
      |amount| ≤ upperBound := by
  unfold parseFixedPoint at run
  split at run
  · obtain ⟨decimal, sign, rfl, value⟩ := parseUnsigned_eq_some run
    exact ⟨decimal, by rw [Decimal.text, sign]; rfl, value⟩
  · obtain ⟨decimal, sign, rfl, value⟩ := parseUnsigned_eq_some run
    exact ⟨decimal, by rw [Decimal.text, sign]; rfl, value⟩

/-! ## One number for each text -/

theorem digits_append_inj {first second right : List Char} (all : AllDigits first)
    (all' : AllDigits second) (stop : Stops left)
    (stop' : Stops right) (same : first ++ left = second ++ right) :
    first = second ∧ left = right := by
  have cut : ∀ {digits left}, AllDigits digits → Stops left →
      (digits ++ left).takeWhile Char.isDigit = digits := by
    intro digits left all stop
    rw [takeWhile_append_of_pos all]
    cases left with
    | nil => simp
    | cons c rest => simp [stop c rfl]
  obtain rfl : first = second := by rw [← cut all stop, same, cut all' stop']
  exact ⟨rfl, append_cancel_left same⟩

theorem ne_of_digits {digits : List Char} {mark : Char} (nonempty : digits ≠ [])
    (all : AllDigits digits) (notDigit : mark.isDigit = false) : digits ++ rest ≠ mark :: text := by
  intro same
  match digits with
  | [] => exact nonempty rfl
  | c :: others =>
    have digit := all c mem_cons_self
    rw [(cons.inj same).1, notDigit] at digit
    cases digit

theorem Exponent.value_congr {exponent other : Exponent} (sign : exponent.sign = other.sign)
    (digits : exponent.digits = other.digits) : exponent.value = other.value := by
  rw [value, value, sign, digits]

theorem Exponent.value_eq_of_text_eq {exponent other : Exponent}
    (same : exponent.text = other.text) :
    exponent.value = other.value := by
  obtain ⟨upper, sign, digits, all, nonempty⟩ := exponent
  obtain ⟨upper', sign', digits', all', nonempty'⟩ := other
  have behind := (cons.inj same).2
  have unsigned : ∀ {mark : Char} {text : List Char}, mark.isDigit = false →
      digits ≠ mark :: text ∧ digits' ≠ mark :: text := by
    intro mark text notDigit
    exact ⟨fun form => ne_of_digits nonempty all notDigit (by rw [append_nil]; exact form),
      fun form => ne_of_digits nonempty' all' notDigit (by rw [append_nil]; exact form)⟩
  match sign, sign' with
  | none, none => exact value_congr rfl behind
  | none, some true => exact absurd behind (unsigned (by decide)).1
  | none, some false => exact absurd behind (unsigned (by decide)).1
  | some true, none => exact absurd behind.symm (unsigned (by decide)).2
  | some false, none => exact absurd behind.symm (unsigned (by decide)).2
  | some true, some true => exact value_congr rfl (cons.inj behind).2
  | some false, some false => exact value_congr rfl (cons.inj behind).2
  | some true, some false => exact absurd (cons.inj behind).1 (by decide)
  | some false, some true => exact absurd (cons.inj behind).1 (by decide)

theorem exponentText_head (exponent : Option Exponent) :
    ∀ c ∈ (exponentText exponent).head?, c ∈ ['E', 'e'] := by
  match exponent with
  | none => nofun
  | some exponent =>
    rintro c ⟨rfl⟩
    cases exponent.upper <;> simp

theorem exponentText_stop (exponent : Option Exponent) : Stops (exponentText exponent) := by
  intro c head
  have letters : ∀ c ∈ ['E', 'e'], c.isDigit = false := by simp
  exact letters c (exponentText_head exponent c head)

theorem fractionText_stop (fraction : Option (List Char)) (exponent : Option Exponent) :
    Stops (fractionText fraction ++ exponentText exponent) := by
  cases fraction with
  | none => exact exponentText_stop exponent
  | some digits =>
    rintro c ⟨rfl⟩
    decide

theorem exponentText_ne_point (exponent : Option Exponent) (text : List Char) :
    exponentText exponent ≠ '.' :: text := by
  intro same
  exact absurd (exponentText_head exponent '.' (by rw [same]; rfl)) (by decide)

theorem exponent_value_eq_of_text_eq {exponent other : Option Exponent}
    (same : exponentText exponent = exponentText other) :
    (exponent.map Exponent.value).getD 0 = (other.map Exponent.value).getD 0 := by
  match exponent, other with
  | none, none => rfl
  | none, some _ => cases same
  | some _, none => cases same
  | some exponent, some other => exact Exponent.value_eq_of_text_eq same

theorem Decimal.value_eq_of_text_eq {decimal other : Decimal} (same : decimal.text = other.text) :
    decimal.value = other.value := by
  obtain ⟨negative, whole, fraction, exponent, digits, nonempty, decimals, _⟩ := decimal
  obtain ⟨negative', whole', fraction', exponent', digits', nonempty', decimals', _⟩ := other
  have behind : negative = negative' ∧ whole ++ (fractionText fraction ++ exponentText exponent) =
      whole' ++ (fractionText fraction' ++ exponentText exponent') := by
    match negative, negative' with
    | true, true => exact ⟨rfl, (cons.inj same).2⟩
    | false, false => exact ⟨rfl, same⟩
    | true, false =>
      have mark : whole' ++ _ = '-' :: _ := same.symm
      exact absurd mark (ne_of_digits nonempty' digits' (by decide))
    | false, true =>
      have mark : whole ++ _ = '-' :: _ := same
      exact absurd mark (ne_of_digits nonempty digits (by decide))
  obtain ⟨rfl, unsigned⟩ := behind
  obtain ⟨rfl, tails⟩ := digits_append_inj digits digits' (fractionText_stop _ _)
    (fractionText_stop _ _) unsigned
  have parts : fraction.getD [] = fraction'.getD [] ∧
      exponentText exponent = exponentText exponent' := by
    match fraction, fraction' with
    | none, none => exact ⟨rfl, tails⟩
    | none, some _ => exact absurd tails (exponentText_ne_point _ _)
    | some _, none => exact absurd tails.symm (exponentText_ne_point _ _)
    | some fraction, some fraction' =>
      exact digits_append_inj (decimals fraction rfl) (decimals' fraction' rfl)
        (exponentText_stop _) (exponentText_stop _) (cons.inj tails).2
  simp only [Decimal.value, parts.1, exponent_value_eq_of_text_eq parts.2]

/-! ## Reading back what was written -/

theorem toDigits_head (form : toDigits 10 number = ch :: rest)
    (zero : ch = '0') : rest = [] ∧ number = 0 := by
  obtain ⟨all, value⟩ := digits_of_toDigits number
  rw [form] at all value
  rw [zero, digitsValue_cons, Nat.sub_self, Nat.zero_mul, Nat.zero_add] at value
  have empty : rest = [] := by
    by_contra nonempty
    have short := (length_toDigits_le_iff (by decide) (length_pos_iff.mpr nonempty)).mpr
      (value ▸ digitsValue_lt (forall_mem_cons.mp all).2)
    rw [form, length_cons] at short
    exact not_succ_le_self _ short
  subst empty
  exact ⟨rfl, value.symm⟩

theorem scanWhole_toDigits {quotient : Nat} (fits : quotient < 10 ^ 18) {left : List Char}
    (stop : Stops left) :
    ∃ scan, scanWhole (toDigits 10 quotient ++ left) = some (scan, left) ∧
      scan.number = quotient ∧ (quotient = 0 → scan.tzeros = 0) := by
  obtain ⟨all, value⟩ := digits_of_toDigits quotient
  match form : toDigits 10 quotient with
  | [] => exact absurd form toDigits_ne_nil
  | ch :: rest =>
    by_cases zero : ch = '0'
    · obtain ⟨rfl, rfl⟩ := toDigits_head form zero
      exact ⟨⟨0, 0, 0⟩, by rw [cons_append, scanWhole, if_pos zero]; rfl, rfl, fun _ => rfl⟩
    rw [form] at all value
    have range : '1' ≤ ch ∧ ch ≤ '9' := by
      have digit := all ch mem_cons_self
      simp only [isDigit, and_eq_true, decide_eq_true_eq] at digit
      have low : 48 ≤ ch.toNat := digit.1
      have other : ch.toNat ≠ 48 := fun same => zero (toNat_inj.mp same)
      exact ⟨show 49 ≤ ch.toNat by omega, digit.2⟩
    obtain ⟨scan, run⟩ := scanMantissa_of_lt all stop
      (show (⟨0, 0, 0⟩ : Scan).number * _ + _ < _ by rw [value]; simpa [Scan.number] using fits)
    obtain ⟨digits, same, -, -, number, -, -⟩ := scanMantissa_eq_some run
    obtain rfl := append_cancel_right same
    have exact : scan.number = quotient := by
      rw [number, value]
      simp [Scan.number]
    refine ⟨scan, ?_, exact, ?_⟩
    · rw [cons_append, scanWhole, if_neg zero, if_pos range]
      exact run
    · rintro rfl
      exact absurd (cons.inj form).1.symm zero

theorem finalize_of_lt (count : scan.count = 8) (zeros : scan.tzeros < 18)
    (fits : scan.number < 10 ^ 18) : finalize false scan 0 8 = some (scan.number : Int) := by
  have exponent : (0 : Int) - scan.count + scan.tzeros + (8 : Nat) = scan.tzeros := by
    omega
  have bound : (upperBound : Int) = 10 ^ 18 - 1 := by decide
  unfold finalize
  rw [exponent, if_neg (by omega), if_neg (by omega), Int.toNat_natCast]
  simp only [false_eq_true, if_false]
  rw [scale_natCast, raise_of_lt fits]
  show (if _ then none else some _) = _
  rw [if_neg (by rw [bound]; unfold Scan.number at fits; omega)]
  rfl

theorem scanFraction_of_lt {decimals : List Char} (nonempty : decimals ≠ [])
    (all : AllDigits decimals) {scan : Scan}
    (fits : scan.number * 10 ^ decimals.length + digitsValue decimals < 10 ^ 18) :
    ∃ scan', scanFraction scan ('.' :: decimals) = some (scan', []) ∧
      scan'.count = decimals.length ∧
      scan'.number = scan.number * 10 ^ decimals.length + digitsValue decimals ∧
      scan'.tzeros ≤ scan.tzeros + decimals.length := by
  obtain ⟨scan', run⟩ := @scanMantissa_of_lt decimals [] all nofun { scan with count := 0 } fits
  obtain ⟨digits, same, -, count, number, zeros, -⟩ := scanMantissa_eq_some run
  rw [append_nil] at run
  obtain rfl := append_cancel_right same
  refine ⟨scan', ?_, by rw [count]; exact zero_add _, number, zeros⟩
  match decimals with
  | [] => exact absurd rfl nonempty
  | ch :: rest =>
    rw [scanFraction, if_pos (all ch mem_cons_self)]
    exact run

theorem parseFixedPoint_untrimmed (fits : number < 10 ^ 18) :
    parseFixedPoint (untrimmed (number / 100000000) (number % 100000000)) 8 =
      some (number : Int) := by
  obtain ⟨length, digits, value⟩ := decimals_spec (mod_lt number (by decide) : _ < 10 ^ 8)
  generalize decimalsIs : (toDigits 10 (number % 100000000)).leftpad 8 '0' = decimals
    at length digits value
  have text : untrimmed (number / 100000000) (number % 100000000) =
      toDigits 10 (number / 100000000) ++ '.' :: decimals := by
    rw [untrimmed, decimalsIs]
  obtain ⟨whole, first, wholeNumber, noZeros⟩ :=
    @scanWhole_toDigits (number / 100000000) (by omega) ('.' :: decimals)
      (by rintro c ⟨rfl⟩; decide)
  have total : whole.number * 10 ^ decimals.length + digitsValue decimals = number := by
    rw [wholeNumber, length, value]
    omega
  obtain ⟨scan, second, count, scanned, zeros⟩ :=
    @scanFraction_of_lt decimals (by rintro rfl; cases length) digits whole (total ▸ fits)
  rw [total] at scanned
  rw [length] at count zeros
  -- zeros kept apart are decimals of a zero, or digits of the number
  have few : scan.tzeros < 18 := by
    rcases Nat.eq_zero_or_pos scan.mantissa with none | positive
    · have empty : number = 0 := by
        rw [← scanned, Scan.number, none, zero_mul]
      omega
    · have power : 10 ^ scan.tzeros ≤ scan.number := Nat.le_mul_of_pos_left _ positive
      exact (Nat.pow_lt_pow_iff_right (by decide)).mp (lt_of_le_of_lt power (scanned ▸ fits))
  have unsigned : parseUnsigned false 8 (toDigits 10 (number / 100000000) ++ '.' :: decimals) =
      some (number : Int) := by
    rw [parseUnsigned, first]
    show (scanFraction whole ('.' :: decimals)).bind _ = _
    rw [second]
    show finalize false scan 0 8 = _
    rw [finalize_of_lt count few (scanned ▸ fits), scanned]
  rw [text, ← unsigned]
  unfold parseFixedPoint
  split
  · rename_i minus
    exact absurd minus (ne_of_digits toDigits_ne_nil (digits_of_toDigits _).1 (by decide))
  · rfl

/-! ## The law of the round trip -/

theorem amountFromText_eq_ok {val : List Char} {amount : CAmount}
    (read : amountFromText val = .ok amount) :
    (∃ decimal : Decimal, decimal.text = val ∧ (amount.toInt : ℚ) = decimal.value * coin.toInt) ∧
      amount.toInt < 10 ^ 18 := by
  unfold amountFromText at read
  split at read
  · cases read
  rename_i parsed run
  split at read
  · cases read
    obtain ⟨decimal, text, value, bounded⟩ := parseFixedPoint_eq_some run
    have bound : (upperBound : Int) = 10 ^ 18 - 1 := by decide
    obtain ⟨low, high⟩ := abs_le.mp bounded
    have exact : (Int64.ofInt parsed).toInt = parsed :=
      Int64.toInt_ofInt_of_le (by omega) (by omega)
    have coinValue : coin.toInt = 10 ^ 8 := by decide
    rw [exact]
    refine ⟨⟨decimal, text, ?_⟩, by omega⟩
    rw [value, coinValue]
    norm_num
  · cases read

theorem amountFromValue_eq_ok {value : UniValue} {amount : CAmount}
    (read : amountFromValue value = .ok amount) :
    ∃ val, (value = .num val ∨ value = .str val) ∧ amountFromText val = .ok amount := by
  match value with
  | .num val => exact ⟨val, .inl rfl, read⟩
  | .str val => exact ⟨val, .inr rfl, read⟩
  | .other => cases read

/-- What is written of an amount is read back exactly below ten billion coins, although
the money range goes further; and an accepted text is a decimal number, the amount being
that number times the coin. -/
theorem amountFromValue_valueFromAmount (amount : CAmount) (value : UniValue) (val : List Char)
    (result : CAmount) :
    (moneyRange amount = true →
      (amountFromValue (valueFromAmount amount) = .ok amount ↔
        amount.toInt < 10000000000 * coin.toInt)) ∧
    (value = .num val ∨ value = .str val → amountFromValue value = .ok result →
      (∃ decimal : Decimal, decimal.text = val) ∧
        ∀ decimal : Decimal, decimal.text = val →
          (result.toInt : ℚ) = decimal.value * coin.toInt) := by
  refine ⟨?_, ?_⟩
  · intro inRange
    have limit : 10000000000 * coin.toInt = 10 ^ 18 := by decide
    have positive := ((moneyRange_iff amount).mp inRange).1
    refine ⟨fun read => ?_, fun small => ?_⟩
    · obtain ⟨val, -, text⟩ := amountFromValue_eq_ok read
      exact (amountFromText_eq_ok text).2
    · have unsigned : ¬ amount < 0 := by
        rw [Int64.lt_iff_toInt_lt]
        exact not_lt.mpr positive
      have magnitude : ((amount.toInt.natAbs : Nat) : Int) = amount.toInt :=
        Int.natAbs_of_nonneg positive
      have parsed := @parseFixedPoint_untrimmed amount.toInt.natAbs (by omega)
      rw [magnitude] at parsed
      have written : valueFromAmount amount =
          .num (untrimmed (amount.toInt.natAbs / 100000000) (amount.toInt.natAbs % 100000000)) := by
        rw [valueFromAmount, if_neg unsigned]
        rfl
      rw [written, amountFromValue, amountFromText, parsed]
      show (if moneyRange (Int64.ofInt amount.toInt) then _ else _) = _
      rw [Int64.ofInt_toInt, if_pos inRange]
  · intro kind read
    obtain ⟨val', kind', text⟩ := amountFromValue_eq_ok read
    obtain rfl : val' = val := by
      rcases kind with rfl | rfl <;> rcases kind' with same | same <;> cases same <;> rfl
    obtain ⟨⟨decimal, form, worth⟩, -⟩ := amountFromText_eq_ok text
    refine ⟨⟨decimal, form⟩, fun other same => ?_⟩
    rw [worth, Decimal.value_eq_of_text_eq (form.trans same.symm)]

theorem amountFromValue_oneCoin :
    amountFromValue (valueFromAmount coin) = .ok coin ∧
      ((∃ decimal : Decimal, decimal.text = "15e-1".toList) ∧
        ∀ decimal : Decimal, decimal.text = "15e-1".toList →
          ((150000000 : CAmount).toInt : ℚ) = decimal.value * coin.toInt) :=
  have both := amountFromValue_valueFromAmount coin (.str "15e-1".toList) _ 150000000
  ⟨(both.1 (by decide)).mpr (by decide), both.2 (.inr rfl) (by decide +kernel)⟩

/-- The money limit is written with nineteen digits, which are refused. -/
theorem amountFromValue_maxMoney :
    moneyRange maxMoney = true ∧
      valueFromAmount maxMoney = .num "38440000000.00000000".toList ∧
      amountFromValue (valueFromAmount maxMoney) = .error .invalidAmount := by
  decide +kernel

end MooncoinFormal.Rpc
