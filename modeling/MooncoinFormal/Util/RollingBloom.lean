import Mathlib

/-!
# The rolling Bloom filter

`CRollingBloomFilter` of `bloom.cpp`. Each position of the table has a bit in each of two
words, which together are the number of the generation that set it last, or zero. When a
number is used again, the positions that still carry it are wiped with a mask. Newer
insertions overwrite older numbers, so what is shown of a position is how old its number
can be.
-/

namespace MooncoinFormal.Util

open List BitVec Function Nat

/-- The words are taken in pairs: `data[pos & ~1]` and `data[pos | 1]` are the pair `pos / 2`. -/
structure CRollingBloomFilter where
  nEntriesPerGeneration : Nat
  nEntriesThisGeneration : Nat
  nGeneration : Fin 4
  size : Nat
  data : Nat → BitVec 64 × BitVec 64

namespace CRollingBloomFilter

/-- The constructor's `(nElements + 1) / 2`, in 32 bits. -/
def entriesPerGeneration (nElements : UInt32) : Nat := ((nElements + 1) / 2).toNat

def fastMod (x : UInt32) (n : Nat) : Nat := x.toNat * n / 2 ^ 32

def bitOf (h : UInt32) : Nat := h.toNat % 64

/-- The number of the next generation. -/
def following (nGeneration : Fin 4) : Fin 4 := if nGeneration = 3 then 1 else nGeneration + 1

variable (nGeneration : Fin 4) (size : Nat) (words : BitVec 64 × BitVec 64)
  (data : Nat → BitVec 64 × BitVec 64) (h : UInt32)

/-- The body of the loop that wipes old entries. -/
def wipe : BitVec 64 × BitVec 64 :=
  let nGenerationMask1 := 0#64 - BitVec.ofNat 64 (nGeneration.val &&& 1)
  let nGenerationMask2 := 0#64 - BitVec.ofNat 64 (nGeneration.val >>> 1)
  let mask := (words.1 ^^^ nGenerationMask1) ||| (words.2 ^^^ nGenerationMask2)
  (words.1 &&& mask, words.2 &&& mask)

/-- The body of the loop over the hash functions. -/
def setBit : Nat → BitVec 64 × BitVec 64 :=
  let pair := fastMod h size / 2
  let bit := bitOf h
  update data pair
    (((data pair).1 &&& ~~~(1#64 <<< bit)) ||| BitVec.ofNat 64 (nGeneration.val &&& 1) <<< bit,
      ((data pair).2 &&& ~~~(1#64 <<< bit)) ||| BitVec.ofNat 64 (nGeneration.val >>> 1) <<< bit)

-- The hashes of a key are the values of `RollingBloomHash`, one for each hash function.
variable {κ : Type} (hashes : κ → List UInt32) (filter : CRollingBloomFilter) (key : κ)

def rotate : CRollingBloomFilter :=
  { filter with
    nEntriesThisGeneration := 0
    nGeneration := following filter.nGeneration
    data := fun pair => wipe (following filter.nGeneration) (filter.data pair) }

def insert : CRollingBloomFilter :=
  let filter := if filter.nEntriesThisGeneration = filter.nEntriesPerGeneration then filter.rotate
    else filter
  { filter with
    nEntriesThisGeneration := filter.nEntriesThisGeneration + 1
    data := (hashes key).foldl (setBit filter.nGeneration filter.size) filter.data }

def contains : Bool :=
  (hashes key).all fun h =>
    let words := filter.data (fastMod h filter.size / 2)
    ((words.1 ||| words.2) >>> bitOf h) &&& 1#64 != 0#64

def reset : CRollingBloomFilter :=
  { filter with nEntriesThisGeneration := 0, nGeneration := 1, data := fun _ => (0, 0) }

/-! ## The number at a position -/

/-- The two bits of a number. -/
def code : Bool × Bool :=
  ((nGeneration.val &&& 1).testBit 0, (nGeneration.val >>> 1).testBit 0)

def numberAt (bit : Nat) : Bool × Bool := (words.1.getLsbD bit, words.2.getLsbD bit)

def number : Bool × Bool := numberAt (data (fastMod h size / 2)) (bitOf h)

variable {nGeneration size words data h}

theorem bits_le : nGeneration.val &&& 1 ≤ 1 ∧ nGeneration.val >>> 1 ≤ 1 := by
  revert nGeneration
  decide

theorem numberAt_wipe {bit : Nat} (inside : bit < 64)
    (differs : numberAt words bit ≠ code nGeneration) :
    numberAt (wipe nGeneration words) bit = numberAt words bit := by
  have mask : ∀ {value}, value ≤ 1 →
      (0#64 - BitVec.ofNat 64 value).getLsbD bit = value.testBit 0 := by
    intro value small
    obtain rfl | rfl := le_one_iff_eq_zero_or_eq_one.mp small
    · simp
    · rw [show 0#64 - BitVec.ofNat 64 1 = allOnes 64 by decide, getLsbD_allOnes]
      exact decide_eq_true inside
  have kept : ((words.1.getLsbD bit ^^ (nGeneration.val &&& 1).testBit 0) ||
      (words.2.getLsbD bit ^^ (nGeneration.val >>> 1).testBit 0)) = true := by
    by_contra neither
    rw [Bool.not_eq_true, Bool.or_eq_false_iff, bne_eq_false_iff_eq, bne_eq_false_iff_eq] at neither
    exact differs (Prod.ext neither.1 neither.2)
  simp only [wipe, numberAt, getLsbD_and, getLsbD_or, getLsbD_xor,
    mask bits_le.1, mask bits_le.2, kept, Bool.and_true]

theorem getLsbD_write {value bit other : Nat} (small : value ≤ 1) (inside : bit < 64)
    (inside' : other < 64) (word : BitVec 64) :
    ((word &&& ~~~(1#64 <<< bit)) ||| BitVec.ofNat 64 value <<< bit).getLsbD other =
      if other = bit then value.testBit 0 else word.getLsbD other := by
  rw [← twoPow_eq]
  by_cases here : other = bit
  · obtain rfl | rfl := le_one_iff_eq_zero_or_eq_one.mp small <;> simp [here, inside]
  · have apart : bit ≤ other → other - bit ≠ 0 := by omega
    obtain rfl | rfl := le_one_iff_eq_zero_or_eq_one.mp small <;>
      simp +contextual [here, apart, inside']

theorem bitOf_lt (h : UInt32) : bitOf h < 64 := mod_lt _ (by decide)

theorem number_setBit (h h' : UInt32) :
    number size (setBit nGeneration size data h) h' = code nGeneration ∨
      number size (setBit nGeneration size data h) h' = number size data h' ∧ h' ≠ h := by
  rw [number, number, setBit]
  by_cases pair : fastMod h' size / 2 = fastMod h size / 2
  · rw [pair, update_self, numberAt, getLsbD_write bits_le.1 (bitOf_lt h) (bitOf_lt h'),
      getLsbD_write bits_le.2 (bitOf_lt h) (bitOf_lt h')]
    by_cases bit : bitOf h' = bitOf h
    · rw [if_pos bit, if_pos bit]
      exact .inl rfl
    · rw [if_neg bit, if_neg bit]
      exact .inr ⟨rfl, fun same => bit (same ▸ rfl)⟩
  · rw [update_of_ne pair]
    exact .inr ⟨rfl, fun same => pair (same ▸ rfl)⟩

theorem number_setBits (hs : List UInt32) (data : Nat → BitVec 64 × BitVec 64) (h : UInt32) :
    number size (hs.foldl (setBit nGeneration size) data) h = code nGeneration ∨
      number size (hs.foldl (setBit nGeneration size) data) h = number size data h ∧ h ∉ hs := by
  induction hs generalizing data with
  | nil => exact .inr ⟨rfl, not_mem_nil⟩
  | cons first rest ih =>
    obtain newest | ⟨same, absent⟩ := ih (setBit nGeneration size data first)
    · exact .inl newest
    · rw [foldl_cons, same]
      refine (number_setBit first h).imp_right fun ⟨kept, differs⟩ => ⟨kept, ?_⟩
      exact not_mem_cons_of_ne_of_not_mem differs absent

/-- A key is contained when none of its positions is empty. -/
theorem contains_iff {filter : CRollingBloomFilter} {key : κ} : filter.contains hashes key = true ↔
    ∀ h ∈ hashes key, number filter.size filter.data h ≠ (false, false) := by
  rw [contains, all_eq_true]
  refine forall₂_congr fun h _ => ?_
  dsimp only
  rw [and_one_eq_setWidth_ofBool_getLsbD, getLsbD_ushiftRight, Nat.add_zero,
    getLsbD_or, number, numberAt]
  cases (filter.data (fastMod h filter.size / 2)).1.getLsbD (bitOf h) <;>
    cases (filter.data (fastMod h filter.size / 2)).2.getLsbD (bitOf h) <;> decide

/-! ## How old a number can be -/

/-- The number of the generation before. -/
def preceding (nGeneration : Fin 4) : Fin 4 := if nGeneration = 1 then 3 else nGeneration - 1

def Within (nGeneration : Fin 4) (age : Nat) (number : Bool × Bool) : Prop :=
  ∃ back ≤ age, number = code (preceding^[back] nGeneration)

variable {hashes} {filter : CRollingBloomFilter} {keys past : List κ} {perGeneration : Nat}

/-- The keys that were inserted, the newest first: those of this generation, of this one and
the one before, and of all three have numbers of at most that age. -/
structure Remembers (hashes : κ → List UInt32) (perGeneration : Nat) (filter : CRollingBloomFilter)
    (keys : List κ) : Prop where
  started : filter.nGeneration ≠ 0
  sized : filter.nEntriesPerGeneration = perGeneration
  within : ∀ age ≤ 2, ∀ key ∈ keys.take (filter.nEntriesThisGeneration + age * perGeneration),
    ∀ h ∈ hashes key, Within filter.nGeneration age (number filter.size filter.data h)
  counted : perGeneration = 0 → keys.length = filter.nEntriesThisGeneration

theorem Remembers.rotate (remembers : Remembers hashes perGeneration filter keys)
    (full : filter.nEntriesThisGeneration = perGeneration) :
    Remembers hashes perGeneration filter.rotate keys := by
  have numbers : ∀ nGeneration : Fin 4, nGeneration ≠ 0 → following nGeneration ≠ 0 ∧
      preceding (following nGeneration) = nGeneration ∧ ∀ back < 2,
        code (preceding^[back] nGeneration) ≠ code (following nGeneration) := by decide
  obtain ⟨started, before, differ⟩ := numbers _ remembers.started
  refine ⟨started, remembers.sized, fun age young key recent h hashed => ?_, fun none => ?_⟩
  · cases age with
    | zero => simp [CRollingBloomFilter.rotate] at recent
    | succ age =>
      have earlier : key ∈ keys.take (filter.nEntriesThisGeneration + age * perGeneration) := by
        simpa [CRollingBloomFilter.rotate, full, Nat.add_mul, Nat.add_comm] using recent
      obtain ⟨back, old, same⟩ := remembers.within age (by omega) key earlier h hashed
      refine ⟨back + 1, by omega, ?_⟩
      refine ((numberAt_wipe (bitOf_lt h) ?_).trans same).trans (congrArg _ ?_)
      · exact fun reused => differ back (by omega) (same.symm.trans reused)
      · exact (congrArg _ before).symm
  · rw [remembers.counted none, full, none]
    rfl

theorem Remembers.add (remembers : Remembers hashes perGeneration filter keys) (key : κ) :
    Remembers hashes perGeneration
      { filter with
        nEntriesThisGeneration := filter.nEntriesThisGeneration + 1
        data := (hashes key).foldl (setBit filter.nGeneration filter.size) filter.data }
      (key :: keys) := by
  refine ⟨remembers.started, remembers.sized, fun age young other recent h hashed => ?_,
    fun none => ?_⟩
  · rw [Nat.add_right_comm, take_succ_cons, mem_cons] at recent
    obtain newest | ⟨same, absent⟩ := number_setBits (hashes key) filter.data h
    · exact ⟨0, Nat.zero_le _, newest⟩
    · obtain rfl | earlier := recent
      · exact absurd hashed absent
      · rw [same]
        exact remembers.within age young other earlier h hashed
  · rw [length_cons, remembers.counted none]

theorem Remembers.insertAll (remembers : Remembers hashes perGeneration filter past)
    (keys : List κ) :
    Remembers hashes perGeneration (keys.foldl (insert hashes) filter) (keys.reverse ++ past) := by
  induction keys generalizing filter past with
  | nil => exact remembers
  | cons key rest ih =>
    have next : Remembers hashes perGeneration (filter.insert hashes key) (key :: past) := by
      unfold insert
      split
      · rename_i full
        exact (remembers.rotate (full.trans remembers.sized)).add key
      · exact remembers.add key
    simpa using ih next

/-- The last `nElements` keys inserted since a reset are contained, whatever the hashes. -/
theorem contains_of_recent (hashes : κ → List UInt32) (nElements : UInt32)
    (filter : CRollingBloomFilter)
    (sized : filter.nEntriesPerGeneration = entriesPerGeneration nElements) (keys : List κ) :
    ∀ key ∈ keys.reverse.take nElements.toNat,
      (keys.foldl (insert hashes) filter.reset).contains hashes key = true := by
  intro key recent
  have empty : Remembers hashes filter.nEntriesPerGeneration filter.reset [] :=
    ⟨Fin.zero_ne_one.symm, rfl, fun _ _ _ recent => by simp at recent, fun _ => rfl⟩
  have remembers := empty.insertAll keys
  rw [append_nil] at remembers
  have kept : key ∈ keys.reverse.take
    ((keys.foldl (insert hashes) filter.reset).nEntriesThisGeneration +
      2 * filter.nEntriesPerGeneration) := by
    by_cases none : filter.nEntriesPerGeneration = 0
    · -- the largest number of elements wraps, and no generation ends
      rw [none, Nat.mul_zero, Nat.add_zero,
        take_of_length_le (Nat.le_of_eq (remembers.counted none))]
      exact mem_of_mem_take recent
    · refine take_subset_take_left _ ?_ recent
      rw [sized, entriesPerGeneration, UInt32.toNat_div, UInt32.toNat_add] at none ⊢
      have small := nElements.toNat_lt
      simp only [UInt32.reduceToNat] at none ⊢
      omega
  have nonzero : ∀ nGeneration : Fin 4, nGeneration ≠ 0 → ∀ back ≤ 2,
      code (preceding^[back] nGeneration) ≠ (false, false) := by decide
  refine (contains_iff hashes).mpr fun h hashed => ?_
  obtain ⟨back, old, same⟩ := remembers.within 2 (Nat.le_refl 2) key kept h hashed
  rw [same]
  exact nonzero _ remembers.started back old

/-- A filter for three elements and two hash functions, with a table of four words. -/
def sampleFilter : CRollingBloomFilter := ⟨2, 0, 1, 4, fun _ => (0, 0)⟩

def sampleKeys : List UInt32 := [1, 2, 3, 4, 5, 6, 7, 8, 9]

def sampleHashes (key : UInt32) : List UInt32 := [key, key * 2654435769]

/-- The fourth generation has the number of the first, and the last three keys are there. -/
theorem sampleFilter_contains :
    sampleFilter.nEntriesPerGeneration = entriesPerGeneration 3 ∧ ∀ key ∈ [7, 8, 9],
      (sampleKeys.foldl (insert sampleHashes) sampleFilter.reset).contains
        sampleHashes key = true :=
  ⟨rfl, fun key recent => contains_of_recent sampleHashes 3 sampleFilter rfl sampleKeys key
    (List.mem_reverse.mp recent)⟩

end CRollingBloomFilter

end MooncoinFormal.Util
