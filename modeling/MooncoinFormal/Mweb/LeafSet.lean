import Mathlib

/-!
# Leafsets

`mw/mmr/LeafSet.h`: one bit for each output that was ever added, set while it is
unspent. The bits are kept in bytes, the first leaf in the highest bit, either
in a file or in an overlay that records the bytes it changed. Reading and
changing bits is written once over any store of bytes; the store's laws give
what each operation does to the bits.
-/

namespace MooncoinFormal.Mweb.LeafSet

open Nat

/-! ## Bits of a byte -/

/-- `BitToByte`: the byte with the given bit from the left set. -/
def bitToByte (bit : Nat) : UInt8 := UInt8.ofNat (1 <<< (7 - bit))

def hasBit (byte : UInt8) (bit : Nat) : Bool := byte &&& bitToByte bit != 0

theorem bitToByte_toNat {bit : Nat} (small : bit < 8) : (bitToByte bit).toNat = 2 ^ (7 - bit) := by
  interval_cases bit <;> rfl

variable {byte : UInt8}

theorem hasBit_eq_testBit {bit : Nat} (small : bit < 8) :
    hasBit byte bit = byte.toNat.testBit (7 - bit) := by
  have masked : (byte &&& bitToByte bit).toNat =
      (byte.toNat.testBit (7 - bit)).toNat * 2 ^ (7 - bit) := by
    rw [UInt8.toNat_and, bitToByte_toNat small, Nat.and_two_pow]
  have positive := Nat.two_pow_pos (7 - bit)
  rw [hasBit]
  cases set : byte.toNat.testBit (7 - bit) with
  | false =>
    rw [set] at masked
    have zero : byte &&& bitToByte bit = 0 := UInt8.toNat_inj.mp (by simpa using masked)
    simp [zero]
  | true =>
    rw [set] at masked
    have nonzero : byte &&& bitToByte bit ≠ 0 := by
      intro zero
      rw [zero] at masked
      simp at masked
      omega
    simpa using nonzero

theorem hasBit_or {i j : Nat} (hi : i < 8) (hj : j < 8) :
    hasBit (byte ||| bitToByte i) j = (decide (i = j) || hasBit byte j) := by
  rw [hasBit_eq_testBit hj, hasBit_eq_testBit hj, UInt8.toNat_or, testBit_or,
    bitToByte_toNat hi, testBit_two_pow, Bool.or_comm]
  congr 2
  exact propext (by omega)

theorem hasBit_clear {i j : Nat} (hi : i < 8) (hj : j < 8) :
    hasBit (byte &&& (0xff ^^^ bitToByte i)) j = (!decide (i = j) && hasBit byte j) := by
  have ones : (0xff : UInt8).toNat.testBit (7 - j) = true := by
    interval_cases j <;> rfl
  rw [hasBit_eq_testBit hj, hasBit_eq_testBit hj, UInt8.toNat_and, testBit_and,
    UInt8.toNat_xor, testBit_xor, ones, bitToByte_toNat hi, testBit_two_pow, Bool.and_comm,
    Bool.true_xor]
  congr 3
  exact propext (by omega)

theorem byte_ext {a b : UInt8} (same : ∀ bit, bit < 8 → hasBit a bit = hasBit b bit) : a = b := by
  refine UInt8.toNat_inj.mp (eq_of_testBit_eq fun k => ?_)
  by_cases small : k < 8
  · have here := same (7 - k) (by omega)
    rw [hasBit_eq_testBit (by omega), hasBit_eq_testBit (by omega),
      show 7 - (7 - k) = k by omega] at here
    exact here
  · have wide : 2 ^ 8 ≤ 2 ^ k := Nat.pow_le_pow_right (by decide) (by omega)
    rw [testBit_lt_two_pow (lt_of_lt_of_le a.toNat_lt wide),
      testBit_lt_two_pow (lt_of_lt_of_le b.toNat_lt wide)]

/-! ## Operations over a store of bytes -/

/-- What a leafset must offer: `GetByte`, `SetByte` and `m_nextLeafIdx`. -/
structure Store (σ : Type) where
  getByte : σ → Nat → UInt8
  setByte : σ → Nat → UInt8 → σ
  nextLeafIdx : σ → Nat
  setNextLeafIdx : σ → Nat → σ
  getByte_setByte : ∀ set i value j,
    getByte (setByte set i value) j = if i = j then value else getByte set j
  nextLeafIdx_setByte : ∀ set i value, nextLeafIdx (setByte set i value) = nextLeafIdx set
  getByte_setNextLeafIdx : ∀ set next, getByte (setNextLeafIdx set next) = getByte set
  nextLeafIdx_setNextLeafIdx : ∀ set next, nextLeafIdx (setNextLeafIdx set next) = next

section Operations

variable {σ : Type} (store : Store σ) (set : σ) (idx : Nat)

def add : σ :=
  let set := store.setByte set (idx / 8) (store.getByte set (idx / 8) ||| bitToByte (idx % 8))
  if store.nextLeafIdx set ≤ idx then store.setNextLeafIdx set (idx + 1) else set

def remove : σ :=
  store.setByte set (idx / 8) (store.getByte set (idx / 8) &&& (0xff ^^^ bitToByte (idx % 8)))

variable (getByte : Nat → UInt8)

/-- `Contains`, as a function of the bytes. -/
def containsIn (idx : Nat) : Bool := hasBit (getByte (idx / 8)) (idx % 8)

def contains : Bool := containsIn (store.getByte set) idx

def rootBytes (nextLeafIdx : Nat) : List UInt8 :=
  (List.range ((nextLeafIdx + 7) / 8)).map getByte

def removeFrom : (first count : Nat) → σ → σ
  | _, 0, set => set
  | first, count + 1, set => removeFrom (first + 1) count (remove store set first)

def rewind (numLeaves : Nat) (leavesToAdd : List Nat) : σ :=
  let added := leavesToAdd.foldl (add store) set
  let removed := removeFrom store numLeaves (store.nextLeafIdx added - numLeaves) added
  store.setNextLeafIdx removed numLeaves

variable {store} {set : σ}

theorem contains_setByte {idx : Nat} {value : UInt8} {i : Nat} :
    contains store (store.setByte set (idx / 8) value) i =
      if idx / 8 = i / 8 then hasBit value (i % 8) else contains store set i := by
  rw [contains, containsIn, store.getByte_setByte]
  split <;> rfl

theorem contains_setNextLeafIdx {next i : Nat} :
    contains store (store.setNextLeafIdx set next) i = contains store set i := by
  rw [contains, store.getByte_setNextLeafIdx, contains]

theorem contains_add (idx i : Nat) :
    contains store (add store set idx) i = (decide (idx = i) || contains store set i) := by
  have bits : contains store (store.setByte set (idx / 8)
      (store.getByte set (idx / 8) ||| bitToByte (idx % 8))) i =
        (decide (idx = i) || contains store set i) := by
    rw [contains_setByte]
    split
    · rename_i same
      rw [hasBit_or (mod_lt _ (by decide)) (mod_lt _ (by decide)), contains, containsIn,
        same]
      congr 2
      exact propext (by omega)
    · rename_i other
      rw [decide_eq_false (fun h => other (by rw [h])), Bool.false_or]
  rw [add]
  split
  · rw [contains_setNextLeafIdx, bits]
  · exact bits

theorem nextLeafIdx_add :
    store.nextLeafIdx (add store set idx) = max (store.nextLeafIdx set) (idx + 1) := by
  rw [add, store.nextLeafIdx_setByte]
  split
  · rw [store.nextLeafIdx_setNextLeafIdx]
    omega
  · rw [store.nextLeafIdx_setByte]
    omega

theorem contains_remove (idx i : Nat) :
    contains store (remove store set idx) i = (!decide (idx = i) && contains store set i) := by
  rw [remove, contains_setByte]
  split
  · rename_i same
    rw [hasBit_clear (mod_lt _ (by decide)) (mod_lt _ (by decide)), contains, containsIn,
      same]
    congr 3
    exact propext (by omega)
  · rename_i other
    rw [decide_eq_false (fun h => other (by rw [h])), Bool.not_false, Bool.true_and]

theorem contains_foldl_add (leaves : List Nat) (set : σ) (i : Nat) :
    contains store (leaves.foldl (add store) set) i =
      (decide (i ∈ leaves) || contains store set i) := by
  induction leaves generalizing set with
  | nil => simp
  | cons idx rest ih =>
    rw [List.foldl_cons, ih, contains_add]
    by_cases same : idx = i
    · simp [same]
    · simp [same, Ne.symm same]

theorem contains_removeFrom (store : Store σ) (first count : Nat) (set : σ) (i : Nat) :
    contains store (removeFrom store first count set) i =
      (!decide (first ≤ i ∧ i < first + count) && contains store set i) := by
  induction count generalizing first set with
  | zero =>
    have none : ¬ (first ≤ i ∧ i < first + 0) := by omega
    rw [removeFrom, decide_eq_false none, Bool.not_false, Bool.true_and]
  | succ count ih =>
    rw [removeFrom, ih, contains_remove, ← Bool.and_assoc]
    congr 1
    rw [← Bool.not_or, ← Bool.decide_or]
    congr 2
    exact propext (by omega)

/-- No bit is set at the next index or after it. -/
def Bounded (store : Store σ) (set : σ) : Prop :=
  ∀ i, store.nextLeafIdx set ≤ i → contains store set i = false

theorem Bounded.add {set : σ} (bounded : Bounded store set) (idx : Nat) :
    Bounded store (add store set idx) := by
  intro i above
  rw [nextLeafIdx_add] at above
  rw [contains_add, bounded i (by omega), Bool.or_false, decide_eq_false (by omega)]

theorem Bounded.foldl_add {set : σ} (bounded : Bounded store set) (leaves : List Nat) :
    Bounded store (leaves.foldl (LeafSet.add store) set) := by
  induction leaves generalizing set with
  | nil => exact bounded
  | cons idx rest ih => exact ih (bounded.add idx)

/-- Rewinding keeps the bits below the new end and sets those of the leaves that
are given back, as far as they are below it. -/
theorem contains_rewind {set : σ} {numLeaves : Nat} {leaves : List Nat}
    (bounded : Bounded store set) (i : Nat) :
    contains store (rewind store set numLeaves leaves) i =
      (decide (i < numLeaves) && (decide (i ∈ leaves) || contains store set i)) := by
  rw [rewind, contains_setNextLeafIdx, contains_removeFrom, ← contains_foldl_add]
  by_cases low : i < numLeaves
  · simp [low]
  · by_cases removed : i < store.nextLeafIdx (leaves.foldl (LeafSet.add store) set)
    · have gone : numLeaves ≤ i ∧ i < numLeaves +
          (store.nextLeafIdx (leaves.foldl (LeafSet.add store) set) - numLeaves) := by omega
      simp [low, gone]
    · simp [low, bounded.foldl_add leaves i (by omega)]

end Operations

theorem getByte_ext {first second : Nat → UInt8}
    (same : ∀ i, containsIn first i = containsIn second i) : first = second := by
  funext k
  refine byte_ext fun bit small => ?_
  have here := same (8 * k + bit)
  rwa [containsIn, containsIn, show (8 * k + bit) / 8 = k by omega,
    show (8 * k + bit) % 8 = bit by omega] at here

variable (bits : Nat → Bool)

/-- The byte whose bits from the left are given. -/
def packByte : UInt8 :=
  (List.range 8).foldl (fun byte bit => if bits bit then byte ||| bitToByte bit else byte) 0

def packBits (byteIdx : Nat) : UInt8 :=
  packByte fun bit => bits (8 * byteIdx + bit)

theorem hasBit_foldl {bits : Nat → Bool} {positions : List Nat} {j : Nat}
    (small : ∀ bit ∈ positions, bit < 8) (hj : j < 8) :
    hasBit (positions.foldl
        (fun byte bit => if bits bit then byte ||| bitToByte bit else byte) byte) j =
      ((decide (j ∈ positions) && bits j) || hasBit byte j) := by
  induction positions generalizing byte with
  | nil => simp
  | cons bit rest ih =>
    rw [List.foldl_cons, ih (List.forall_mem_cons.mp small).2]
    have here := small bit List.mem_cons_self
    by_cases same : bit = j
    · subst same
      cases set : bits bit with
      | false => simp
      | true => simp [hasBit_or here hj]
    · cases bits bit with
      | false => simp [Ne.symm same]
      | true => simp [Ne.symm same, same, hasBit_or here hj]

theorem containsIn_packBits (i : Nat) : containsIn (packBits bits) i = bits i := by
  have small : i % 8 < 8 := mod_lt _ (by decide)
  have empty : hasBit 0 (i % 8) = false := by
    rw [hasBit_eq_testBit small]
    exact zero_testBit _
  rw [containsIn, packBits, packByte,
    hasBit_foldl (fun bit member => List.mem_range.mp member) small, empty, Bool.or_false,
    decide_eq_true (List.mem_range.mpr small), Bool.true_and, div_add_mod]

theorem eq_packBits {getByte : Nat → UInt8} {bits : Nat → Bool}
    (held : ∀ i, containsIn getByte i = bits i) : getByte = packBits bits :=
  getByte_ext fun i => by rw [held, containsIn_packBits]

/-! ## The leafset in a file and its overlays -/

/-- `LeafSet`: the bytes of the file after the next index. -/
structure LeafSetFile where
  bytes : List UInt8
  nextLeafIdx : Nat

/-- Write one byte, filling a gap after the end of the file with zeros. -/
def writeByte (bytes : List UInt8) (i : Nat) (value : UInt8) : List UInt8 :=
  if i < bytes.length then bytes.set i value
  else bytes ++ List.replicate (i - bytes.length) 0 ++ [value]

theorem getD_writeByte (bytes : List UInt8) (i : Nat) (value : UInt8) (j : Nat) :
    (writeByte bytes i value).getD j 0 = if i = j then value else bytes.getD j 0 := by
  rw [writeByte]
  split
  · rename_i inside
    simp only [List.getD_eq_getElem?_getD, List.getElem?_set]
    split
    · simp
    · rfl
  · rename_i outside
    simp only [List.getD_eq_getElem?_getD]
    rcases lt_trichotomy j i with before | rfl | after
    · rw [if_neg (by omega), List.getElem?_append_left (by simp; omega), List.getElem?_append]
      split
      · rfl
      · rename_i high
        rw [List.getElem?_replicate, if_pos (by omega),
          List.getElem?_eq_none (show bytes.length ≤ j by omega)]
        rfl
    · rw [if_pos rfl, List.getElem?_append_right (by simp; omega)]
      simp only [List.length_append, List.length_replicate]
      rw [show j - (bytes.length + (j - bytes.length)) = 0 by omega]
      rfl
    · rw [if_neg (by omega), List.getElem?_eq_none (by simp; omega),
        List.getElem?_eq_none (by omega)]

def fileStore : Store LeafSetFile where
  getByte set i := set.bytes.getD i 0
  setByte set i value := { set with bytes := writeByte set.bytes i value }
  nextLeafIdx := LeafSetFile.nextLeafIdx
  setNextLeafIdx set next := { set with nextLeafIdx := next }
  getByte_setByte set i value j := getD_writeByte set.bytes i value j
  nextLeafIdx_setByte _ _ _ := rfl
  getByte_setNextLeafIdx _ _ := rfl
  nextLeafIdx_setNextLeafIdx _ _ := rfl

/-- `LeafSetCache` without the pointer to the leafset below it. -/
structure LeafSetCache where
  nextLeafIdx : Nat
  modifiedBytes : AList fun _ : Nat => UInt8

/-- `GetByte` and `SetByte` of an overlay on the given bytes. -/
def cacheStore (below : Nat → UInt8) : Store LeafSetCache where
  getByte set i := (set.modifiedBytes.lookup i).getD (below i)
  setByte set i value := { set with modifiedBytes := set.modifiedBytes.insert i value }
  nextLeafIdx := LeafSetCache.nextLeafIdx
  setNextLeafIdx set next := { set with nextLeafIdx := next }
  getByte_setByte set i value j := by
    by_cases same : i = j
    · subst same
      simp
    · simp [AList.lookup_insert_ne (Ne.symm same), same]
  nextLeafIdx_setByte _ _ _ := rfl
  getByte_setNextLeafIdx _ _ := rfl
  nextLeafIdx_setNextLeafIdx _ _ := rfl

/-- A file with overlays on it; `cache` holds the pointer `m_pBacked`. -/
inductive ILeafSet where
  | file (set : LeafSetFile)
  | cache (base : ILeafSet) (top : LeafSetCache)

namespace ILeafSet

def getByte : ILeafSet → Nat → UInt8
  | file set => fileStore.getByte set
  | cache base top => (cacheStore base.getByte).getByte top

def getNextLeafIdx : ILeafSet → Nat
  | file set => set.nextLeafIdx
  | cache _ top => top.nextLeafIdx

end ILeafSet

/-- A new overlay, as `LeafSetCache` is constructed on its base. -/
def LeafSetCache.on (base : ILeafSet) : LeafSetCache := ⟨base.getNextLeafIdx, ∅⟩

/-- Set each of the given bytes. -/
def setBytes {σ : Type} (store : Store σ) (set : σ)
    (bytes : List (Sigma fun _ : Nat => UInt8)) : σ :=
  bytes.foldl (fun set byte => store.setByte set byte.1 byte.2) set

def LeafSetCache.applyUpdates (below : Nat → UInt8) (top : LeafSetCache) (nextLeafIdx : Nat)
    (modifiedBytes : AList fun _ : Nat => UInt8) : LeafSetCache :=
  setBytes (cacheStore below) ((cacheStore below).setNextLeafIdx top nextLeafIdx)
    modifiedBytes.entries

/-- `LeafSet::ApplyUpdates`, which clears everything above the new end. -/
def LeafSetFile.applyUpdates (set : LeafSetFile) (nextLeafIdx : Nat)
    (modifiedBytes : AList fun _ : Nat => UInt8) : LeafSetFile :=
  let updated := setBytes fileStore set modifiedBytes.entries
  let cleared := removeFrom fileStore nextLeafIdx (set.nextLeafIdx - nextLeafIdx) updated
  fileStore.setNextLeafIdx cleared nextLeafIdx

def ILeafSet.applyUpdates : ILeafSet → Nat → (AList fun _ : Nat => UInt8) → ILeafSet
  | .file set, nextLeafIdx, bytes => .file (set.applyUpdates nextLeafIdx bytes)
  | .cache base top, nextLeafIdx, bytes =>
    .cache base (top.applyUpdates base.getByte nextLeafIdx bytes)

def LeafSetCache.flushed (top : LeafSetCache) : LeafSetCache := { top with modifiedBytes := ∅ }

theorem getByte_setBytes {σ : Type} {store : Store σ} {set : σ}
    {bytes : List (Sigma fun _ : Nat => UInt8)} (nodup : bytes.NodupKeys) (i : Nat) :
    store.getByte (setBytes store set bytes) i = (bytes.dlookup i).getD (store.getByte set i) := by
  induction bytes generalizing set with
  | nil => rfl
  | cons byte rest ih =>
    obtain ⟨key, value⟩ := byte
    obtain ⟨fresh, nodup⟩ := List.nodupKeys_cons.mp nodup
    rw [setBytes, List.foldl_cons, ← setBytes, ih nodup, store.getByte_setByte]
    by_cases same : key = i
    · subst same
      rw [List.dlookup_eq_none.mpr fresh, List.dlookup_cons_eq, if_pos rfl]
      rfl
    · rw [List.dlookup_cons_ne _ _ (Ne.symm same), if_neg same]

theorem nextLeafIdx_setBytes {σ : Type} (store : Store σ) (set : σ)
    (bytes : List (Sigma fun _ : Nat => UInt8)) :
    store.nextLeafIdx (setBytes store set bytes) = store.nextLeafIdx set := by
  induction bytes generalizing set with
  | nil => rfl
  | cons byte rest ih =>
    rw [setBytes, List.foldl_cons, ← setBytes, ih, store.nextLeafIdx_setByte]

/-- `Flush` leaves the base with the bytes and the next index of an overlay that
has no bit set past its end. -/
theorem getByte_applyUpdates {base : ILeafSet} {top : LeafSetCache}
    (bounded : Bounded (cacheStore base.getByte) top) :
    (base.applyUpdates top.nextLeafIdx top.modifiedBytes).getByte =
        (cacheStore base.getByte).getByte top ∧
      (base.applyUpdates top.nextLeafIdx top.modifiedBytes).getNextLeafIdx = top.nextLeafIdx := by
  cases base with
  | cache base below =>
    constructor
    · funext i
      exact getByte_setBytes top.modifiedBytes.nodupKeys i
    · exact nextLeafIdx_setBytes (cacheStore base.getByte) _ top.modifiedBytes.entries
  | file set =>
    refine ⟨getByte_ext fun i => ?_, rfl⟩
    have bytes : fileStore.getByte (setBytes fileStore set top.modifiedBytes.entries) =
        (cacheStore (ILeafSet.file set).getByte).getByte top :=
      funext fun i => getByte_setBytes top.modifiedBytes.nodupKeys i
    have cleared := contains_removeFrom fileStore top.nextLeafIdx
      (set.nextLeafIdx - top.nextLeafIdx)
      (setBytes fileStore set top.modifiedBytes.entries) i
    rw [contains, contains, bytes] at cleared
    -- the bits that are cleared were not set
    refine Eq.trans cleared ?_
    by_cases above : top.nextLeafIdx ≤ i
    · have unset : containsIn ((cacheStore (ILeafSet.file set).getByte).getByte top) i = false :=
        bounded i above
      rw [unset, Bool.and_false]
    · rw [decide_eq_false fun inside => above inside.1, Bool.not_false, Bool.true_and]

end MooncoinFormal.Mweb.LeafSet
