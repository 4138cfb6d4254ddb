import Mathlib
import MooncoinFormal.Library.Checks
import MooncoinFormal.Primitives.Numeric

/-!
# Placing the transactions of a compact block

`PartiallyDownloadedBlock::InitData` on a decoded `CBlockHeaderAndShortTxIDs`, up to its
search of the mempool. The positions of the prefilled transactions come as differences,
and the short IDs go to the positions between them. Each access to `txn_available` is
checked here; how full the buckets of the hash map are is a parameter.
-/

namespace MooncoinFormal.Net

open Primitives Library.Checks List Function Prod

variable {T : CryptoTypes}

/-- A message that was read; one with more transactions is refused. -/
structure CBlockHeaderAndShortTxIDs (T : CryptoTypes) where
  header : CBlockHeader T
  shorttxids : List UInt64
  prefilledtxn : List (UInt16 × CTransaction T)
  counted : shorttxids.length + prefilledtxn.length ≤ 65535

/-- The vector `txn_available` has a size; a null pointer is none. -/
structure PartiallyDownloadedBlock (T : CryptoTypes) where
  header : CBlockHeader T
  size : Nat
  txnAvailable : Nat → Option (CTransaction T)

inductive ReadStatus where
  | ok
  | invalid
  | failed
  deriving DecidableEq

/-- An access outside of `txn_available`, or a loop that does not end. -/
inductive Fault where
  | outside
  | endless

/-- The first loop; `next` is `lastprefilledindex + 1`. -/
def placePrefilled (numShort size : Nat) : (i next : Nat) → List (UInt16 × CTransaction T) →
    (Nat → Option (CTransaction T)) → Except Fault (ReadStatus × (Nat → Option (CTransaction T)))
  | _, _, [], txnAvailable => .ok (.ok, txnAvailable)
  | i, next, (index, tx) :: rest, txnAvailable =>
      if tx.vin = [] ∧ tx.vout = [] then .ok (.invalid, txnAvailable)
      else if 65535 < next + index.toNat then .ok (.invalid, txnAvailable)
      else if numShort + i < next + index.toNat then .ok (.invalid, txnAvailable)
      else do
        ensure (next + index.toNat < size) .outside
        placePrefilled numShort size (i + 1) (next + index.toNat + 1) rest
          (update txnAvailable (next + index.toNat) (some tx))

section Loops

variable (size : Nat) (txnAvailable : Nat → Option (CTransaction T))

/-- `while (txn_available[i + index_offset]) index_offset++`. After `2 ^ 16` turns the
offset is what it was. -/
def skipFilled (i : Nat) : (turns : Nat) → (indexOffset : UInt16) → Except Fault UInt16
  | 0, _ => .error .endless
  | turns + 1, indexOffset => do
      ensure (i + indexOffset.toNat < size) .outside
      if (txnAvailable (i + indexOffset.toNat)).isSome then skipFilled i turns (indexOffset + 1)
      else .ok indexOffset

/-- The second loop; `crowded` tells after which turn a bucket has more than 12 elements. -/
def mapShortIds (crowded : Nat → Bool) : (i : Nat) → (indexOffset : UInt16) → List UInt64 →
    (UInt64 → Option UInt16) → Except Fault (ReadStatus × (UInt64 → Option UInt16))
  | _, _, [], shorttxids => .ok (.ok, shorttxids)
  | i, indexOffset, id :: rest, shorttxids => do
      let indexOffset ← skipFilled size txnAvailable i (2 ^ 16) indexOffset
      let shorttxids := update shorttxids id (some (UInt16.ofNat (i + indexOffset.toNat)))
      if crowded i then .ok (.failed, shorttxids)
      else mapShortIds crowded (i + 1) indexOffset rest shorttxids

end Loops

/-- `InitData` as it stands before the pools are searched: the status, the map of short
IDs and the block, which keeps what was placed when the status is not `READ_STATUS_OK`. -/
def initData (crowded : Nat → Bool) (block : PartiallyDownloadedBlock T)
    (cmpctblock : CBlockHeaderAndShortTxIDs T) :
    Except Fault (ReadStatus × (UInt64 → Option UInt16) × PartiallyDownloadedBlock T) := do
  let numShort := cmpctblock.shorttxids.length
  let size := numShort + cmpctblock.prefilledtxn.length
  if cmpctblock.header.nBits = 0 ∨ size = 0 then return (.invalid, fun _ => none, block)
  if CBlock.maxBlockWeight / (CBlock.witnessScaleFactor * 10) < size then
    return (.invalid, fun _ => none, block)
  if ¬ (block.header.nBits = 0 ∧ block.size = 0) then return (.invalid, fun _ => none, block)
  let (status, placed) ← placePrefilled numShort size 0 0 cmpctblock.prefilledtxn fun _ => none
  let block := ⟨cmpctblock.header, size, placed⟩
  if status ≠ .ok then return (status, fun _ => none, block)
  let (status, shorttxids) ← mapShortIds size placed crowded 0 0 cmpctblock.shorttxids fun _ => none
  if status ≠ .ok then return (status, shorttxids, block)
  -- the map has one element for each ID that occurs
  if cmpctblock.shorttxids.dedup.length ≠ numShort then return (.failed, shorttxids, block)
  return (.ok, shorttxids, block)

/-- The prefilled transactions at the absolute positions that their differences state. -/
def stated : (next : Nat) → List (UInt16 × CTransaction T) → List (Nat × CTransaction T)
  | _, [] => []
  | next, (index, tx) :: rest => (next + index.toNat, tx) :: stated (next + index.toNat + 1) rest

abbrev StatedAt (next : Nat) (prefilled : List (UInt16 × CTransaction T)) (position : Nat) : Prop :=
  position ∈ (stated next prefilled).map fst

/-- What is asked of a prefilled transaction, its position and its number: there are
enough transactions before it to fill the positions before it. -/
abbrev Fits (numShort : Nat) (entry : (Nat × CTransaction T) × Nat) : Prop :=
  ¬ (entry.1.2.vin = [] ∧ entry.1.2.vout = []) ∧ entry.1.1 ≤ 65535 ∧ entry.1.1 ≤ numShort + entry.2

/-- The message is not `READ_STATUS_INVALID` for the block. -/
abbrev ValidFor (block : PartiallyDownloadedBlock T)
    (cmpctblock : CBlockHeaderAndShortTxIDs T) : Prop :=
  let size := cmpctblock.shorttxids.length + cmpctblock.prefilledtxn.length
  ¬ (cmpctblock.header.nBits = 0 ∨ size = 0) ∧
    size ≤ CBlock.maxBlockWeight / (CBlock.witnessScaleFactor * 10) ∧
    (block.header.nBits = 0 ∧ block.size = 0) ∧
    ∀ entry ∈ (stated 0 cmpctblock.prefilledtxn).zipIdx, Fits cmpctblock.shorttxids.length entry

/-- Every prefilled transaction is at the position that is stated for it. -/
def Places (cmpctblock : CBlockHeaderAndShortTxIDs T) (after : PartiallyDownloadedBlock T) : Prop :=
  ∀ entry ∈ stated 0 cmpctblock.prefilledtxn, after.txnAvailable entry.1 = some entry.2

/-- The short ID number `i` has the position before which `i` positions hold no prefilled
transaction, and which holds none itself; no other ID has a position. -/
def Maps (cmpctblock : CBlockHeaderAndShortTxIDs T) (shorttxids : UInt64 → Option UInt16)
    (size : Nat) : Prop :=
  (∀ id ∉ cmpctblock.shorttxids, shorttxids id = none) ∧
    ∀ i id, cmpctblock.shorttxids[i]? = some id → ∃ position, shorttxids id = some position ∧
      position.toNat < size ∧ ¬ StatedAt 0 cmpctblock.prefilledtxn position.toNat ∧
      Nat.count (¬ StatedAt 0 cmpctblock.prefilledtxn ·) position.toNat = i

/-- What each status says. -/
def Describes (crowded : Nat → Bool) (block : PartiallyDownloadedBlock T)
    (cmpctblock : CBlockHeaderAndShortTxIDs T) :
    ReadStatus × (UInt64 → Option UInt16) × PartiallyDownloadedBlock T → Prop
  | (.invalid, _, _) => ¬ ValidFor block cmpctblock
  | (.failed, _, after) => ValidFor block cmpctblock ∧ Places cmpctblock after ∧
      ((∃ i < cmpctblock.shorttxids.length, crowded i = true) ∨ ¬ cmpctblock.shorttxids.Nodup)
  | (.ok, shorttxids, after) => ValidFor block cmpctblock ∧ Places cmpctblock after ∧
      (∀ i < cmpctblock.shorttxids.length, crowded i = false) ∧ cmpctblock.shorttxids.Nodup ∧
      Maps cmpctblock shorttxids after.size

/-- The call does not leave the vector, it ends, and what it returns is described. -/
def Returns {α : Type} (post : α → Prop) (call : Except Fault α) : Prop :=
  ∃ value, call = .ok value ∧ post value

section Rules

variable {α β : Type} {post weaker : α → Prop} {after : β → Prop} {first : Except Fault α}

theorem Returns.bind {next : α → Except Fault β} (returns : Returns post first)
    (later : ∀ value, post value → Returns after (next value)) :
    Returns after (first >>= next) := by
  obtain ⟨value, rfl, described⟩ := returns
  exact later value described

theorem Returns.mono (returns : Returns post first) (implies : ∀ value, post value → weaker value) :
    Returns weaker first :=
  returns.imp fun value => And.imp_right (implies value)

theorem returns_ensure {condition : Prop} [Decidable condition] {fault : Fault}
    (holds : condition) :
    Returns (fun _ => True) (ensure condition fault) :=
  ⟨(), ensure_of holds, trivial⟩

end Rules

/-! ## Prefilled transactions -/

variable {numShort size i : Nat} {prefilled : List (UInt16 × CTransaction T)}
  {txnAvailable : Nat → Option (CTransaction T)}

theorem le_of_statedAt {next position : Nat} (held : StatedAt next prefilled position) :
    next ≤ position := by
  induction prefilled generalizing next with
  | nil => cases held
  | cons first rest ih =>
    rcases mem_cons.mp held with rfl | later
    · exact Nat.le_add_right _ _
    · have above := ih later
      omega

theorem placePrefilled_returns (next : Nat) (sized : size = numShort + i + prefilled.length) :
    Returns (fun (status, placed) => (status = .invalid ∧
          ¬ ∀ entry ∈ (stated next prefilled).zipIdx i, Fits numShort entry) ∨
        (status = .ok ∧ ∀ entry ∈ (stated next prefilled).zipIdx i, Fits numShort entry) ∧
        (∀ entry ∈ stated next prefilled, placed entry.1 = some entry.2) ∧
        ∀ position, ¬ StatedAt next prefilled position → placed position = txnAvailable position)
      (placePrefilled numShort size i next prefilled txnAvailable) := by
  induction prefilled generalizing i next txnAvailable with
  | nil => exact ⟨_, rfl, .inr ⟨⟨rfl, nofun⟩, nofun, fun _ _ => rfl⟩⟩
  | cons first rest ih =>
    rw [length_cons] at sized
    simp only [stated, zipIdx_cons, forall_mem_cons]
    by_cases fits : Fits numShort ((next + first.1.toNat, first.2), i)
    · have word : next + first.1.toNat ≤ 65535 := fits.2.1
      have below : next + first.1.toNat ≤ numShort + i := fits.2.2
      rw [placePrefilled, if_neg fits.1, if_neg (by omega), if_neg (by omega)]
      refine (returns_ensure (by omega)).bind fun _ _ => ?_
      refine (ih (next + first.1.toNat + 1) (by omega)).mono ?_
      rintro ⟨status, placed⟩ (⟨invalid, other⟩ | ⟨⟨ok, others⟩, places, keeps⟩)
      · exact .inl ⟨invalid, fun all => other all.2⟩
      · refine .inr ⟨⟨ok, fits, others⟩, ⟨?_, places⟩, fun position apart => ?_⟩
        · refine (keeps _ fun again => ?_).trans (update_self _ _ _)
          have above := le_of_statedAt again
          omega
        · obtain ⟨other, apart⟩ := not_or.mp (mt mem_cons.mpr apart)
          exact (keeps position apart).trans (update_of_ne other _ _)
    · refine ⟨(.invalid, txnAvailable), ?_, .inl ⟨rfl, fun all => fits all.1⟩⟩
      unfold placePrefilled
      split
      · rfl
      · split
        · rfl
        · refine if_pos (not_le.mp fun below => fits ⟨‹_›, not_lt.mp ‹_›, below⟩)

/-! ## Short IDs -/

section ShortIds

-- Which positions hold a transaction before the short IDs are mapped.
variable {held : Nat → Prop} [DecidablePred held]
  (filled : ∀ position, (txnAvailable position).isSome ↔ held position) (small : size ≤ 65535)
include filled small

theorem skipFilled_returns (room : i < Nat.count (¬ held ·) size) {turns : Nat}
    {indexOffset : UInt16} (enough : size < turns + i + indexOffset.toNat)
    (passed : Nat.count (¬ held ·) (i + indexOffset.toNat) = i) :
    Returns (fun offset => i + offset.toNat < size ∧ ¬ held (i + offset.toNat) ∧
        Nat.count (¬ held ·) (i + offset.toNat) = i)
      (skipFilled size txnAvailable i turns indexOffset) := by
  -- a free position is still ahead
  have inside : i + indexOffset.toNat < size := by
    by_contra outside
    have more := Nat.count_monotone (¬ held ·) (Nat.not_lt.mp outside)
    omega
  induction turns generalizing indexOffset with
  | zero => omega
  | succ turns ih =>
    refine (returns_ensure inside).bind fun _ _ => ?_
    split
    · rename_i taken
      have next : (indexOffset + 1).toNat = indexOffset.toNat + 1 := by
        rw [UInt16.toNat_add, Nat.mod_eq_of_lt (by simp; omega)]
        rfl
      have still : Nat.count (¬ held ·) (i + (indexOffset + 1).toNat) = i := by
        rw [next, ← Nat.add_assoc, Nat.count_succ, passed,
          if_neg (not_not.mpr ((filled _).mp taken)), Nat.add_zero]
      refine ih (by omega) still ?_
      by_contra outside
      have more := Nat.count_monotone (¬ held ·) (Nat.not_lt.mp outside)
      omega
    · rename_i free
      exact ⟨_, rfl, inside, fun taken => free ((filled _).mpr taken), passed⟩

theorem mapShortIds_returns {crowded : Nat → Bool} {ids : List UInt64}
    (room : i + ids.length ≤ Nat.count (¬ held ·) size) {indexOffset : UInt16}
    (passed : Nat.count (¬ held ·) (i + indexOffset.toNat) = i) {map : UInt64 → Option UInt16} :
    Returns (fun (status, shorttxids) =>
        (status = .failed ∧ ∃ k < ids.length, crowded (i + k) = true) ∨
        (status = .ok ∧ ∀ k < ids.length, crowded (i + k) = false) ∧
        (∀ id ∉ ids, shorttxids id = map id) ∧
        (ids.Nodup → ∀ k id, ids[k]? = some id → ∃ position, shorttxids id = some position ∧
          position.toNat < size ∧ ¬ held position.toNat ∧
          Nat.count (¬ held ·) position.toNat = i + k))
      (mapShortIds size txnAvailable crowded i indexOffset ids map) := by
  induction ids generalizing i indexOffset map with
  | nil => exact ⟨_, rfl, .inr ⟨⟨rfl, nofun⟩, fun _ _ => rfl, nofun⟩⟩
  | cons id rest ih =>
    rw [length_cons] at room
    refine (skipFilled_returns filled small (by omega) (by omega) passed).bind
      fun offset ⟨inside, free, count⟩ => ?_
    have word : (UInt16.ofNat (i + offset.toNat)).toNat = i + offset.toNat :=
      Nat.mod_eq_of_lt (by simp; omega)
    by_cases full : crowded i = true
    · exact ⟨_, if_pos full, .inl ⟨rfl, 0, Nat.succ_pos _, full⟩⟩
    rw [if_neg full]
    refine (ih (by omega) ?_).mono ?_
    · rw [Nat.add_right_comm, Nat.count_succ, count, if_pos free]
    rintro ⟨status, shorttxids⟩ (⟨failed, k, below, later⟩ | ⟨⟨ok, sparse⟩, keeps, maps⟩)
    · exact .inl ⟨failed, k + 1, Nat.succ_lt_succ below, by
        rwa [← Nat.add_assoc, Nat.add_right_comm]⟩
    refine .inr ⟨⟨ok, fun k below => ?_⟩, fun other apart => ?_, fun nodup k other at_ => ?_⟩
    · cases k with
      | zero => exact Bool.not_eq_true _ ▸ full
      | succ k =>
        rw [← Nat.add_assoc, Nat.add_right_comm]
        exact sparse k (Nat.lt_of_succ_lt_succ below)
    · obtain ⟨differ, apart⟩ := not_or.mp (mt mem_cons.mpr apart)
      rw [keeps other apart, update_of_ne differ]
    · obtain ⟨fresh, nodup⟩ := nodup_cons.mp nodup
      cases k with
      | zero =>
        cases at_
        refine ⟨_, (keeps id fresh).trans (update_self _ _ _), ?_⟩
        rw [word]
        exact ⟨inside, free, count⟩
      | succ k =>
        rw [← Nat.add_assoc, Nat.add_right_comm]
        exact maps nodup k other at_

end ShortIds

/-! ## The whole call -/

theorem length_stated (next : Nat) : (stated next prefilled).length = prefilled.length := by
  induction prefilled generalizing next with
  | nil => rfl
  | cons first rest ih => exact congrArg (· + 1) (ih _)

theorem le_count_free (numShort : Nat) (prefilled : List (UInt16 × CTransaction T)) :
    numShort ≤ Nat.count (¬ StatedAt 0 prefilled ·) (numShort + prefilled.length) := by
  let positions := (stated 0 prefilled).map fst
  have few : positions.toFinset.card ≤ prefilled.length := by
    rw [← length_stated 0, ← length_map fst]
    exact toFinset_card_le positions
  have most := Finset.le_card_sdiff positions.toFinset (Finset.range (numShort + prefilled.length))
  have free : (Finset.range (numShort + prefilled.length)).filter (¬ StatedAt 0 prefilled ·) =
      Finset.range (numShort + prefilled.length) \ positions.toFinset := by
    ext position
    simp [StatedAt, positions]
  rw [Finset.card_range] at most
  rw [Nat.count_eq_card_filter_range, free]
  omega

theorem isSome_iff_statedAt {placed : Nat → Option (CTransaction T)}
    (places : ∀ entry ∈ stated 0 prefilled, placed entry.1 = some entry.2)
    (keeps : ∀ position, ¬ StatedAt 0 prefilled position → placed position = none)
    (position : Nat) :
    (placed position).isSome ↔ StatedAt 0 prefilled position := by
  refine ⟨fun filled => ?_, fun held => ?_⟩
  · by_contra apart
    rw [keeps position apart] at filled
    cases filled
  · obtain ⟨entry, member, rfl⟩ := mem_map.mp held
    rw [places entry member]
    rfl

/-- `InitData` stays inside of `txn_available` and ends, and its status is exact. Unless
the message is invalid, every prefilled transaction is at the position that is stated
for it; when the call succeeds, the short IDs are mapped in order, without truncation,
to the positions that hold no prefilled transaction. -/
theorem initData_safe (crowded : Nat → Bool) (block : PartiallyDownloadedBlock T)
    (cmpctblock : CBlockHeaderAndShortTxIDs T) :
    ∃ result, initData crowded block cmpctblock = .ok result ∧
      Describes crowded block cmpctblock result := by
  by_cases absent : cmpctblock.header.nBits = 0 ∨
      cmpctblock.shorttxids.length + cmpctblock.prefilledtxn.length = 0
  · exact ⟨(.invalid, _, _), if_pos absent, fun valid => valid.1 absent⟩
  rw [initData, if_neg absent]
  by_cases large : CBlock.maxBlockWeight / (CBlock.witnessScaleFactor * 10) <
      cmpctblock.shorttxids.length + cmpctblock.prefilledtxn.length
  · exact ⟨(.invalid, _, _), if_pos large, fun valid => not_lt.mpr valid.2.1 large⟩
  rw [if_neg large]
  by_cases used : ¬ (block.header.nBits = 0 ∧ block.size = 0)
  · exact ⟨(.invalid, _, _), if_pos used, fun valid => used valid.2.2.1⟩
  rw [if_neg used]
  refine (placePrefilled_returns 0 (by omega)).bind fun (status, placed) placing => ?_
  rcases placing with ⟨rfl, unfit⟩ | ⟨⟨rfl, fits⟩, places, keeps⟩
  · exact ⟨(.invalid, _, _), rfl, fun valid => unfit valid.2.2.2⟩
  have valid : ValidFor block cmpctblock := ⟨absent, not_lt.mp large, not_not.mp used, fits⟩
  have filled := isSome_iff_statedAt places keeps
  have room := le_count_free cmpctblock.shorttxids.length cmpctblock.prefilledtxn
  refine (mapShortIds_returns filled cmpctblock.counted (by omega) (Nat.count_zero _)).bind
    fun (status, shorttxids) mapping => ?_
  simp only [Nat.zero_add] at mapping
  rcases mapping with ⟨rfl, full⟩ | ⟨⟨rfl, sparse⟩, others, maps⟩
  · exact ⟨(.failed, _, _), rfl, valid, places, .inl full⟩
  by_cases single : cmpctblock.shorttxids.dedup.length = cmpctblock.shorttxids.length
  · have nodup := dedup_eq_self.mp ((dedup_sublist cmpctblock.shorttxids).eq_of_length single)
    exact ⟨(.ok, _, _), if_neg (not_not.mpr single),
      valid, places, sparse, nodup, others, maps nodup⟩
  · refine ⟨(.failed, _, _), if_pos single, valid, places, .inr fun nodup => ?_⟩
    exact single (by rw [nodup.dedup])

/-- A block of which nothing is known, and a message with transactions at the positions
0 and 2. -/
def unknownBlock : PartiallyDownloadedBlock Numeric.types :=
  ⟨⟨4, (0 : Nat), (0 : Nat), 0, 0, 0⟩, 0, fun _ => none⟩

def paying (amount : CAmount) : CTransaction Numeric.types :=
  ⟨[], [⟨amount, []⟩], 2, 0, none, false⟩

def sentBlock : CBlockHeaderAndShortTxIDs Numeric.types where
  header := ⟨4, (0 : Nat), (0 : Nat), 0, 1, 0⟩
  shorttxids := [7, 9]
  prefilledtxn := [(0, paying 3), (1, paying 5)]
  counted := by decide

theorem initData_sentBlock : ∃ shorttxids after,
    initData (fun _ => false) unknownBlock sentBlock = .ok (.ok, shorttxids, after) ∧
      (after.txnAvailable 0 = some (paying 3) ∧ after.txnAvailable 2 = some (paying 5)) ∧
      shorttxids 7 = some 1 ∧ shorttxids 9 = some 3 := by
  obtain ⟨⟨status, shorttxids, after⟩, returned, described⟩ :=
    initData_safe (fun _ => false) unknownBlock sentBlock
  have mapped : (initData (fun _ => false) unknownBlock sentBlock).map
      (fun (status, shorttxids, _) => (status, shorttxids 7, shorttxids 9)) =
      .ok (.ok, some 1, some 3) := by rfl
  simp only [returned, Except.map, Except.ok.injEq, Prod.mk.injEq] at mapped
  obtain ⟨rfl, first, second⟩ := mapped
  obtain ⟨-, places, -⟩ := described
  have placed := forall_mem_cons.mp places
  exact ⟨shorttxids, after, returned, ⟨placed.1, (forall_mem_cons.mp placed.2).1⟩, first, second⟩

end MooncoinFormal.Net
