import MooncoinFormal.Mweb.FirstBlock
import MooncoinFormal.Validation.TxVerify

/-!
# Stored lock points

`TestLockPointValidity` and `CheckSequenceLocks` of `validation.cpp`: the pool keeps the
height and the time that the relative locks of a transaction came to, together with the
highest block that one of its confirmed inputs is in. While that block is on the active
chain, the stored values are compared with the new tip.

An input from the pool counts as confirmed in the block after the tip, so what it
contributes moves with the tip, and the stored values do not.
-/

namespace MooncoinFormal.Validation

open Primitives Coins List

variable {T : CryptoTypes}

deriving instance DecidableEq for CBlockIndex

/-! ## The checks -/

/-- `LockPoints`; the block is identified with its chain, and no block with the empty
one. -/
structure LockPoints (T : CryptoTypes) where
  height : Int
  time : Int
  maxInputBlock : Chain T

variable (chain : Chain T)

def testLockPointValidity (lp : LockPoints T) : Bool :=
  lp.maxInputBlock.isSuffixOf chain

/-- `EvaluateSequenceLocks` for the block after the chain. -/
def evaluateSequenceLocks (lockPair : Int × Int) : Bool :=
  decide (lockPair.1 < chain.nextHeight) && decide (lockPair.2 < chain.getMedianTimePast)

/-- `MEMPOOL_HEIGHT`, as the height of a coin. -/
def mempoolCoinHeight : BitVec 31 := 0x7fffffff

/-- The height at which an input counts as confirmed. -/
def inputHeight (coin : Coin) : Nat :=
  if coin.nHeight = mempoolCoinHeight then chain.nextHeight else coin.nHeight.toNat

variable (getCoin : COutPoint T → Option Coin)

def prevHeights (tx : CTransaction T) : Option (List Nat) :=
  tx.vin.mapM fun txin => (getCoin txin.prevout).map (inputHeight chain)

def lockDisabled (txin : CTxIn T) : Bool := decide (txin.nSequence &&& 0x80000000 ≠ 0)

variable (verifySequence : Bool)

def enforceBIP68 (tx : CTransaction T) : Bool :=
  decide (2 ≤ tx.nVersion.toUInt32) && verifySequence

/-- The heights as `CalculateSequenceLocks` leaves them: an input without a relative lock
has height zero. -/
def heightsAfter (tx : CTransaction T) (prevHeights : List Nat) : List Nat :=
  if enforceBIP68 verifySequence tx then
    (tx.vin.zip prevHeights).map fun entry => if lockDisabled entry.1 then 0 else entry.2
  else prevHeights

/-- The highest of the inputs that are not from the pool. -/
def maxInputHeight (heights : List Nat) : Nat :=
  (heights.filter (· ≠ chain.nextHeight)).foldl max 0

/-- `CheckSequenceLocks`, with the lock points afterwards. -/
def checkSequenceLocks (tx : CTransaction T) (lp : LockPoints T) (useExistingLockPoints : Bool) :
    Bool × LockPoints T :=
  if useExistingLockPoints then (evaluateSequenceLocks chain (lp.height, lp.time), lp)
  else
    match prevHeights chain getCoin tx with
    | none => (false, lp)
    | some heights =>
      let lockPair := calculateSequenceLocks chain verifySequence tx heights
      (evaluateSequenceLocks chain lockPair,
        { height := lockPair.1
          time := lockPair.2
          maxInputBlock :=
            chain.getAncestor (maxInputHeight chain (heightsAfter verifySequence tx heights)) })

/-! ## The locks of the inputs one by one -/

/-- The value of a relative lock. -/
def lockValue (txin : CTxIn T) : Nat := (txin.nSequence &&& 0xffff).toNat

def lockByTime (txin : CTxIn T) : Bool := decide (txin.nSequence &&& 0x00400000 ≠ 0)

variable (first second : Chain T)

/-- The lock of an input, counted on the first chain, is over after the second. -/
def LockOver (txin : CTxIn T) (height : Nat) : Prop :=
  lockDisabled txin = false →
    if lockByTime txin then
      (first.getAncestor (height - 1)).getMedianTimePast + lockValue txin * 2 ^ 9 ≤
        second.getMedianTimePast
    else height + lockValue txin ≤ second.nextHeight

theorem evaluate_step (lockPair : Int × Int) (entry : CTxIn T × Nat) :
    evaluateSequenceLocks second (sequenceLockStep first lockPair entry) = true ↔
      evaluateSequenceLocks second lockPair = true ∧ LockOver first second entry.1 entry.2 := by
  simp only [evaluateSequenceLocks, LockOver, lockDisabled, lockByTime, lockValue,
    Bool.and_eq_true, decide_eq_true_eq, decide_eq_false_iff_not]
  rw [sequenceLockStep]
  split
  case isTrue disabled => simp [disabled]
  case isFalse enabled =>
    simp only [enabled, not_false_eq_true, forall_const]
    split
    case isTrue byTime => omega
    case isFalse byHeight => omega

theorem evaluate_foldl (entries : List (CTxIn T × Nat)) (lockPair : Int × Int) :
    evaluateSequenceLocks second (entries.foldl (sequenceLockStep first) lockPair) = true ↔
      evaluateSequenceLocks second lockPair = true ∧
        ∀ entry ∈ entries, LockOver first second entry.1 entry.2 := by
  induction entries generalizing lockPair with
  | nil => simp
  | cons entry rest ih =>
    rw [foldl_cons, ih, evaluate_step, forall_mem_cons, and_assoc]

theorem evaluate_calculate (verifySequence : Bool) (tx : CTransaction T) (heights : List Nat) :
    evaluateSequenceLocks second (calculateSequenceLocks first verifySequence tx heights) = true ↔
      (enforceBIP68 verifySequence tx = true →
        ∀ entry ∈ tx.vin.zip heights, LockOver first second entry.1 entry.2) := by
  have start : evaluateSequenceLocks second (-1, -1) = true := by
    simp only [evaluateSequenceLocks, Bool.and_eq_true, decide_eq_true_eq]
    omega
  have same : calculateSequenceLocks first verifySequence tx heights =
      if enforceBIP68 verifySequence tx then
        (tx.vin.zip heights).foldl (sequenceLockStep first) (-1, -1)
      else (-1, -1) := by
    simp only [calculateSequenceLocks, enforceBIP68, Bool.and_eq_true, decide_eq_true_eq]
  rw [same]
  cases enforceBIP68 verifySequence tx with
  | true => simp [evaluate_foldl, start]
  | false => simp [start]

theorem getAncestor_suffix (height : Nat) : chain.getAncestor height <:+ chain := by
  rw [Chain.getAncestor]
  split
  · exact drop_suffix _ _
  · exact nil_suffix

variable {chain : Chain T} {txin : CTxIn T}

theorem length_getAncestor {height : Nat} (inside : height < chain.length) :
    (chain.getAncestor height).length = height + 1 := by
  rw [Chain.getAncestor, if_pos inside, length_drop]
  omega

theorem getAncestor_of_suffix {block : Chain T} (common : block <:+ chain) {height : Nat}
    (below : height < block.length) : chain.getAncestor height = block.getAncestor height := by
  obtain ⟨-, rfl⟩ := common
  rw [Chain.getAncestor, Chain.getAncestor, if_pos below,
    if_pos (by rw [length_append]; omega), drop_append, drop_eq_nil_of_le]
  · rw [nil_append]
    congr 1
    rw [length_append]
    omega
  · rw [length_append]
    omega

theorem le_foldl_max {heights : List Nat} {start : Nat} :
    start ≤ heights.foldl max start ∧ ∀ height ∈ heights, height ≤ heights.foldl max start := by
  induction heights generalizing start with
  | nil => simp
  | cons first rest ih =>
    obtain ⟨above, all⟩ := @ih (max start first)
    refine ⟨(le_max_left _ _).trans above, ?_⟩
    rw [forall_mem_cons]
    exact ⟨(le_max_right _ _).trans above, all⟩

theorem foldl_max_lt {heights : List Nat} {start bound : Nat} (first : start < bound)
    (below : ∀ height ∈ heights, height < bound) : heights.foldl max start < bound := by
  induction heights generalizing start with
  | nil => exact first
  | cons height rest ih =>
    rw [forall_mem_cons] at below
    exact ih (max_lt first below.1) below.2

/-! ## Reusing the lock points -/

def coinOf (txin : CTxIn T) : Coin :=
  (getCoin txin.prevout).getD Coin.cleared

def Unconfirmed (txin : CTxIn T) : Prop :=
  (coinOf getCoin txin).nHeight = mempoolCoinHeight

variable {getCoin}

theorem inputHeight_unconfirmed (pending : Unconfirmed getCoin txin) :
    inputHeight chain (coinOf getCoin txin) = chain.nextHeight := if_pos pending

theorem inputHeight_confirmed (confirmed : ¬ Unconfirmed getCoin txin) :
    inputHeight chain (coinOf getCoin txin) = (coinOf getCoin txin).nHeight.toNat :=
      if_neg confirmed

/-- The inputs are known, and those that are confirmed are in the chain. -/
structure KnownInputs (chain : Chain T) (getCoin : COutPoint T → Option Coin)
    (tx : CTransaction T) : Prop where
  known : ∀ txin ∈ tx.vin, (getCoin txin.prevout).isSome = true
  confirmed : ∀ txin ∈ tx.vin, ¬ Unconfirmed getCoin txin →
    (coinOf getCoin txin).nHeight.toNat < chain.nextHeight

theorem prevHeights_eq {tx : CTransaction T}
    (known : ∀ txin ∈ tx.vin, (getCoin txin.prevout).isSome = true) :
    prevHeights chain getCoin tx =
      some (tx.vin.map fun txin => inputHeight chain (coinOf getCoin txin)) := by
  unfold prevHeights
  generalize tx.vin = vin at known ⊢
  induction vin with
  | nil => rfl
  | cons txin rest ih =>
    rw [forall_mem_cons] at known
    obtain ⟨coin, found⟩ := Option.isSome_iff_exists.mp known.1
    rw [mapM_cons, ih known.2]
    simp [coinOf, found]

theorem mem_zip_map {entry : CTxIn T × Nat} {vin : List (CTxIn T)} {height : CTxIn T → Nat} :
    entry ∈ vin.zip (vin.map height) ↔ ∃ txin ∈ vin, (txin, height txin) = entry := by
  rw [← map_prod_left_eq_zip, mem_map]

section Reuse

variable {old new : Chain T} {getCoin getCoin' : COutPoint T → Option Coin} {verifySequence : Bool}
  {tx : CTransaction T} {lp lp' : LockPoints T}

variable (started : old ≠ []) (known : KnownInputs old getCoin tx)
  (known' : KnownInputs new getCoin' tx)
  (kept : ∀ txin ∈ tx.vin, (coinOf getCoin' txin).nHeight = (coinOf getCoin txin).nHeight)
  (valid : testLockPointValidity new
    (checkSequenceLocks old getCoin verifySequence tx lp false).2 = true)
  (enforced : enforceBIP68 verifySequence tx = true)

include known in
theorem checkSequenceLocks_fresh :
    (checkSequenceLocks old getCoin verifySequence tx lp false).1 = true ↔
      (enforceBIP68 verifySequence tx = true → ∀ txin ∈ tx.vin,
        LockOver old old txin (inputHeight old (coinOf getCoin txin))) := by
  simp only [checkSequenceLocks, Bool.false_eq_true, if_false, prevHeights_eq known.known,
    evaluate_calculate, mem_zip_map, forall_exists_index, and_imp, forall_apply_eq_imp_iff₂]

include known in
theorem checkSequenceLocks_stored :
    (checkSequenceLocks new getCoin' verifySequence tx
        (checkSequenceLocks old getCoin verifySequence tx lp false).2 true).1 = true ↔
      (enforceBIP68 verifySequence tx = true → ∀ txin ∈ tx.vin,
        LockOver old new txin (inputHeight old (coinOf getCoin txin))) := by
  simp only [checkSequenceLocks, Bool.false_eq_true, if_false, if_true, prevHeights_eq known.known,
    Prod.mk.eta, evaluate_calculate, mem_zip_map, forall_exists_index, and_imp,
    forall_apply_eq_imp_iff₂]

variable (old getCoin verifySequence tx) in
/-- The height of the block that is remembered. -/
abbrev rememberedHeight : Nat :=
  maxInputHeight old (heightsAfter verifySequence tx
    (tx.vin.map fun txin => inputHeight old (coinOf getCoin txin)))

include known enforced in
theorem height_le_rememberedHeight (member : txin ∈ tx.vin) (confirmed : ¬ Unconfirmed getCoin txin)
    (locked : lockDisabled txin = false) :
    (coinOf getCoin txin).nHeight.toNat ≤ rememberedHeight old getCoin verifySequence tx := by
  have below := known.confirmed txin member confirmed
  refine le_foldl_max.2 _ (mem_filter.mpr ⟨?_, by simp; omega⟩)
  rw [heightsAfter, if_pos enforced, mem_map]
  exact ⟨(txin, _), mem_zip_map.mpr ⟨txin, member, rfl⟩, by
    simp [locked, inputHeight_confirmed confirmed]⟩

include started known in
theorem rememberedHeight_lt : rememberedHeight old getCoin verifySequence tx < old.length := by
  have positive := length_pos_iff.mpr started
  -- What is counted is zero, the height of a confirmed input, or left out.
  have bounded : ∀ txin ∈ tx.vin, inputHeight old (coinOf getCoin txin) ≠ old.nextHeight →
      inputHeight old (coinOf getCoin txin) < old.length := by
    intro txin member below
    rw [inputHeight] at below ⊢
    split at below
    · exact absurd rfl below
    · next confirmed =>
        rw [if_neg confirmed]
        exact known.confirmed txin member confirmed
  refine foldl_max_lt positive fun height listed => ?_
  obtain ⟨listed, below⟩ := mem_filter.mp listed
  have below : height ≠ old.nextHeight := of_decide_eq_true below
  rw [heightsAfter] at listed
  split at listed
  · obtain ⟨entry, zipped, rfl⟩ := mem_map.mp listed
    obtain ⟨txin, member, rfl⟩ := mem_zip_map.mp zipped
    split
    · exact positive
    · next locked =>
        rw [if_neg locked] at below
        exact bounded txin member below
  · obtain ⟨txin, member, rfl⟩ := mem_map.mp listed
    exact bounded txin member below

include started known valid enforced in
theorem lockOver_confirmed (member : txin ∈ tx.vin) (confirmed : ¬ Unconfirmed getCoin txin) :
    LockOver old new txin (coinOf getCoin txin).nHeight.toNat ↔
      LockOver new new txin (coinOf getCoin txin).nHeight.toNat := by
  refine forall_congr' fun locked => ?_
  have high := height_le_rememberedHeight known enforced member confirmed locked
  simp only [checkSequenceLocks, Bool.false_eq_true, if_false, prevHeights_eq known.known,
    testLockPointValidity, isSuffixOf_iff_suffix] at valid
  have length := length_getAncestor (@rememberedHeight_lt _ _ _ verifySequence _ started known)
  have below : (coinOf getCoin txin).nHeight.toNat - 1 <
      (old.getAncestor (rememberedHeight old getCoin verifySequence tx)).length := by omega
  rw [getAncestor_of_suffix (getAncestor_suffix old _) below, getAncestor_of_suffix valid below]

/-- From the old tip to the new one, the relative lock has run off. -/
def TipReached (old new : Chain T) (txin : CTxIn T) : Prop :=
  if lockByTime txin then
    old.getMedianTimePast + lockValue txin * 2 ^ 9 ≤ new.getMedianTimePast
  else old.nextHeight + lockValue txin ≤ new.nextHeight

variable (chain : Chain T)

theorem getAncestor_tip : chain.getAncestor (chain.nextHeight - 1) = chain := by
  cases chain with
  | nil => rfl
  | cons index rest => simp [Chain.getAncestor, Chain.nextHeight]

theorem lockOver_unconfirmed (old new : Chain T) (txin : CTxIn T) :
    LockOver old new txin old.nextHeight ↔
      (lockDisabled txin = false → TipReached old new txin) := by
  rw [LockOver, getAncestor_tip]
  rfl

theorem tipReached_self (txin : CTxIn T) : TipReached chain chain txin ↔ lockValue txin = 0 := by
  unfold TipReached
  split <;> omega

/-- The inputs from the pool are past their locks, as counted from the old tip, exactly
when they have none. -/
def ReuseSafe (old new : Chain T) (getCoin : COutPoint T → Option Coin)
    (tx : CTransaction T) : Prop :=
  (∀ txin ∈ tx.vin, Unconfirmed getCoin txin → lockDisabled txin = false →
      TipReached old new txin) ↔
    ∀ txin ∈ tx.vin, Unconfirmed getCoin txin → lockDisabled txin = false → lockValue txin = 0

/-- The locks of the confirmed inputs are over at the tip of the chain. -/
def ConfirmedOver (getCoin : COutPoint T → Option Coin) (tx : CTransaction T) : Prop :=
  ∀ txin ∈ tx.vin, ¬ Unconfirmed getCoin txin →
    LockOver chain chain txin (coinOf getCoin txin).nHeight.toNat

theorem forall_lockOver (old new : Chain T) (getCoin : COutPoint T → Option Coin)
    (tx : CTransaction T) :
    (∀ txin ∈ tx.vin, LockOver old new txin (inputHeight old (coinOf getCoin txin))) ↔
      (∀ txin ∈ tx.vin, ¬ Unconfirmed getCoin txin →
          LockOver old new txin (coinOf getCoin txin).nHeight.toNat) ∧
        ∀ txin ∈ tx.vin, Unconfirmed getCoin txin → lockDisabled txin = false →
          TipReached old new txin := by
  constructor
  · intro all
    refine ⟨fun txin member confirmed => ?_, fun txin member pending => ?_⟩
    · have passed := all txin member
      rwa [inputHeight_confirmed confirmed] at passed
    · have passed := all txin member
      rwa [inputHeight_unconfirmed pending, lockOver_unconfirmed] at passed
  · rintro ⟨confirmedOver, pendingOver⟩ txin member
    by_cases pending : Unconfirmed getCoin txin
    · rw [inputHeight_unconfirmed pending]
      exact (lockOver_unconfirmed old new txin).mpr (pendingOver txin member pending)
    · rw [inputHeight_confirmed pending]
      exact confirmedOver txin member pending

include started known valid enforced in
theorem storedVerdict :
    (checkSequenceLocks new getCoin' verifySequence tx
          (checkSequenceLocks old getCoin verifySequence tx lp false).2 true).1 = true ↔
      ConfirmedOver new getCoin tx ∧ ∀ txin ∈ tx.vin, Unconfirmed getCoin txin →
        lockDisabled txin = false → TipReached old new txin := by
  rw [checkSequenceLocks_stored known]
  simp only [enforced, true_imp_iff, forall_lockOver, ConfirmedOver]
  refine and_congr_left fun _ => forall₂_congr fun txin member => ?_
  exact forall_congr' fun confirmed =>
    lockOver_confirmed started known valid enforced member confirmed

include known' kept enforced in
theorem freshVerdict :
    (checkSequenceLocks new getCoin' verifySequence tx lp' false).1 = true ↔
      ConfirmedOver new getCoin tx ∧ ∀ txin ∈ tx.vin, Unconfirmed getCoin txin →
        lockDisabled txin = false → lockValue txin = 0 := by
  have sameHeight : ∀ txin ∈ tx.vin, inputHeight new (coinOf getCoin' txin) =
      inputHeight new (coinOf getCoin txin) := by
    intro txin member
    rw [inputHeight, inputHeight, kept txin member]
  rw [checkSequenceLocks_fresh known']
  simp only [enforced, true_imp_iff]
  rw [forall₂_congr fun txin member => by rw [sameHeight txin member], forall_lockOver]
  simp only [tipReached_self, ConfirmedOver]

include started known known' kept valid

/-- Stored lock points that are still valid give the verdict of a new computation
exactly when the confirmed inputs decide it, or the tip has not moved back for the
inputs from the pool. -/
theorem storedVerdict_eq_iff :
    (checkSequenceLocks new getCoin' verifySequence tx
          (checkSequenceLocks old getCoin verifySequence tx lp false).2 true).1 =
        (checkSequenceLocks new getCoin' verifySequence tx lp' false).1 ↔
      (enforceBIP68 verifySequence tx = true → ConfirmedOver new getCoin tx →
        ReuseSafe old new getCoin tx) := by
  rw [Bool.eq_iff_iff]
  by_cases enforced : enforceBIP68 verifySequence tx = true
  · rw [storedVerdict started known valid enforced, freshVerdict known' kept enforced, ReuseSafe,
      and_congr_right_iff]
    simp only [enforced, true_imp_iff]
  · rw [checkSequenceLocks_stored known, checkSequenceLocks_fresh known']
    simp [enforced]

theorem storedVerdict_eq_of_passed
    (passed : (checkSequenceLocks old getCoin verifySequence tx lp false).1 = true)
    (height : old.nextHeight ≤ new.nextHeight)
    (time : old.getMedianTimePast ≤ new.getMedianTimePast) :
    (checkSequenceLocks new getCoin' verifySequence tx
          (checkSequenceLocks old getCoin verifySequence tx lp false).2 true).1 =
        (checkSequenceLocks new getCoin' verifySequence tx lp' false).1 := by
  rw [Bool.eq_iff_iff]
  by_cases enforced : enforceBIP68 verifySequence tx = true
  swap
  · rw [checkSequenceLocks_stored known, checkSequenceLocks_fresh known']
    simp [enforced]
  rw [storedVerdict started known valid enforced, freshVerdict known' kept enforced,
    and_congr_right_iff]
  intro _
  have zero := ((forall_lockOver old old getCoin tx).mp
    ((checkSequenceLocks_fresh known).mp passed enforced)).2
  simp only [tipReached_self] at zero
  refine iff_of_true (fun txin member pending locked => ?_) zero
  have none_ := zero txin member pending locked
  unfold TipReached
  split
  · omega
  · omega

end Reuse

end MooncoinFormal.Validation

namespace MooncoinFormal.Primitives.Numeric

open Coins Validation

/-- A chain of blocks that bear their heights as hashes and times. -/
def numberedChain : Nat → Chain types
  | 0 => []
  | height + 1 =>
    { header := ⟨1, (0 : Nat), (0 : Nat), UInt32.ofNat height, 0, 0⟩
      blockHash := height
      hogexHash := (0 : Nat)
      mwebAmount := 0
      mwebAmount_range := moneyRange_zero } :: numberedChain height

/-- A transaction with a relative lock of zero blocks on its only input. -/
def childTx : CTransaction types where
  vin := [⟨⟨(7 : Nat), 0⟩, [], 0, []⟩]
  vout := [⟨10, [0x51]⟩]
  nVersion := 2
  nLockTime := 0
  mwebTx := none
  hogEx := false

def poolCoin (_ : COutPoint types) : Option Coin :=
  some ⟨⟨10, [0x51]⟩, false, mempoolCoinHeight, false⟩

def noLockPoints : LockPoints types := ⟨0, 0, []⟩

theorem childTx_known (chain : Chain types) : KnownInputs chain poolCoin childTx :=
  ⟨fun _ _ => rfl, fun _ _ confirmed => absurd rfl confirmed⟩

/-- From height two to height three, the stored lock points are good. -/
theorem childTx_reuse_higher :
    (checkSequenceLocks (numberedChain 3) poolCoin true childTx
          (checkSequenceLocks (numberedChain 2) poolCoin true childTx noLockPoints
            false).2 true).1 =
        (checkSequenceLocks (numberedChain 3) poolCoin true childTx noLockPoints false).1 ∧
      ReuseSafe (numberedChain 2) (numberedChain 3) poolCoin childTx := by
  have safe : ReuseSafe (numberedChain 2) (numberedChain 3) poolCoin childTx := by
    refine iff_of_true (fun txin member _ _ => ?_) (fun txin member _ _ => ?_)
    · cases List.mem_singleton.mp member
      unfold TipReached
      decide +kernel
    · cases List.mem_singleton.mp member
      decide +kernel
  exact ⟨(storedVerdict_eq_iff (by decide +kernel) (childTx_known _) (childTx_known _)
    (fun _ _ => rfl) (by decide +kernel)).mpr fun _ _ => safe, safe⟩

/-- From height three back to height two, they refuse a transaction that passes. -/
theorem childTx_reuse_lower :
    (checkSequenceLocks (numberedChain 3) poolCoin true childTx noLockPoints false).1 = true ∧
      testLockPointValidity (numberedChain 2)
        (checkSequenceLocks (numberedChain 3) poolCoin true childTx noLockPoints false).2 = true ∧
      (checkSequenceLocks (numberedChain 2) poolCoin true childTx
        (checkSequenceLocks (numberedChain 3) poolCoin true childTx noLockPoints false).2 true).1 =
          false ∧
      (checkSequenceLocks (numberedChain 2) poolCoin true childTx noLockPoints false).1 = true := by
  refine ⟨?_, ?_, ?_, ?_⟩ <;> decide +kernel

end MooncoinFormal.Primitives.Numeric
