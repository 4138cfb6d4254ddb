import MooncoinFormal.Mempool.Pool
import MooncoinFormal.Mweb.ExactSums
import MooncoinFormal.Mweb.InputMatch

/-!
# The pool after a block

When a block is connected, its transactions leave the pool, and so do those whose
kernels are in the extension block. What conflicts with one of them is removed with
its descendants. The inputs of the extension block itself are not looked up, so a
transaction of the pool that spends the same MWEB output under another kernel stays.
-/

namespace MooncoinFormal.Mempool

open Primitives List CTransaction

variable {T : CryptoTypes} {hash : T.Hash} {stage : List T.Hash}

variable {tx : CTransaction T} {start target : T.Hash} {input : OutputIndex T}

namespace CTxMemPool

section Model

variable (crypto : BlockCrypto T) (pool : CTxMemPool T) (block : CBlock T)

/-- The transactions of the pool with a kernel in the extension block. -/
def kernelMatches : List (CTransaction T) :=
  match block.mwebBlock with
  | none => []
  | some mwebBlock =>
    pool.txs.filter fun tx => tx.hasMwebTx &&
      (tx.getKernelIDs crypto).any fun kernelId =>
        decide (kernelId ∈ mwebBlock.body.getKernelIDs crypto.toCrypto)

def includedTxs : List (CTransaction T) := block.vtx ++ pool.kernelMatches crypto block

/-- One pass of the loop: the transaction goes alone, its conflicts with their
descendants. -/
def removeIncluded (tx : CTransaction T) : CTxMemPool T :=
  let removed :=
    match pool.find crypto (tx.getHash crypto) with
    | none => pool
    | some _ => pool.removeStaged crypto [tx.getHash crypto]
  removed.removeConflicts crypto tx

def removeForBlock : CTxMemPool T :=
  (pool.includedTxs crypto block).foldl (removeIncluded crypto) pool

end Model

/-- A transaction of the pool that goes with an included one: it conflicts with it, or
it is a child of one that does and has not left the pool by itself. -/
inductive Swept (crypto : BlockCrypto T) (pool : CTxMemPool T) (tx : CTransaction T)
    (gone : List T.Hash) : T.Hash → Prop where
  | conflict {other : CTransaction T} (present : other ∈ pool.txs)
      (shared : ∃ input ∈ tx.getInputs, input ∈ other.getInputs)
      (differs : other.getHash crypto ≠ tx.getHash crypto) :
      Swept crypto pool tx gone (other.getHash crypto)
  | child {parent child : T.Hash} (swept : Swept crypto pool tx gone parent)
      (stays : parent ∉ gone) (linked : child ∈ pool.getMemPoolChildren crypto parent) :
      Swept crypto pool tx gone child

/-- The transaction is one of those included, or it is swept out with one of them; what
is included up to that one has left the pool by then. -/
def Dropped (crypto : BlockCrypto T) (pool : CTxMemPool T) (included : List (CTransaction T))
    (hash : T.Hash) : Prop :=
  hash ∈ included.map (getHash crypto) ∨
    ∃ before tx after, included = before ++ tx :: after ∧
      Swept crypto pool tx ((before ++ [tx]).map (getHash crypto)) hash

variable {crypto : BlockCrypto T} {pool pool' pool'' : CTxMemPool T}

theorem Removed.trans {stage' : List T.Hash} (first : Removed crypto stage pool pool')
    (second : Removed crypto stage' pool' pool'') :
    Removed crypto (stage ++ stage') pool pool'' := by
  refine ⟨second.consistent, ?_, ?_⟩
  · intro tx
    rw [second.mem_txs, first.mem_txs, mem_append, not_or, and_assoc]
  · intro parent child stays
    rw [mem_append, not_or] at stays
    rw [second.mem_children _ _ stays.2, first.mem_children _ _ stays.1, mem_append, not_or,
      and_assoc]

theorem Removed.refl (consistent : pool.Consistent crypto)
    (absent : ∀ tx ∈ pool.txs, tx.getHash crypto ∉ stage) : Removed crypto stage pool pool := by
  refine ⟨consistent, fun tx => ?_, fun parent child _ => ?_⟩
  · exact ⟨fun present => ⟨present, absent tx present⟩, And.left⟩
  · refine ⟨fun linked => ⟨linked, ?_⟩, And.left⟩
    obtain ⟨tx, present, rfl⟩ := mem_map.mp (children_inside consistent parent linked)
    exact absent tx present

section

variable (removed : Removed crypto stage pool pool')
include removed

/-- A link that is left was there before, between entries that stay. -/
theorem Removed.linked {parent child : T.Hash}
    (linked : child ∈ pool'.getMemPoolChildren crypto parent) :
    child ∈ pool.getMemPoolChildren crypto parent ∧ parent ∉ stage ∧ child ∉ stage := by
  obtain ⟨entry, member, rfl, -⟩ := (mem_getMemPoolChildren removed.consistent.maps).mp linked
  have stays := ((removed.mem_txs entry.tx).mp (mem_map_of_mem member)).2
  obtain ⟨before, goes⟩ := (removed.mem_children _ _ stays).mp linked
  exact ⟨before, stays, goes⟩

/-- Where a set closed under children is removed, a descendant is in the set or
descends through what is left. -/
theorem Removed.descends
    (closed : ∀ parent ∈ stage, ∀ child ∈ pool.getMemPoolChildren crypto parent, child ∈ stage)
    (descends : pool.Descends crypto start target) :
    target ∈ stage ∨ pool'.Descends crypto start target := by
  induction descends with
  | refl => exact .inr .refl
  | @tail parent child _ linked ih =>
    obtain goes | path := ih
    · exact .inl (closed parent goes child linked)
    by_cases parentGoes : parent ∈ stage
    · exact .inl (closed parent parentGoes child linked)
    by_cases childGoes : child ∈ stage
    · exact .inl childGoes
    · exact .inr (path.tail ((removed.mem_children _ _ parentGoes).mpr ⟨linked, childGoes⟩))

theorem Removed.descends_before
    (descends : pool'.Descends crypto start target) : pool.Descends crypto start target :=
  Relation.ReflTransGen.mono (fun _ _ linked => (removed.linked linked).1) _ _ descends

end

/-! ## Conflicts -/

/-- The hash descends from a transaction with one of the inputs, other than the given
one. -/
def ConflictsAt (crypto : BlockCrypto T) (pool : CTxMemPool T) (tx : CTransaction T)
    (inputs : List (OutputIndex T)) (hash : T.Hash) : Prop :=
  ∃ other ∈ pool.txs, (∃ input ∈ inputs, input ∈ other.getInputs) ∧
    other.getHash crypto ≠ tx.getHash crypto ∧ pool.Descends crypto (other.getHash crypto) hash

theorem conflictsAt_cons {rest : List (OutputIndex T)} :
    ConflictsAt crypto pool tx (input :: rest) hash ↔
      ConflictsAt crypto pool tx [input] hash ∨ ConflictsAt crypto pool tx rest hash := by
  simp only [ConflictsAt, mem_cons, not_mem_nil, or_false, exists_eq_left,
    or_and_right, exists_or, and_or_left]

theorem removeConflict_spec (consistent : pool.Consistent crypto) (tx : CTransaction T)
    (input : OutputIndex T) :
    ∃ stage, Removed crypto stage pool (pool.removeConflict crypto tx input) ∧
      ∀ hash, hash ∈ stage ↔ ConflictsAt crypto pool tx [input] hash := by
  have only {other : CTransaction T} (present : other ∈ pool.txs)
    (spends : input ∈ other.getInputs) :
      pool.mapNextTx.lookup input = some other :=
    (consistent.maps.next input other).mpr ⟨present, spends⟩
  rw [removeConflict]
  cases looked : pool.mapNextTx.lookup input with
  | none =>
    refine ⟨[], Removed.refl consistent fun _ _ => not_mem_nil, fun hash => ?_⟩
    refine iff_of_false not_mem_nil ?_
    rintro ⟨other, present, ⟨spent, single, spends⟩, -⟩
    rw [mem_singleton.mp single] at spends
    rw [only present spends] at looked
    cases looked
  | some conflict =>
    obtain ⟨present, spends⟩ := (consistent.maps.next input conflict).mp looked
    have unique {other : CTransaction T} (present' : other ∈ pool.txs)
        (spends' : ∃ spent ∈ [input], spent ∈ other.getInputs) : other = conflict := by
      obtain ⟨spent, single, spends'⟩ := spends'
      rw [mem_singleton.mp single] at spends'
      have same := only present' spends'
      rw [looked, Option.some.injEq] at same
      exact same.symm
    by_cases same : conflict.getHash crypto = tx.getHash crypto
    · refine ⟨[], ?_, fun hash => iff_of_false not_mem_nil ?_⟩
      · dsimp only
        rw [if_neg (not_not_intro same)]
        exact Removed.refl consistent fun _ _ => not_mem_nil
      · rintro ⟨other, present', spends', differs, -⟩
        exact differs (unique present' spends' ▸ same)
    · obtain ⟨stage, removed, exactly⟩ := removeRecursive_spec consistent present
      refine ⟨stage, ?_, fun hash => (exactly hash).trans ?_⟩
      · dsimp only
        rwa [if_pos same]
      · constructor
        · intro descends
          exact ⟨conflict, present, ⟨input, mem_singleton_self _, spends⟩, same, descends⟩
        · rintro ⟨other, present', spends', -, descends⟩
          rwa [unique present' spends'] at descends

theorem removeConflicts_loop (tx : CTransaction T) (inputs : List (OutputIndex T))
    (consistent : pool.Consistent crypto) :
    ∃ stage, Removed crypto stage pool
        (inputs.foldl (fun pool input => pool.removeConflict crypto tx input) pool) ∧
      ∀ hash, hash ∈ stage ↔ ConflictsAt crypto pool tx inputs hash := by
  induction inputs generalizing pool with
  | nil =>
    refine ⟨[], Removed.refl consistent fun _ _ => not_mem_nil, fun hash => ?_⟩
    refine iff_of_false not_mem_nil ?_
    rintro ⟨other, -, ⟨spent, untrue, -⟩, -⟩
    cases untrue
  | cons input rest ih =>
    obtain ⟨stage, removed, exactly⟩ := removeConflict_spec consistent tx input
    obtain ⟨stage', removed', exactly'⟩ := ih removed.consistent
    have closed : ∀ parent ∈ stage, ∀ child ∈ pool.getMemPoolChildren crypto parent,
        child ∈ stage := by
      intro parent goes child linked
      obtain ⟨other, present, spends, differs, descends⟩ := (exactly parent).mp goes
      exact (exactly child).mpr ⟨other, present, spends, differs, descends.tail linked⟩
    refine ⟨stage ++ stage', removed.trans removed', fun hash => ?_⟩
    rw [mem_append, exactly', conflictsAt_cons, ← exactly]
    constructor
    · rintro (goes | ⟨other, present, spends, differs, descends⟩)
      · exact .inl goes
      · exact .inr ⟨other, ((removed.mem_txs other).mp present).1, spends, differs,
          removed.descends_before descends⟩
    · rintro (goes | ⟨other, present, spends, differs, descends⟩)
      · exact .inl goes
      · by_cases otherGoes : other.getHash crypto ∈ stage
        · -- The conflict has gone already, and its descendants with it.
          refine .inl ?_
          obtain ⟨first, there, spent, differ, path⟩ := (exactly _).mp otherGoes
          exact (exactly hash).mpr ⟨first, there, spent, differ, path.trans descends⟩
        · refine (removed.descends closed descends).imp id fun path => ?_
          exact ⟨other, (removed.mem_txs other).mpr ⟨present, otherGoes⟩, spends, differs, path⟩

theorem removeIncluded_spec (consistent : pool.Consistent crypto) (tx : CTransaction T) :
    ∃ alone stage, Removed crypto [tx.getHash crypto] pool alone ∧
      Removed crypto stage alone (pool.removeIncluded crypto tx) ∧
      ∀ hash, hash ∈ stage ↔ ConflictsAt crypto alone tx tx.getInputs hash := by
  have alone : Removed crypto [tx.getHash crypto] pool
      (match pool.find crypto (tx.getHash crypto) with
        | none => pool
        | some _ => pool.removeStaged crypto [tx.getHash crypto]) := by
    cases found : pool.find crypto (tx.getHash crypto) with
    | none =>
      refine Removed.refl consistent fun other present => ?_
      rw [mem_singleton]
      exact find_eq_none.mp found other present
    | some entry => exact removeStaged_spec consistent _
  obtain ⟨stage, removed, exactly⟩ := removeConflicts_loop tx tx.getInputs alone.consistent
  exact ⟨_, stage, alone, removed, exactly⟩

/-! ## The loop over what is included -/

theorem Swept.inside (consistent : pool.Consistent crypto) {gone : List T.Hash}
    (swept : Swept crypto pool tx gone hash) : ∃ other ∈ pool.txs, other.getHash crypto = hash := by
  cases swept with
  | conflict present _ _ => exact ⟨_, present, rfl⟩
  | child _ _ linked => exact mem_map.mp (children_inside consistent _ linked)

section

variable {done : List (CTransaction T)}

theorem Dropped.mono (dropped : Dropped crypto pool done hash)
    (later : List (CTransaction T)) : Dropped crypto pool (done ++ later) hash := by
  obtain listed | ⟨before, tx, after, rfl, swept⟩ := dropped
  · exact .inl (by rw [map_append]; exact mem_append_left _ listed)
  · exact .inr ⟨before, tx, after ++ later, by simp, swept⟩

/-- A child of a dropped transaction that was not itself included is dropped. -/
theorem Dropped.child {parent child : T.Hash} (dropped : Dropped crypto pool done parent)
    (stays : parent ∉ done.map (getHash crypto))
    (linked : child ∈ pool.getMemPoolChildren crypto parent) : Dropped crypto pool done child := by
  obtain listed | ⟨before, tx, after, rfl, swept⟩ := dropped
  · exact absurd listed stays
  · refine .inr ⟨before, tx, after, rfl, swept.child (fun gone => stays ?_) linked⟩
    have upTo : before ++ tx :: after = (before ++ [tx]) ++ after := by simp
    rw [upTo, map_append]
    exact mem_append_left _ gone

theorem dropped_append_singleton :
    Dropped crypto pool (done ++ [tx]) hash ↔
      Dropped crypto pool done hash ∨ hash = tx.getHash crypto ∨
        Swept crypto pool tx ((done ++ [tx]).map (getHash crypto)) hash := by
  constructor
  · rintro (listed | ⟨before, last, after, split, out⟩)
    · rw [map_append, mem_append, map_singleton, mem_singleton] at listed
      exact listed.elim (fun earlier => .inl (.inl earlier)) fun same => .inr (.inl same)
    · induction after using reverseRecOn with
      | nil =>
        obtain ⟨rfl, single⟩ := append_inj' split rfl
        obtain rfl := (cons.inj single).1
        exact .inr (.inr out)
      | append_singleton after' final _ =>
        rw [← cons_append, ← append_assoc] at split
        obtain ⟨rfl, -⟩ := append_inj' split rfl
        exact .inl (.inr ⟨before, last, after', rfl, out⟩)
  · rintro (earlier | rfl | out)
    · exact earlier.mono [tx]
    · exact .inl (by simp)
    · exact .inr ⟨done, tx, [], rfl, out⟩

end

/-! One pass: `stage` has left the pool in the passes before, and `alone` is what is
left without the transaction of this pass. -/

section Pass

variable {done : List (CTransaction T)} {tx : CTransaction T} {stage : List T.Hash}
  {alone : CTxMemPool T}
  (exactly : ∀ other ∈ pool.txs, other.getHash crypto ∈ stage ↔
    Dropped crypto pool done (other.getHash crypto))
include exactly

theorem gone_of_included (inside : ∃ other ∈ pool.txs, other.getHash crypto = hash)
    (listed : hash ∈ (done ++ [tx]).map (getHash crypto)) :
    hash ∈ stage ++ [tx.getHash crypto] := by
  obtain ⟨other, present, rfl⟩ := inside
  rw [map_append, map_singleton] at listed
  obtain earlier | last := mem_append.mp listed
  · exact mem_append_left _ ((exactly other present).mpr (.inl earlier))
  · exact mem_append_right _ last

variable (consistent : pool.Consistent crypto)
  (removed : Removed crypto (stage ++ [tx.getHash crypto]) pool alone)
include consistent removed

theorem swept_of_conflictsAt (conflicts : ConflictsAt crypto alone tx tx.getInputs hash) :
    Swept crypto pool tx ((done ++ [tx]).map (getHash crypto)) hash := by
  obtain ⟨other, present, shared, differs, descends⟩ := conflicts
  induction descends with
  | refl => exact .conflict ((removed.mem_txs other).mp present).1 shared differs
  | tail _ linked ih =>
    obtain ⟨linked, parentStays, -⟩ := removed.linked linked
    exact ih.child
      (fun listed => parentStays (gone_of_included exactly (ih.inside consistent) listed)) linked

theorem conflictsAt_of_swept
    (out : Swept crypto pool tx ((done ++ [tx]).map (getHash crypto)) hash) :
    hash ∈ stage ++ [tx.getHash crypto] ∨ ConflictsAt crypto alone tx tx.getInputs hash := by
  induction out with
  | @conflict other present shared differs =>
    by_cases before : other.getHash crypto ∈ stage ++ [tx.getHash crypto]
    · exact .inl before
    · exact .inr ⟨other, (removed.mem_txs other).mpr ⟨present, before⟩, shared, differs, .refl⟩
  | @child parent child out stays linked ih =>
    by_cases before : child ∈ stage ++ [tx.getHash crypto]
    · exact .inl before
    by_cases parentBefore : parent ∈ stage ++ [tx.getHash crypto]
    · -- The parent left in an earlier pass, and the child with it.
      obtain ⟨parentTx, parentPresent, rfl⟩ := out.inside consistent
      obtain ⟨childTx, childPresent, rfl⟩ := mem_map.mp (children_inside consistent _ linked)
      rw [map_append, map_singleton, mem_append, not_or] at stays
      obtain earlier | last := mem_append.mp parentBefore
      · have dropped := ((exactly parentTx parentPresent).mp earlier).child stays.1 linked
        exact .inl (mem_append_left _ ((exactly childTx childPresent).mpr dropped))
      · exact absurd last stays.2
    · obtain ⟨other, present, shared, differs, descends⟩ := ih.resolve_left parentBefore
      have linkedAlone := (removed.mem_children _ _ parentBefore).mpr ⟨linked, before⟩
      exact .inr ⟨other, present, shared, differs, descends.tail linkedAlone⟩

end Pass

theorem foldl_removeIncluded (consistent : pool.Consistent crypto) (done : List (CTransaction T)) :
    ∃ stage, Removed crypto stage pool (done.foldl (removeIncluded crypto) pool) ∧
      ∀ tx ∈ pool.txs, tx.getHash crypto ∈ stage ↔
        Dropped crypto pool done (tx.getHash crypto) := by
  induction done using reverseRecOn with
  | nil =>
    refine ⟨[], Removed.refl consistent fun _ _ => not_mem_nil, fun tx _ => ?_⟩
    refine iff_of_false not_mem_nil ?_
    rintro (untrue | ⟨before, other, after, untrue, -⟩)
    · cases untrue
    · simp at untrue
  | append_singleton done tx ih =>
    obtain ⟨stage, removed, exactly⟩ := ih
    obtain ⟨alone, swept, removedAlone, removedSwept, exactlySwept⟩ :=
      removeIncluded_spec removed.consistent tx
    have removedBefore := removed.trans removedAlone
    rw [foldl_append, foldl_cons, foldl_nil]
    refine ⟨(stage ++ [tx.getHash crypto]) ++ swept, removedBefore.trans removedSwept, ?_⟩
    intro other present
    rw [dropped_append_singleton, ← exactly other present, mem_append, exactlySwept]
    constructor
    · rintro (earlier | conflicts)
      · rw [mem_append, mem_singleton] at earlier
        exact earlier.imp id .inl
      · exact .inr (.inr (swept_of_conflictsAt exactly consistent removedBefore conflicts))
    · rintro (earlier | same | out)
      · exact .inl (mem_append_left _ earlier)
      · exact .inl (mem_append_right _ (mem_singleton.mpr same))
      · exact conflictsAt_of_swept exactly consistent removedBefore out

theorem removeForBlock_spec (consistent : pool.Consistent crypto) (block : CBlock T) :
    (pool.removeForBlock crypto block).Consistent crypto ∧
      ∀ tx, tx ∈ (pool.removeForBlock crypto block).txs ↔
        tx ∈ pool.txs ∧ ¬ Dropped crypto pool (pool.includedTxs crypto block)
          (tx.getHash crypto) := by
  obtain ⟨stage, removed, exactly⟩ :=
    foldl_removeIncluded consistent (pool.includedTxs crypto block)
  refine ⟨removed.consistent, fun tx => ?_⟩
  rw [removeForBlock, removed.mem_txs]
  exact and_congr_right fun present => not_congr (exactly tx present)

/-! ## What the block spends -/

/-- The block spends it, in a transaction or in the extension block. -/
def BlockSpends (block : CBlock T) (input : OutputIndex T) : Prop :=
  (∃ tx ∈ block.vtx, input ∈ tx.getInputs) ∨
    ∃ outputId ∈ Mweb.getSpentIDs block, input = .inr outputId

theorem dropped_of_shared {block : CBlock T} {tx other : CTransaction T} (included : tx ∈ block.vtx)
    (present : other ∈ pool.txs) (spent : input ∈ tx.getInputs) (spends : input ∈ other.getInputs) :
    Dropped crypto pool (pool.includedTxs crypto block) (other.getHash crypto) := by
  have listed : tx ∈ pool.includedTxs crypto block := mem_append_left _ included
  by_cases same : other.getHash crypto = tx.getHash crypto
  · exact .inl (same ▸ mem_map_of_mem listed)
  · obtain ⟨before, after, split⟩ := append_of_mem listed
    exact .inr ⟨before, tx, after, split, .conflict present ⟨input, spent, spends⟩ same⟩

/-- Nothing that a block spends is spent by the pool afterwards, exactly when each
transaction of the pool that spends an MWEB output of the extension block's inputs is
included, or swept out with one that is. -/
theorem removeForBlock_no_conflict_iff (consistent : pool.Consistent crypto) (block : CBlock T) :
    (∀ tx ∈ (pool.removeForBlock crypto block).txs, ∀ input ∈ tx.getInputs,
        ¬ BlockSpends block input) ↔
      ∀ tx ∈ pool.txs, (∃ outputId ∈ Mweb.getSpentIDs block, .inr outputId ∈ tx.getInputs) →
        Dropped crypto pool (pool.includedTxs crypto block) (tx.getHash crypto) := by
  have left := (removeForBlock_spec consistent block).2
  constructor
  · rintro clean tx present ⟨outputId, spent, spends⟩
    by_contra stays
    exact clean tx ((left tx).mpr ⟨present, stays⟩) _ spends (.inr ⟨outputId, spent, rfl⟩)
  · rintro covered tx remains input spends (⟨included, listed, spent⟩ | ⟨outputId, spent, rfl⟩)
    · obtain ⟨present, stays⟩ := (left tx).mp remains
      exact stays (dropped_of_shared listed present spent spends)
    · obtain ⟨present, stays⟩ := (left tx).mp remains
      exact stays (covered tx present ⟨outputId, spent, spends⟩)

end CTxMemPool

end MooncoinFormal.Mempool

namespace MooncoinFormal.Primitives.Numeric

open Mempool CTxMemPool

/-- A transaction of the extension block only, which spends an output and pays a fee. -/
def spendingMwebTx (fee : CAmount) (excess : Int × Int) : CTransaction types where
  vin := []
  vout := []
  nVersion := 2
  nLockTime := 0
  mwebTx := some
    { kernelOffset := (0 : Int)
      stealthOffset := (0 : Int)
      body := ⟨[spendOutput keptOutput], [], [feeKernel fee excess]⟩ }
  hogEx := false

/-- An extension block that spends the same output under a kernel of its own. -/
def spendingExtension (fee : CAmount) (excess : Int × Int) : CBlock types where
  header := ⟨1, (0 : Nat), (0 : Nat), 0, 0, 0⟩
  vtx := [coinbaseTx]
  mwebBlock := some
    { header := ⟨2, (0 : Nat), (0 : Nat), (0 : Nat), (0 : Int), (0 : Int), 3, 1⟩
      body := ⟨[spendOutput keptOutput], [], [feeKernel fee excess]⟩ }

def spendingPool : CTxMemPool types :=
  CTxMemPool.empty.addUnchecked crypto (spendingMwebTx 1 (1, 0))

theorem spendingPool_consistent : spendingPool.Consistent crypto :=
  addUnchecked_consistent consistent_empty rfl fun _ _ => rfl

/-- With its kernel in the block, the transaction leaves the pool. -/
theorem spendingPool_cleaned :
    spendingPool.Consistent crypto ∧
      ∀ tx ∈ (spendingPool.removeForBlock crypto (spendingExtension 1 (1, 0))).txs,
        ∀ input ∈ tx.getInputs, ¬ BlockSpends (spendingExtension 1 (1, 0)) input := by
  refine ⟨spendingPool_consistent,
    (removeForBlock_no_conflict_iff spendingPool_consistent _).mpr fun tx present _ => ?_⟩
  obtain rfl : tx = spendingMwebTx 1 (1, 0) :=
    by simpa [spendingPool, addUnchecked, txs, empty] using present
  exact .inl (by decide +kernel)

/-- With another kernel in the block, it stays, although the block has spent its only
input. -/
theorem spendingPool_keeps_conflict :
    spendingPool.Consistent crypto ∧
      spendingMwebTx 1 (1, 0) ∈
        (spendingPool.removeForBlock crypto (spendingExtension 2 (2, 0))).txs ∧
      (spendingMwebTx 1 (1, 0)).getInputs = [.inr (crypto.hashOutput keptOutput)] ∧
      BlockSpends (spendingExtension 2 (2, 0)) (.inr (crypto.hashOutput keptOutput)) :=
  ⟨spendingPool_consistent, by decide +kernel, rfl, .inr ⟨_, List.mem_singleton_self _, rfl⟩⟩

end MooncoinFormal.Primitives.Numeric
