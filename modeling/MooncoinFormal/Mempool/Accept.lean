import MooncoinFormal.Mempool.RemoveForBlock
import MooncoinFormal.Mweb.Aggregation
import MooncoinFormal.Validation.TxVerify

/-!
# Admission to the pool

`MemPoolAccept` of `validation.cpp` and `CCoinsViewMemPool` of `txmempool.cpp`: a
transaction is checked against the pool and the coins of the tip, what it replaces is
removed, and it is added.

The checks look at what a transaction spends, never at whether another transaction of
the pool creates the same MWEB output. `mapTxOutputs_MWEB` keeps the first creator of
an output and loses the output with the first creator that leaves.
-/

namespace MooncoinFormal.Mempool

open Primitives Coins Validation Library.Checks Mweb List

variable {T : CryptoTypes}

/-! ## Checks -/

/-- The loop over the outputs and the peg-ins of `MWEB::Node::CheckTransaction`, and
the validation of the attached transaction. -/
def checkMwebTransaction (crypto : BlockCrypto T) (tx : CTransaction T) : Except String Unit := do
  let txPegins : List (PegInCoin T) := outputPegins tx.vout
  let peginCoins := (tx.mwebTx.map fun mwebTx => mwebTx.body.getPegIns crypto.toCrypto).getD []
  ensure (txPegins.map PegInCoin.kernelID).Nodup "duplicate-tx-pegins"
  ensure (peginCoins.length = txPegins.length) "pegin-count-mismatch"
  ensure (∀ pegin ∈ peginCoins, pegin ∈ txPegins) "pegin-mismatch"
  ensure (∀ mwebTx ∈ tx.mwebTx, (mwebTx.validate crypto.toCrypto).isOk = true) "bad-mweb-txn"

/-- What admission reads besides the pool, and the checks that are not modelled. -/
structure ATMPArgs (T : CryptoTypes) where
  params : Params T
  chain : Chain T
  coinsTip : CCoinsViewCache T
  mempoolReplacement : Bool
  /-- `IsStandardTx`, the smallest size and `CheckFinalTx`. -/
  relayChecks : CTransaction T → Except String Unit
  /-- Sequence locks, the amounts of `CheckTxInputs`, standard inputs, fees, the limits
  of packages, the rules for replacements, and the scripts. -/
  laterChecks : CTxMemPool T → CTransaction T → Except String Unit

def maxBip125RbfSequence : UInt32 := 0xfffffffd

variable {allConflicting : List T.Hash} {tx : CTransaction T} {pool : CTxMemPool T}

namespace CTxMemPool

section Model

variable (crypto : BlockCrypto T) (pool : CTxMemPool T) (args : ATMPArgs T)

/-- `GetMWEBCoin` of the view of the tip with the pool on it. -/
def getMwebCoin (outputId : T.Hash) : Option (Output T) :=
  if Sum.inr outputId ∈ pool.mapNextTx then none
  else
    match pool.mapTxOutputsMweb.lookup outputId with
    | some tx => tx.mwebTx.bind fun mwebTx =>
      mwebTx.body.outputs.find? fun output => crypto.hashOutput output = outputId
    | none => args.coinsTip.getMwebCoin outputId

def haveCoin : OutputIndex T → Bool
  | .inl outpoint =>
    match pool.find crypto outpoint.hash with
    | some entry => entry.tx.vout[outpoint.n.toNat]?.any fun txout => !txout.isNull
    | none => args.coinsTip.haveCoin outpoint
  | .inr outputId =>
    if Sum.inr outputId ∈ pool.mapNextTx then false
    else
      match pool.mapTxOutputsMweb.lookup outputId with
      | some _ => true
      | none => (args.coinsTip.getMwebCoin outputId).isSome

/-- `HaveCoinInCache`: there are no MWEB outputs in that cache. -/
def haveCoinInCache : OutputIndex T → Bool
  | .inl outpoint => (args.coinsTip.cacheCoins outpoint).any fun entry => entry.coin.isSome
  | .inr _ => false

variable (tx : CTransaction T)

/-- The transaction of the pool can be replaced. -/
def replaceable : Bool :=
  args.mempoolReplacement && tx.vin.any fun txin => decide (txin.nSequence ≤ maxBip125RbfSequence)

/-- The loop that collects `setConflicts`. -/
def collectConflicts : List (OutputIndex T) → (setConflicts : List T.Hash) →
    Except String (List T.Hash)
  | [], setConflicts => .ok setConflicts
  | input :: rest, setConflicts =>
    match pool.mapNextTx.lookup input with
    | none => collectConflicts rest setConflicts
    | some txConflicting =>
      if txConflicting.getHash crypto ∈ setConflicts then collectConflicts rest setConflicts
      else do
        ensure (replaceable args txConflicting = true) "txn-mempool-conflict"
        collectConflicts rest (setConflicts ++ [txConflicting.getHash crypto])

/-- One pass of the loop over the inputs; inputs may be missing because the transaction
is known already. -/
def checkInput (input : OutputIndex T) : Except String Unit :=
  if pool.haveCoin crypto args input then .ok ()
  else if (tx.getOutputs crypto).any (haveCoinInCache args) then .error "txn-already-known"
  else .error "bad-txns-inputs-missingorspent"

/-- The inputs of an attached transaction repeat the commitments and keys of their coins. -/
def checkMwebCoin (input : Input T) : Except String Unit :=
  match pool.getMwebCoin crypto args input.outputID with
  | none => .error "bad-txns-inputs-missing"
  | some output =>
    ensure (output.receiverPubKey = input.outputPubKey ∧ output.commitment = input.commitment)
      "bad-txns-input-mismatch"

/-- `PreChecks` and the script checks, with `allConflicting`. -/
def preChecks : Except String (List T.Hash) := do
  checkTransaction crypto args.params tx
  ensure (tx.hasMwebTx = true → args.params.mwebEnabled args.chain = true) "mweb-before-activation"
  checkMwebTransaction crypto tx
  ensure (tx.isCoinBase = false) "coinbase"
  ensure (tx.isHogEx = false) "hogex"
  args.relayChecks tx
  ensure ((pool.find crypto (tx.getHash crypto)).isNone = true) "txn-already-in-mempool"
  let setConflicts ← pool.collectConflicts crypto args tx.getInputs []
  ensureAll (pool.checkInput crypto args tx) tx.getInputs
  ensureAll (pool.checkMwebCoin crypto args)
    ((tx.mwebTx.map fun mwebTx => mwebTx.body.inputs).getD [])
  args.laterChecks pool tx
  .ok (setConflicts.foldl (pool.calculateDescendants crypto) [])

/-- `AcceptSingleTransaction`: what is replaced goes, and the transaction joins. -/
def acceptSingleTransaction : CTxMemPool T :=
  match pool.preChecks crypto args tx with
  | .error _ => pool
  | .ok allConflicting => (pool.removeStaged crypto allConflicting).addUnchecked crypto tx

end Model

/-- An admission, or the removal of some entries, for whatever reason. -/
inductive Event (T : CryptoTypes) where
  | accept (args : ATMPArgs T) (tx : CTransaction T)
  | remove (stage : List T.Hash)

variable (crypto : BlockCrypto T) (pool : CTxMemPool T)

def step : Event T → CTxMemPool T
  | .accept args tx => pool.acceptSingleTransaction crypto args tx
  | .remove stage => pool.removeStaged crypto stage

def run (events : List (Event T)) : CTxMemPool T := events.foldl (step crypto) pool

def OutputsSound : Prop :=
  ∀ id tx, pool.mapTxOutputsMweb.lookup id = some tx → tx ∈ pool.txs ∧ id ∈ tx.getOutputIDs crypto

/-- The map has an output ID exactly when a transaction of the pool creates that
output, and maps it to one that does. -/
structure OutputsExact : Prop where
  sound : pool.OutputsSound crypto
  complete : ∀ tx ∈ pool.txs, ∀ id ∈ tx.getOutputIDs crypto, id ∈ pool.mapTxOutputsMweb

/-- Every output of the pool has one creator, and the map has it. -/
def OutputsOwned : Prop :=
  ∀ id tx, pool.mapTxOutputsMweb.lookup id = some tx ↔
    tx ∈ pool.txs ∧ id ∈ tx.getOutputIDs crypto

/-- The transaction conflicts with the other one, or with one that the other descends
from. -/
def Replaces (tx other : CTransaction T) : Prop :=
  ∃ conflict ∈ pool.txs, (∃ input ∈ tx.getInputs, input ∈ conflict.getInputs) ∧
    pool.Descends crypto (conflict.getHash crypto) (other.getHash crypto)

/-- A transaction of the pool that creates an output of the new one is replaced by it. -/
def NewOutputs (tx : CTransaction T) : Prop :=
  ∀ other ∈ pool.txs, (∃ id ∈ tx.getOutputIDs crypto, id ∈ other.getOutputIDs crypto) →
    pool.Replaces crypto tx other

/-- Every transaction that the run admits brings new outputs. -/
def RunsWithNewOutputs : CTxMemPool T → List (Event T) → Prop
  | _, [] => True
  | pool, .remove stage :: rest => RunsWithNewOutputs (pool.removeStaged crypto stage) rest
  | pool, .accept args tx :: rest =>
    ((pool.preChecks crypto args tx).isOk = true → pool.NewOutputs crypto tx) ∧
      RunsWithNewOutputs (pool.acceptSingleTransaction crypto args tx) rest

variable {crypto : BlockCrypto T} {pool : CTxMemPool T}

theorem OutputsOwned.exact (owned : pool.OutputsOwned crypto) : pool.OutputsExact crypto where
  sound id tx := (owned id tx).mp
  complete tx present id created := by
    have held := (owned id tx).mpr ⟨present, created⟩
    exact AList.lookup_isSome.mp (by rw [held]; rfl)

/-! ## Removing -/

section

variable (consistent : pool.MapsConsistent crypto)
include consistent

theorem lookup_removeUnchecked {hash id : T.Hash} :
    (pool.removeUnchecked crypto hash).mapTxOutputsMweb.lookup id = some tx ↔
      pool.mapTxOutputsMweb.lookup id = some tx ∧
        ∀ other ∈ pool.txs, other.getHash crypto = hash → id ∉ other.getOutputIDs crypto := by
  rw [removeUnchecked]
  cases found : pool.find crypto hash with
  | none =>
    have missing := find_eq_none.mp found
    constructor
    · intro held
      exact ⟨held, fun other there same => absurd same (missing other there)⟩
    · exact And.left
  | some entry =>
    obtain ⟨member, rfl⟩ := (find_eq_some consistent).mp found
    have present : entry.tx ∈ pool.txs := mem_map_of_mem member
    rw [lookup_foldl_erase]
    by_cases created : id ∈ entry.tx.getOutputIDs crypto
    · rw [if_pos created]
      constructor
      · intro untrue
        cases untrue
      · rintro ⟨-, apart⟩
        exact absurd created (apart entry.tx present rfl)
    · rw [if_neg created]
      constructor
      · intro held
        refine ⟨held, fun other there same => ?_⟩
        rwa [consistent.hash_inj there present same]
      · exact And.left

variable (stage : List T.Hash)

theorem lookup_foldl_removeUnchecked {id : T.Hash} :
    (stage.foldl (removeUnchecked crypto) pool).mapTxOutputsMweb.lookup id = some tx ↔
      pool.mapTxOutputsMweb.lookup id = some tx ∧
        ∀ other ∈ pool.txs, other.getHash crypto ∈ stage → id ∉ other.getOutputIDs crypto := by
  induction stage generalizing pool with
  | nil => simp
  | cons hash rest ih =>
    obtain ⟨removed, left⟩ := removeUnchecked_maps consistent hash
    have mem_txs : ∀ other, other ∈ (pool.removeUnchecked crypto hash).txs ↔
        other ∈ pool.txs ∧ other.getHash crypto ≠ hash := by
      intro other
      rw [mem_txs_filter (· ≠ hash) left, decide_eq_true_eq]
    rw [foldl_cons, ih removed, lookup_removeUnchecked consistent, and_assoc]
    refine and_congr_right fun _ => ?_
    constructor
    · rintro ⟨first, later⟩ other there staged
      by_cases same : other.getHash crypto = hash
      · exact first other there same
      · exact later other ((mem_txs other).mpr ⟨there, same⟩)
          ((mem_cons.mp staged).resolve_left same)
    · intro apart
      refine ⟨fun other there same => apart other there (same ▸ mem_cons_self), ?_⟩
      intro other there staged
      exact apart other ((mem_txs other).mp there).1 (mem_cons_of_mem _ staged)

theorem lookup_removeStaged {id : T.Hash} :
    (pool.removeStaged crypto stage).mapTxOutputsMweb.lookup id = some tx ↔
      pool.mapTxOutputsMweb.lookup id = some tx ∧
        ∀ other ∈ pool.txs, other.getHash crypto ∈ stage → id ∉ other.getOutputIDs crypto := by
  have sameTxs := @txs_updateForRemoveFromMempool T crypto pool stage
  rw [removeStaged, lookup_foldl_removeUnchecked (consistent.congr sameTxs rfl), sameTxs]
  rfl

end

section

variable (owned : pool.OutputsOwned crypto) (consistent : pool.Consistent crypto)
include owned consistent

theorem OutputsOwned.removeStaged
    (stage : List T.Hash) : (pool.removeStaged crypto stage).OutputsOwned crypto := by
  intro id tx
  rw [lookup_removeStaged consistent.maps, (removeStaged_spec consistent stage).mem_txs, owned]
  constructor
  · rintro ⟨⟨present, created⟩, apart⟩
    exact ⟨⟨present, fun staged => apart tx present staged created⟩, created⟩
  · rintro ⟨⟨present, stays⟩, created⟩
    refine ⟨⟨present, created⟩, fun other there staged created' => ?_⟩
    -- The other creator is the transaction itself, which stays.
    have held := (owned id other).mpr ⟨there, created'⟩
    rw [(owned id tx).mpr ⟨present, created⟩, Option.some.injEq] at held
    exact stays (held ▸ staged)

omit consistent in
theorem OutputsOwned.addUnchecked
    (apart : ∀ other ∈ pool.txs, ∀ id ∈ tx.getOutputIDs crypto, id ∉ other.getOutputIDs crypto) :
    (pool.addUnchecked crypto tx).OutputsOwned crypto := by
  have absent : ∀ id ∈ tx.getOutputIDs crypto, pool.mapTxOutputsMweb.lookup id = none := by
    intro id created
    rw [Option.eq_none_iff_forall_ne_some]
    intro other held
    obtain ⟨there, created'⟩ := (owned id other).mp held
    exact apart other there id created created'
  intro id other
  rw [txs_addUnchecked, CTxMemPool.addUnchecked,
    lookup_foldl_insertNew tx _ _ fun id created => .inl (absent id created), mem_append,
    mem_singleton]
  by_cases created : id ∈ tx.getOutputIDs crypto
  · rw [if_pos created, Option.some.injEq]
    constructor
    · rintro rfl
      exact ⟨.inr rfl, created⟩
    · rintro ⟨there | rfl, created'⟩
      · exact absurd created' (apart other there id created)
      · rfl
  · rw [if_neg created, owned]
    constructor
    · rintro ⟨there, created'⟩
      exact ⟨.inl there, created'⟩
    · rintro ⟨there | rfl, created'⟩
      · exact ⟨there, created'⟩
      · exact absurd created' created

end

/-! ## What is replaced -/

variable {args : ATMPArgs T}

theorem mem_collectConflicts {inputs : List (OutputIndex T)} {setConflicts conflicts : List T.Hash}
    (collected : pool.collectConflicts crypto args inputs setConflicts = .ok conflicts)
    {hash : T.Hash} :
    hash ∈ conflicts ↔ hash ∈ setConflicts ∨
      ∃ input ∈ inputs, ∃ tx, pool.mapNextTx.lookup input = some tx ∧ tx.getHash crypto = hash := by
  induction inputs generalizing setConflicts with
  | nil =>
    cases collected
    simp
  | cons input rest ih =>
    rw [collectConflicts] at collected
    rw [exists_mem_cons_iff]
    cases spender : pool.mapNextTx.lookup input with
    | none =>
      rw [spender] at collected
      simpa using ih collected
    | some txConflicting =>
      rw [spender] at collected
      dsimp only at collected
      have here : (∃ tx, some txConflicting = some tx ∧ tx.getHash crypto = hash) ↔
          txConflicting.getHash crypto = hash := by simp
      rw [here]
      split at collected
      · rename_i known
        have listed : txConflicting.getHash crypto = hash → hash ∈ setConflicts := by
          rintro rfl
          exact known
        rw [ih collected, ← or_assoc, or_iff_left_of_imp listed]
      · simp only [bind_eq_ok, ensure_eq_ok] at collected
        obtain ⟨⟨⟩, -, collected⟩ := collected
        rw [ih collected, mem_append, mem_singleton, or_assoc, eq_comm]

theorem ClosedSet.foldl_calculateDescendants (consistent : pool.Consistent crypto)
    {setDescendants : List T.Hash} (set : ClosedSet crypto pool setDescendants)
    {roots : List T.Hash}
    (present : ∀ hash ∈ roots, hash ∈ pool.txs.map (CTransaction.getHash crypto)) :
    let collected := roots.foldl (pool.calculateDescendants crypto) setDescendants
    ClosedSet crypto pool collected ∧ ∀ {target}, target ∈ collected ↔
      target ∈ setDescendants ∨ ∃ hash ∈ roots, pool.Descends crypto hash target := by
  induction roots generalizing setDescendants with
  | nil => simp [set]
  | cons root rest ih =>
    obtain ⟨set', mem⟩ := set.calculateDescendants consistent (present root mem_cons_self)
    obtain ⟨closed, mem'⟩ := ih set' (forall_mem_cons.mp present).2
    refine ⟨closed, fun {target} => ?_⟩
    rw [foldl_cons, mem', mem, exists_mem_cons_iff, or_assoc]

theorem preChecks_eq_ok (consistent : pool.Consistent crypto)
    (passes : pool.preChecks crypto args tx = .ok allConflicting) :
    pool.find crypto (tx.getHash crypto) = none ∧
      ∀ other ∈ pool.txs, other.getHash crypto ∈ allConflicting ↔
        pool.Replaces crypto tx other := by
  simp only [preChecks, bind_eq_ok, ensure_eq_ok, Option.isNone_iff_eq_none] at passes
  obtain ⟨⟨⟩, -, ⟨⟩, -, ⟨⟩, -, ⟨⟩, -, ⟨⟩, -, ⟨⟩, -, ⟨⟩, new, setConflicts, collected, ⟨⟩, -, ⟨⟩, -,
    ⟨⟩, -, done⟩ := passes
  cases done
  have spenders : ∀ hash, hash ∈ setConflicts ↔
      ∃ conflict ∈ pool.txs, (∃ input ∈ tx.getInputs, input ∈ conflict.getInputs) ∧
        conflict.getHash crypto = hash := by
    intro hash
    rw [mem_collectConflicts collected]
    constructor
    · rintro (untrue | ⟨input, spent, conflict, held, same⟩)
      · cases untrue
      · obtain ⟨present, spends⟩ := (consistent.maps.next input conflict).mp held
        exact ⟨conflict, present, ⟨input, spent, spends⟩, same⟩
    · rintro ⟨conflict, present, ⟨input, spent, spends⟩, same⟩
      exact .inr ⟨input, spent, conflict,
        (consistent.maps.next input conflict).mpr ⟨present, spends⟩, same⟩
  refine ⟨new, fun other _ => ?_⟩
  rw [(closedSet_nil.foldl_calculateDescendants consistent ?_).2, Replaces]
  · constructor
    · rintro (untrue | ⟨hash, listed, path⟩)
      · cases untrue
      · obtain ⟨conflict, present, shared, rfl⟩ := (spenders hash).mp listed
        exact ⟨conflict, present, shared, path⟩
    · rintro ⟨conflict, present, shared, path⟩
      exact .inr ⟨_, (spenders _).mpr ⟨conflict, present, shared, rfl⟩, path⟩
  · intro hash listed
    obtain ⟨conflict, present, -, rfl⟩ := (spenders hash).mp listed
    exact mem_map_of_mem present

/-! ## Admissions -/

/-- The pool that an admitted transaction joins. -/
structure Cleared (crypto : BlockCrypto T) (pool pool' : CTxMemPool T)
    (tx : CTransaction T) : Prop where
  consistent : pool'.Consistent crypto
  mem_txs : ∀ other, other ∈ pool'.txs ↔ other ∈ pool.txs ∧ ¬ pool.Replaces crypto tx other
  new : pool'.find crypto (tx.getHash crypto) = none
  unspent : ∀ input ∈ tx.getInputs, pool'.mapNextTx.lookup input = none

section

variable (consistent : pool.Consistent crypto)
include consistent

theorem cleared_of_preChecks (passes : pool.preChecks crypto args tx = .ok allConflicting) :
    Cleared crypto pool (pool.removeStaged crypto allConflicting) tx := by
  obtain ⟨new, replaced⟩ := preChecks_eq_ok consistent passes
  have removed := removeStaged_spec consistent allConflicting
  have mem_txs : ∀ other, other ∈ (pool.removeStaged crypto allConflicting).txs ↔
      other ∈ pool.txs ∧ ¬ pool.Replaces crypto tx other := by
    intro other
    rw [removed.mem_txs]
    exact and_congr_right fun there => not_congr (replaced other there)
  refine ⟨removed.consistent, mem_txs, ?_, ?_⟩
  · rw [find_eq_none] at new ⊢
    intro other left
    exact new other ((mem_txs other).mp left).1
  · intro input spent
    rw [Option.eq_none_iff_forall_ne_some]
    intro other held
    obtain ⟨left, spends⟩ := (removed.consistent.maps.next input other).mp held
    obtain ⟨there, stays⟩ := (mem_txs other).mp left
    exact stays ⟨other, there, ⟨input, spent, spends⟩, .refl⟩

theorem acceptSingleTransaction_cases (args : ATMPArgs T) (tx : CTransaction T) :
    pool.acceptSingleTransaction crypto args tx = pool ∨
      ∃ stage, pool.preChecks crypto args tx = .ok stage ∧
        Cleared crypto pool (pool.removeStaged crypto stage) tx ∧
        pool.acceptSingleTransaction crypto args tx =
          (pool.removeStaged crypto stage).addUnchecked crypto tx := by
  rw [acceptSingleTransaction]
  cases passes : pool.preChecks crypto args tx with
  | error reason => exact .inl rfl
  | ok stage => exact .inr ⟨stage, rfl, cleared_of_preChecks consistent passes, rfl⟩

theorem step_consistent (event : Event T) : (pool.step crypto event).Consistent crypto := by
  cases event with
  | remove stage => exact (removeStaged_spec consistent stage).consistent
  | accept args tx =>
    show (pool.acceptSingleTransaction crypto args tx).Consistent crypto
    obtain rejected | ⟨stage, -, cleared, joins⟩ :=
      acceptSingleTransaction_cases consistent args tx
    · rwa [rejected]
    · rw [joins]
      exact addUnchecked_consistent cleared.consistent cleared.new cleared.unspent

end

section

variable (owned : pool.OutputsOwned crypto) (consistent : pool.Consistent crypto)
include owned consistent

/-- An admission with new outputs keeps one creator for each output. -/
theorem OutputsOwned.accept
    (fresh : (pool.preChecks crypto args tx).isOk = true → pool.NewOutputs crypto tx) :
    (pool.acceptSingleTransaction crypto args tx).OutputsOwned crypto := by
  obtain rejected | ⟨stage, passes, cleared, joins⟩ :=
    acceptSingleTransaction_cases consistent args tx
  · rwa [rejected]
  · rw [joins]
    refine (owned.removeStaged consistent stage).addUnchecked ?_
    intro other left id created created'
    obtain ⟨there, stays⟩ := (cleared.mem_txs other).mp left
    exact stays (fresh (by rw [passes]; rfl) other there ⟨id, created, created'⟩)

theorem outputsOwned_run {events : List (Event T)} (fresh : RunsWithNewOutputs crypto pool events) :
    (pool.run crypto events).OutputsOwned crypto := by
  induction events generalizing pool with
  | nil => exact owned
  | cons event rest ih =>
    have consistent' := step_consistent consistent event
    cases event with
    | remove stage => exact ih (owned.removeStaged consistent stage) consistent' fresh
    | accept args tx => exact ih (owned.accept consistent fresh.1) consistent' fresh.2

end

theorem outputsOwned_empty : (empty : CTxMemPool T).OutputsOwned crypto := by
  intro id tx
  simp [empty, txs]

/-- The map of MWEB outputs is exact in every run whose admissions bring new outputs. -/
theorem run_outputsExact {events : List (Event T)}
    (fresh : RunsWithNewOutputs crypto empty events) :
    ((empty : CTxMemPool T).run crypto events).OutputsExact crypto :=
  (outputsOwned_run outputsOwned_empty consistent_empty fresh).exact

theorem not_outputsExact_of_shared (consistent : pool.Consistent crypto)
    (passes : pool.preChecks crypto args tx = .ok allConflicting)
    (shared : ¬ pool.NewOutputs crypto tx) :
    ¬ (pool.run crypto [.accept args tx, .remove [tx.getHash crypto]]).OutputsExact crypto := by
  have cleared := cleared_of_preChecks consistent passes
  have joined := addUnchecked_consistent cleared.consistent cleared.new cleared.unspent
  simp only [NewOutputs, not_forall] at shared
  obtain ⟨other, there, ⟨id, created, created'⟩, stays⟩ := shared
  have left := (cleared.mem_txs other).mpr ⟨there, stays⟩
  have differs : other.getHash crypto ∉ [tx.getHash crypto] :=
    fun same => find_eq_none.mp cleared.new other left (mem_singleton.mp same)
  have after : pool.run crypto [.accept args tx, .remove [tx.getHash crypto]] =
      ((pool.removeStaged crypto allConflicting).addUnchecked crypto tx).removeStaged crypto
        [tx.getHash crypto] := by
    simp only [run, foldl_cons, foldl_nil, step, acceptSingleTransaction, passes]
  rw [after]
  intro exact
  have present := ((removeStaged_spec joined [tx.getHash crypto]).mem_txs other).mpr
    ⟨by rw [txs_addUnchecked]; exact mem_append_left _ left, differs⟩
  obtain ⟨owner, held⟩ := Option.isSome_iff_exists.mp
    (AList.lookup_isSome.mpr (exact.complete other present id created'))
  have apart := ((lookup_removeStaged joined.maps [tx.getHash crypto]).mp held).2
  exact apart tx (by simp [txs_addUnchecked]) (mem_singleton_self _) created

theorem lookup_foldl_insertNew_cases {Key Value : Type} [DecidableEq Key] {value held : Value}
    {keys : List Key} {map : AList fun _ : Key => Value} {key : Key}
    (found : (keys.foldl (insertNew value) map).lookup key = some held) :
    map.lookup key = some held ∨ (held = value ∧ key ∈ keys) := by
  induction keys generalizing map with
  | nil => exact .inl found
  | cons first rest ih =>
    obtain old | ⟨same, later⟩ := ih found
    · rw [insertNew] at old
      split at old
      · exact .inl old
      · by_cases here : key = first
        · subst here
          rw [AList.lookup_insert, Option.some.injEq] at old
          exact .inr ⟨old.symm, mem_cons_self⟩
        · rw [AList.lookup_insert_ne here] at old
          exact .inl old
    · exact .inr ⟨same, mem_cons_of_mem _ later⟩

section

variable (sound : pool.OutputsSound crypto) (consistent : pool.Consistent crypto)
include sound consistent

theorem OutputsSound.removeStaged
    (stage : List T.Hash) : (pool.removeStaged crypto stage).OutputsSound crypto := by
  intro id tx held
  obtain ⟨held, apart⟩ := (lookup_removeStaged consistent.maps stage).mp held
  obtain ⟨present, created⟩ := sound id tx held
  refine ⟨((removeStaged_spec consistent stage).mem_txs tx).mpr ⟨present, ?_⟩, created⟩
  exact fun staged => apart tx present staged created

omit consistent in
theorem OutputsSound.addUnchecked : (pool.addUnchecked crypto tx).OutputsSound crypto := by
  intro id other held
  rw [txs_addUnchecked, mem_append, mem_singleton]
  obtain old | ⟨same, created⟩ := lookup_foldl_insertNew_cases held
  · obtain ⟨present, created⟩ := sound id other old
    exact ⟨.inl present, created⟩
  · exact ⟨.inr same, same ▸ created⟩

end

/-- In any run, the maps and links of the pool agree with its transactions, so that no two of
them spend the same output, and the map of outputs names creators in the pool, as the
assertion in `CCoinsViewMemPool::HaveCoin` demands. -/
theorem outputsSound_run (events : List (Event T)) :
    ((empty : CTxMemPool T).run crypto events).Consistent crypto ∧
      ((empty : CTxMemPool T).run crypto events).OutputsSound crypto := by
  induction events using reverseRecOn with
  | nil => exact ⟨consistent_empty, nofun⟩
  | append_singleton events event ih =>
    obtain ⟨consistent, sound⟩ := ih
    rw [run, foldl_append]
    refine ⟨step_consistent consistent event, ?_⟩
    cases event with
    | remove stage => exact sound.removeStaged consistent stage
    | accept args tx =>
      show (acceptSingleTransaction crypto (run crypto empty events) args tx).OutputsSound crypto
      obtain rejected | ⟨stage, -, cleared, joins⟩ :=
        acceptSingleTransaction_cases consistent args tx
      · rwa [rejected]
      · rw [joins]
        exact (sound.removeStaged consistent stage).addUnchecked

end CTxMemPool

end MooncoinFormal.Mempool

namespace MooncoinFormal.Primitives.Numeric

open Mweb Mempool CTxMemPool

def soldOutput : Output types := plainOutput (6, 20) (3, 0) (7, 0)

def sharedOutput : Output types := plainOutput (9, 19) (8, 0) (1, 0)

/-- A transaction of the extension block that spends an output of 20 and creates the
shared output of 19. -/
def payingTx (output : Output types) (excess : Int × Int) (stealthOffset : Int) :
    CTransaction types where
  vin := []
  vout := []
  nVersion := 2
  nLockTime := 0
  mwebTx := some
    { kernelOffset := (0 : Int)
      stealthOffset := stealthOffset
      body := ⟨[spendOutput output], [sharedOutput], [feeKernel 1 excess]⟩ }
  hogEx := false

def payingFromKept : CTransaction types := payingTx keptOutput (4, 0) 4

def payingFromSold : CTransaction types := payingTx soldOutput (3, 0) 1

/-- The tip after the extension block has the two outputs that are spent. -/
def payingArgs : ATMPArgs types where
  params := params
  chain := genesis
  coinsTip :=
    { base :=
        { getCoin := fun _ => none
          mwebView := .db { CoinsViewDB.empty types with
            coins := fun id =>
              if id = crypto.hashOutput keptOutput then some ⟨1, 0, keptOutput⟩
              else if id = crypto.hashOutput soldOutput then some ⟨1, 1, soldOutput⟩
              else none }
          valid := fun _ _ untrue => nomatch untrue }
      cacheCoins := fun _ => none
      hashBlock := (0 : Nat)
      mwebView := emptyCache }
  mempoolReplacement := false
  relayChecks := fun _ => .ok ()
  laterChecks := fun _ _ => .ok ()

/-- A single creator comes and goes. -/
theorem payingFromKept_outputsExact :
    ((empty : CTxMemPool types).run crypto
      [.accept payingArgs payingFromKept]).OutputsExact crypto ∧
      ((empty : CTxMemPool types).run crypto [.accept payingArgs payingFromKept]).txs =
        [payingFromKept] :=
  ⟨run_outputsExact ⟨(fun _ _ untrue => nomatch untrue), trivial⟩, by decide +kernel⟩

/-- Both transactions are admitted. When one leaves, the other is still in the pool, and
its output is not in the map. -/
theorem payingFromSold_output_lost :
    ((empty : CTxMemPool types).run crypto
        [.accept payingArgs payingFromKept, .accept payingArgs payingFromSold]).txs =
          [payingFromKept, payingFromSold] ∧
      ¬ ((empty : CTxMemPool types).run crypto
        [.accept payingArgs payingFromKept, .accept payingArgs payingFromSold,
          .remove [payingFromKept.getHash crypto]]).OutputsExact crypto := by
  refine ⟨by decide +kernel, fun exact => ?_⟩
  have left : payingFromSold ∈ ((empty : CTxMemPool types).run crypto
      [.accept payingArgs payingFromKept, .accept payingArgs payingFromSold,
        .remove [payingFromKept.getHash crypto]]).txs := by decide +kernel
  have held := exact.complete _ left (crypto.hashOutput sharedOutput) (by decide +kernel)
  exact absurd held (by decide +kernel)

end MooncoinFormal.Primitives.Numeric
