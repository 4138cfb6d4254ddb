import MooncoinFormal.Validation.BlockTree
import MooncoinFormal.Validation.FlaggedRuns

/-!
# A view of another chain

`ActivateArbitraryChain` of `validation.cpp` takes a view of the tip to any stored
block: it disconnects down to the fork and connects up from there. It calls
`ConnectBlock` with `fJustCheck`, which applies the block to the coins but leaves the
best block of the view where it was. The next call then finds a view that is not at
the block before and fails its assertion.
-/

namespace MooncoinFormal.Validation

open Primitives Coins Library.Checks List Connection

variable {T : CryptoTypes}

variable {undo : Option (CBlockUndo T)}

namespace Connection

section Model

variable (connection : Connection T)

/-- `CheckBlock` without proof of work and Merkle root; a mutated block stops the node. -/
def recheckBody (block : CBlock T) : Checked Unit :=
  match (do
    checkTxs connection.crypto connection.params block
    checkSigOps block
    Mweb.Node.checkBlock block) with
  | .ok _ => .ok ()
  | .error invalid =>
    if invalid.result = .mutated then
      .error ⟨.resultUnset,
        "Corrupt block found indicating potential hardware failure; shutting down", ""⟩
    else .error invalid

variable (view : CCoinsViewCache T)

/-- The part of `ConnectBlock` after the genesis block, up to where `fJustCheck` returns. -/
def checkFrom (block : CBlock T) : Checked (CCoinsViewCache T) := do
  ensure (connection.chain ≠ []) Mweb.assertionFailed
  connection.checkBIP30 view block
  let (_, progress) ← connection.connectTxs ⟨view, 0, 0⟩ block.vtx
  connection.checkReward block progress.nFees
  let (_, mwebView) ← Mweb.Node.connectBlock connection.crypto connection.params connection.chain
    block progress.view.base.mwebView progress.view.mwebView
  .ok { progress.view with mwebView := mwebView }

/-- `ConnectBlock` with `fJustCheck`. -/
def justCheckBlock (block : CBlock T) : Checked (CCoinsViewCache T) := do
  connection.recheckBody block
  ensure (connection.hashPrevBlock = view.hashBlock) Mweb.assertionFailed
  if block.getHash connection.crypto = connection.params.hashGenesisBlock then .ok view
  else connection.checkFrom view block

end Model

variable {connection : Connection T} {view view' : CCoinsViewCache T} {block : CBlock T}

theorem recheckBody_eq_ok (checked : CheckedBlock connection.crypto connection.params block) :
    connection.recheckBody block = .ok () := by
  have passes := checkBlock_eq_ok.mpr checked
  simp only [checkBlock, bind_eq_ok] at passes
  obtain ⟨⟨⟩, -, ⟨⟩, txs, ⟨⟩, sigOps, mweb⟩ := passes
  simp only [recheckBody, txs, sigOps, mweb, bind, Except.bind]

theorem justCheckBlock_eq (connected : connection.connectBlock view block = .ok (undo, view')) :
    connection.justCheckBlock view block = .ok { view' with hashBlock := view.hashBlock } := by
  obtain ⟨checked, tip, ⟨genesis, -, rfl⟩ | ⟨regular, done, -, from_⟩⟩ :=
    connectBlock_cases connected
  · simp only [justCheckBlock, recheckBody_eq_ok checked, ensure_of tip, if_pos genesis, bind,
      Except.bind]
  · obtain ⟨vtxundo, progress, mwundo, mwebView, parts, -, rfl⟩ := connectFrom_eq_ok.mp from_
    have best : progress.view.hashBlock = view.hashBlock :=
      (connectTxs_frame checked.plain parts.txs).1.hashBlock
    rw [← best]
    simp only [justCheckBlock, recheckBody_eq_ok checked, ensure_of tip, if_neg regular, checkFrom,
      ensure_of parts.chain, parts.bip30, parts.txs, parts.reward, parts.mweb, bind, Except.bind]

theorem justCheckBlock_assertion (checked : CheckedBlock connection.crypto connection.params block)
    (elsewhere : connection.hashPrevBlock ≠ view.hashBlock) :
    connection.justCheckBlock view block = .error Mweb.assertionFailed := by
  simp only [justCheckBlock, recheckBody_eq_ok checked, ensure, if_neg elsewhere, bind, Except.bind]

end Connection

/-- What the disk has for an entry of the block index: the block and its undo data, with
what is known of the entry when it is connected. -/
structure StoredBlock (T : CryptoTypes) where
  connection : Connection T
  block : CBlock T
  undo : Option (CBlockUndo T)

def StoredBlock.hash (stored : StoredBlock T) :
    T.Hash := stored.block.getHash stored.connection.crypto

/-- How `ActivateArbitraryChain` fails. -/
inductive ActivateError where
  | noFork
  | readFailed
  | disconnectFailed
  | connectFailed (invalid : Invalid)

section Model

variable (disk : T.Hash → Option (StoredBlock T))

/-- The loop that disconnects, over the entries above the fork. -/
def disconnectAll : List T.Hash → CCoinsViewCache T → Except ActivateError (CCoinsViewCache T)
  | [], view => .ok view
  | hash :: rest, view =>
    match disk hash with
    | none => .error .readFailed
    | some stored =>
      match stored.connection.disconnectBlock view stored.block stored.undo with
      | .ok (true, view) => disconnectAll rest view
      | _ => .error .disconnectFailed

/-- The loop that connects, from the fork upwards. -/
def justCheckAll : List T.Hash → CCoinsViewCache T → Except ActivateError (CCoinsViewCache T)
  | [], view => .ok view
  | hash :: rest, view =>
    match disk hash with
    | none => .error .readFailed
    | some stored =>
      match stored.connection.justCheckBlock view stored.block with
      | .ok view => justCheckAll rest view
      | .error invalid => .error (.connectFailed invalid)

/-- The entries of a chain above an ancestor, the latest first. -/
def entriesAbove (fork entry : IndexEntry T.Hash) : List T.Hash :=
  entry.take (entry.length - fork.length)

/-- `ActivateArbitraryChain`, which reads through a null pointer when there is no fork. -/
def activateArbitraryChain (state : ChainState T.Hash) (pindex : IndexEntry T.Hash)
    (view : CCoinsViewCache T) : Except ActivateError (CCoinsViewCache T) :=
  match state.findFork pindex with
  | [] => .error .noFork
  | fork => do
      let view ← disconnectAll disk (entriesAbove fork state.tip) view
      justCheckAll disk (entriesAbove fork pindex).reverse view

end Model

/-! ## Valid branches -/

/-- The stored blocks connect one after another, as they would on the active chain. -/
inductive Connects (disk : T.Hash → Option (StoredBlock T)) :
    CCoinsViewCache T → List T.Hash → CCoinsViewCache T → Prop where
  | nil (view : CCoinsViewCache T) : Connects disk view [] view
  | cons {view after final : CCoinsViewCache T} {hash : T.Hash} {rest : List T.Hash}
      {stored : StoredBlock T} {undo : Option (CBlockUndo T)} (found : disk hash = some stored)
      (named : stored.hash = hash)
      (connected : stored.connection.connectBlock view stored.block = .ok (undo, after))
      (later : Connects disk after rest final) : Connects disk view (hash :: rest) final

variable {disk : T.Hash → Option (StoredBlock T)} {view forkView final : CCoinsViewCache T}

theorem hashBlock_of_connectBlock {connection : Connection T} {block : CBlock T}
    {after : CCoinsViewCache T}
    (connected : connection.connectBlock view block = .ok (undo, after)) :
    connection.hashPrevBlock = view.hashBlock ∧
      after.hashBlock = block.getHash connection.crypto := by
  obtain ⟨-, tip, result⟩ := connectBlock_cases connected
  refine ⟨tip, ?_⟩
  obtain ⟨-, -, rfl⟩ | ⟨-, done, -, from_⟩ := result
  · rfl
  · obtain ⟨_, _, _, _, _, -, rfl⟩ := connectFrom_eq_ok.mp from_
    rfl

theorem justCheckAll_single {hash : T.Hash} (valid : Connects disk view [hash] final) :
    justCheckAll disk [hash] view = .ok { final with hashBlock := view.hashBlock } := by
  cases valid with
  | cons found _ connected later =>
    cases later
    simp only [justCheckAll, found, justCheckBlock_eq connected]

theorem justCheckAll_assertion {first second : T.Hash} {rest : List T.Hash}
    (valid : Connects disk view (first :: second :: rest) final) (moved : first ≠ view.hashBlock) :
    justCheckAll disk (first :: second :: rest) view =
      .error (.connectFailed Mweb.assertionFailed) := by
  cases valid with
  | @cons _ after _ _ _ stored _ found named connected later =>
    cases later with
    | @cons _ _ _ _ _ stored' _ found' _ connected' _ =>
      have reached := (hashBlock_of_connectBlock connected).2
      have expected := (hashBlock_of_connectBlock connected').1
      have elsewhere : stored'.connection.hashPrevBlock ≠ view.hashBlock := by
        rw [expected, reached]
        exact fun same => moved (named.symm.trans same)
      have checked := (connectBlock_cases connected').1
      simp only [justCheckAll, found, justCheckBlock_eq connected, found']
      rw [justCheckBlock_assertion checked]
      exact elsewhere

theorem justCheckAll_eq_final_iff {branch : List T.Hash} (valid : Connects disk view branch final)
    (moved : ∀ hash ∈ branch, hash ≠ view.hashBlock) :
    justCheckAll disk branch view = .ok final ↔ branch = [] := by
  cases branch with
  | nil =>
    cases valid
    exact iff_of_true rfl rfl
  | cons first rest =>
    refine iff_of_false ?_ (cons_ne_nil _ _)
    cases rest with
    | cons second rest =>
      rw [justCheckAll_assertion valid (moved first mem_cons_self)]
      exact nofun
    | nil =>
      rw [justCheckAll_single valid, Except.ok.injEq]
      intro same
      -- The block is connected, and the view still names the fork.
      cases valid with
      | cons found named connected later =>
        cases later
        have reached := (hashBlock_of_connectBlock connected).2
        refine moved first mem_cons_self ?_
        rw [← named]
        exact reached.symm.trans (congrArg CCoinsViewCache.hashBlock same).symm

theorem entriesAbove_append {fork entry : IndexEntry T.Hash} (above : fork <:+ entry) :
    entriesAbove fork entry ++ fork = entry := by
  obtain ⟨-, rfl⟩ := above
  rw [entriesAbove, length_append, Nat.add_sub_cancel, take_left]

/-- For a valid branch, the call gives the view after its last block exactly when that
block is on the active chain already. -/
theorem activateArbitraryChain_eq_final_iff {state : ChainState T.Hash}
    {pindex : IndexEntry T.Hash} (distinct : pindex.Nodup)
    (disconnected : disconnectAll disk (entriesAbove (state.findFork pindex) state.tip) view =
      .ok forkView) (atFork : (state.findFork pindex).head? = some forkView.hashBlock)
    (valid : Connects disk forkView (entriesAbove (state.findFork pindex) pindex).reverse final) :
    activateArbitraryChain disk state pindex view = .ok final ↔ pindex <:+ state.tip := by
  obtain ⟨below, inside, greatest⟩ := ChainState.findFork_spec state pindex
  have split := entriesAbove_append below
  have moved : ∀ hash ∈ (entriesAbove (state.findFork pindex) pindex).reverse,
      hash ≠ forkView.hashBlock := by
    intro hash listed same
    rw [← split] at distinct
    exact (nodup_append.mp distinct).2.2 hash (mem_reverse.mp listed) hash
      (same ▸ mem_of_mem_head? atFork) rfl
  have runs : activateArbitraryChain disk state pindex view =
      justCheckAll disk (entriesAbove (state.findFork pindex) pindex).reverse forkView := by
    rw [activateArbitraryChain]
    cases fork : state.findFork pindex with
    | nil =>
      rw [fork] at atFork
      cases atFork
    | cons first rest =>
      rw [fork] at disconnected
      simp only [disconnected, bind, Except.bind]
  rw [runs, justCheckAll_eq_final_iff valid moved, reverse_eq_nil_iff]
  constructor
  · intro none_
    rw [none_, nil_append] at split
    rwa [← split]
  · intro onChain
    have same := (greatest pindex suffix_rfl onChain).eq_of_length_le below.length_le
    rw [← same, entriesAbove, Nat.sub_self, take_zero]

end MooncoinFormal.Validation

namespace MooncoinFormal.Primitives.Numeric

open Coins Validation

/-! ## A branch of two blocks -/

/-- A block with its coinbase only, after the block of the given hash. -/
def blockAfter (hashPrevBlock : Nat) (coinbase : CTransaction types) : CBlock types :=
  { blockOf [coinbase] with
    header := { (blockOf [coinbase]).header with hashPrevBlock := hashPrevBlock } }

def branchFirst : CBlock types := blockAfter 0 coinbaseTx

def branchSecond : CBlock types :=
  blockAfter (branchFirst.getHash crypto) { coinbaseTx with nLockTime := 1 }

def firstConnection : Connection types := connectionAt 1 one_lt_height plainParams

def secondConnection : Connection types :=
  { firstConnection with
    chain := ⟨branchFirst.header, branchFirst.getHash crypto, (0 : Nat), 0, rfl⟩ :: genesis
    nHeight_lt := by decide }

/-- The first block follows the genesis block, the second one the first. -/
def branchDisk (hash : types.Hash) : Option (StoredBlock types) :=
  if hash = branchFirst.getHash crypto then some ⟨firstConnection, branchFirst, none⟩
  else if hash = branchSecond.getHash crypto then some ⟨secondConnection, branchSecond, none⟩
  else none

/-- A node at the genesis block. -/
def genesisState : ChainState types.Hash where
  tip := [(0 : Nat)]
  failedValid _ := false
  failedChild _ := false
  haveData _ := true
  candidates := []

def branchTip : IndexEntry types.Hash :=
  [branchSecond.getHash crypto, branchFirst.getHash crypto, (0 : Nat)]

def genesisView : CCoinsViewCache types := viewOf [] (fun _ untrue => nomatch untrue)

theorem branch_connects : ∃ final, Connects branchDisk genesisView
    (entriesAbove (genesisState.findFork branchTip) branchTip).reverse final := by
  have runs : (do
      let (_, after) ← firstConnection.connectBlock genesisView branchFirst
      secondConnection.connectBlock after branchSecond).isOk = true := by decide +kernel
  obtain ⟨⟨undo, final⟩, runs⟩ := Library.Checks.exists_of_isOk runs
  simp only [Library.Checks.bind_eq_ok, Prod.exists] at runs
  obtain ⟨undo', after, first, second⟩ := runs
  have found : branchDisk (branchSecond.getHash crypto) =
      some ⟨secondConnection, branchSecond, none⟩ := by
    rw [branchDisk, if_neg (by decide +kernel), if_pos rfl]
  exact ⟨final, .cons (if_pos rfl) rfl first (.cons found rfl second (.nil final))⟩

/-- The branch of two blocks is valid, and not on the active chain. -/
theorem branch_activated_iff : ∃ final,
    Connects branchDisk genesisView
        (entriesAbove (genesisState.findFork branchTip) branchTip).reverse final ∧
      (activateArbitraryChain branchDisk genesisState branchTip genesisView = .ok final ↔
        branchTip <:+ genesisState.tip) := by
  obtain ⟨final, valid⟩ := branch_connects
  exact ⟨final, valid, activateArbitraryChain_eq_final_iff (by decide +kernel) (by rfl)
    (by decide +kernel) valid⟩

/-- Connecting it ends with the failed assertion. -/
theorem branch_not_activated :
    (∃ final, Connects branchDisk genesisView
        (entriesAbove (genesisState.findFork branchTip) branchTip).reverse final) ∧
      activateArbitraryChain branchDisk genesisState branchTip genesisView =
        .error (.connectFailed Mweb.assertionFailed) := by
  refine ⟨branch_connects, ?_⟩
  have fails : (match activateArbitraryChain branchDisk genesisState branchTip genesisView with
      | .error (.connectFailed invalid) => decide (invalid = Mweb.assertionFailed)
      | _ => false) = true := by decide +kernel
  split at fails
  · next invalid result => rw [result, of_decide_eq_true fails]
  · cases fails

end MooncoinFormal.Primitives.Numeric
