import MooncoinFormal.Mweb.Aggregation
import MooncoinFormal.Mweb.BodyBinding

/-!
# Building an extension block

`BlockBuilder` stages transactions one by one and `BuildNextBlock` makes a block of their aggregate
on the coins of the tip. A transaction is staged after checks of its weight, its peg-ins, and the
presence of its inputs and absence of its outputs; that it fails its own validation is only logged,
and whether another staged transaction spends the same output is not asked. Where every transaction
that is offered is valid and shares no input and no kernel with a staged one, and no sum over the
staged transactions is infinity, the block is valid and applies to the coins it was built on.
-/

namespace MooncoinFormal.Mweb

open Primitives Library.Checks Mmr Transaction List Weight CoinsViewCache ICoinsView Option

variable {T : CryptoTypes} (crypto : Crypto T)

def CoinsViewCache.buildNextBlock (base : ICoinsView T) (top : CoinsViewCache T) (height : Nat)
    (transactions : List (Transaction T)) : MwResult (Block T) := do
  let transaction := aggregate crypto transactions
  let kernelRoot ← orAssert (Mweb.kernelRoot crypto transaction.body.kernels)
  let added ← addOutputs crypto base (Int32.ofNat height) top transaction.body.outputs
  let (_, spent) ← spendInputs base added transaction.body.getSpentIDs
  let view := cache base spent
  let numTXOs ← orAssert view.getOutputPMMR.getNextLeafIdx
  let outputRoot ← orAssert (view.getOutputPMMR.root crypto.outputMmr T.zeroHash)
  let kernelOffset :=
    match view.getBestHeader with
    | none => transaction.kernelOffset
    | some best => addBlindingFactors [best.kernelOffset, transaction.kernelOffset]
  .ok {
    header := {
      height := Int32.ofNat height
      outputRoot := outputRoot
      kernelRoot := kernelRoot
      leafsetRoot := view.leafsetRoot crypto
      kernelOffset := kernelOffset
      stealthOffset := transaction.stealthOffset
      numTXOs := numTXOs
      numKernels := transaction.body.kernels.length }
    body := transaction.body }

/-! ## The builder -/

structure BlockBuilder (T : CryptoTypes) where
  height : Nat
  weight : Nat
  coinsView : ICoinsView T
  stagedTxs : List (Transaction T)
  stagedOutputs : List T.Hash

variable (builder : BlockBuilder T)

namespace BlockBuilder

/-- The constructor: nothing is staged, on a cache over the view. -/
def create (height : Nat) (coinsView : ICoinsView T) : Option (BlockBuilder T) := do
  let top ← coinsView.newCache
  some ⟨height, 0, .cache coinsView top, [], []⟩

def hasCoin (outputId : T.Hash) : MwResult Bool := do
  let utxo ← builder.coinsView.getUTXO outputId
  .ok utxo.isSome

/-- The checks of the peg-ins that are handed over with the transaction. -/
def peginsMatch (transaction : Transaction T) (pegins : List (PegInCoin T)) : Bool :=
  decide (transaction.body.getPegInAmount = accumulate (pegins.map PegInCoin.amount)) &&
    decide (pegins.map PegInCoin.kernelID).Nodup &&
    decide ((transaction.body.getPegIns crypto).length = pegins.length) &&
    (transaction.body.getPegIns crypto).all fun pegin =>
      decide (pegin.kernelID ∈ pegins.map PegInCoin.kernelID)

/-- Every input is on chain or an output that is staged. -/
def inputsAvailable (builder : BlockBuilder T) : List T.Hash → MwResult Bool
  | [] => .ok true
  | outputId :: rest => do
      let onChain ← builder.hasCoin outputId
      if onChain = false ∧ outputId ∉ builder.stagedOutputs then .ok false
      else builder.inputsAvailable rest

/-- No output is on chain or staged. -/
def outputsNew (builder : BlockBuilder T) : List T.Hash → MwResult Bool
  | [] => .ok true
  | outputId :: rest => do
      let onChain ← builder.hasCoin outputId
      if onChain = true ∨ outputId ∈ builder.stagedOutputs then .ok false
      else builder.outputsNew rest

/-- The outputs are inserted one by one, each of them new. -/
def stageOutputs : (staged outputIds : List T.Hash) → MwResult (List T.Hash)
  | staged, [] => .ok staged
  | staged, outputId :: rest => do
      ensure (outputId ∉ staged) .assertion
      stageOutputs (outputId :: staged) rest

/-- `AddTransaction`: the builder with the transaction, or nothing when it is refused. The source
also calls `Validate`, and goes on when it throws. -/
def addTransaction (transaction : Transaction T) (pegins : List (PegInCoin T)) :
    MwResult (Option (BlockBuilder T)) :=
  let weight := calculate transaction.body
  if maxBlockWeight < weight + builder.weight then .ok none
  else if peginsMatch crypto transaction pegins = false then .ok none
  else do
    let available ← builder.inputsAvailable transaction.body.getSpentIDs
    if available = false then .ok none
    else do
      let new ← builder.outputsNew (transaction.body.getOutputIDs crypto)
      if new = false then .ok none
      else do
        let stagedOutputs ← stageOutputs builder.stagedOutputs
          (transaction.body.getOutputIDs crypto)
        .ok (some { builder with
          weight := builder.weight + weight
          stagedTxs := builder.stagedTxs ++ [transaction]
          stagedOutputs := stagedOutputs })

/-- The calls of `AddTransaction`, each accepted or refused. -/
def addTransactions : BlockBuilder T → List (Transaction T × List (PegInCoin T)) →
    MwResult (BlockBuilder T)
  | builder, [] => .ok builder
  | builder, (transaction, pegins) :: rest => do
      let added ← builder.addTransaction crypto transaction pegins
      (added.getD builder).addTransactions rest

def buildBlock : MwResult (Block T) := do
  let top ← orAssert builder.coinsView.newCache
  top.buildNextBlock crypto builder.coinsView builder.height builder.stagedTxs

/-! ## What is staged -/

variable {crypto} {builder : BlockBuilder T} {state : ViewState crypto}
  {transaction : Transaction T} {pegins : List (PegInCoin T)}

section

variable (view : Represents crypto builder.coinsView state)
include view

theorem hasCoin_eq (outputId : T.Hash) :
    builder.hasCoin outputId = .ok (state.set.coins outputId).isSome := by
  rw [hasCoin, view.coins outputId]
  rfl

theorem inputsAvailable_spec (ids : List T.Hash) :
    ∃ available, builder.inputsAvailable ids = .ok available ∧ (available = true →
      ∀ id ∈ ids, state.set.coins id ≠ none ∨ id ∈ builder.stagedOutputs) := by
  induction ids with
  | nil => exact ⟨true, rfl, by simp⟩
  | cons outputId rest ih =>
    obtain ⟨available, read, later⟩ := ih
    simp only [inputsAvailable, hasCoin_eq view]
    by_cases missing : (state.set.coins outputId).isSome = false ∧ outputId ∉ builder.stagedOutputs
    · exact ⟨false, if_pos missing, by simp⟩
    · refine ⟨available, (if_neg missing).trans read, fun found => ?_⟩
      refine forall_mem_cons.mpr ⟨?_, later found⟩
      by_contra neither
      rw [not_or, not_not] at neither
      exact missing ⟨by rw [neither.1]; rfl, neither.2⟩

theorem outputsNew_spec (ids : List T.Hash) :
    ∃ new, builder.outputsNew ids = .ok new ∧ (new = true →
      ∀ id ∈ ids, state.set.coins id = none ∧ id ∉ builder.stagedOutputs) := by
  induction ids with
  | nil => exact ⟨true, rfl, by simp⟩
  | cons outputId rest ih =>
    obtain ⟨new, read, later⟩ := ih
    simp only [outputsNew, hasCoin_eq view]
    by_cases known : (state.set.coins outputId).isSome = true ∨ outputId ∈ builder.stagedOutputs
    · exact ⟨false, if_pos known, by simp⟩
    · refine ⟨new, (if_neg known).trans read, fun fresh => ?_⟩
      rw [not_or, Bool.not_eq_true, isSome_eq_false_iff, isNone_iff_eq_none] at known
      exact forall_mem_cons.mpr ⟨known, later fresh⟩

end

theorem stageOutputs_of_new {staged ids : List T.Hash} (nodup : ids.Nodup)
    (new : ∀ id ∈ ids, id ∉ staged) :
    ∃ after, stageOutputs staged ids = .ok after ∧ ∀ id, id ∈ after ↔ id ∈ staged ∨ id ∈ ids := by
  induction ids generalizing staged with
  | nil => exact ⟨staged, rfl, by simp⟩
  | cons outputId rest ih =>
    rw [nodup_cons] at nodup
    have later : ∀ id ∈ rest, id ∉ outputId :: staged := by
      intro id member inside
      rcases mem_cons.mp inside with rfl | before
      · exact nodup.1 member
      · exact new id (mem_cons_of_mem _ member) before
    obtain ⟨after, staged_rest, members⟩ := ih nodup.2 later
    refine ⟨after, ?_, fun id => ?_⟩
    · rw [stageOutputs, ensure_of (new outputId mem_cons_self)]
      exact staged_rest
    · rw [members, mem_cons, mem_cons]
      tauto

variable (crypto) in
/-- What a transaction adds to the builder that accepts it. -/
structure Stages (state : ViewState crypto) (builder : BlockBuilder T) (transaction : Transaction T)
    (pegins : List (PegInCoin T)) (builder' : BlockBuilder T) : Prop where
  light : calculate transaction.body + builder.weight ≤ maxBlockWeight
  pegins : peginsMatch crypto transaction pegins = true
  inputs : ∀ id ∈ transaction.body.getSpentIDs,
    state.set.coins id ≠ none ∨ id ∈ builder.stagedOutputs
  outputs : ∀ id ∈ transaction.body.getOutputIDs crypto,
    state.set.coins id = none ∧ id ∉ builder.stagedOutputs
  height : builder'.height = builder.height
  weight : builder'.weight = builder.weight + calculate transaction.body
  coinsView : builder'.coinsView = builder.coinsView
  stagedTxs : builder'.stagedTxs = builder.stagedTxs ++ [transaction]
  stagedOutputs : ∀ id, id ∈ builder'.stagedOutputs ↔
    id ∈ builder.stagedOutputs ∨ id ∈ transaction.body.getOutputIDs crypto

/-- A transaction whose outputs are different is staged or refused, without a failed assertion. -/
theorem addTransaction_spec (view : Represents crypto builder.coinsView state)
    (nodup : (transaction.body.getOutputIDs crypto).Nodup) :
    ∃ added, builder.addTransaction crypto transaction pegins = .ok added ∧
      ∀ builder', added = some builder' →
        Stages crypto state builder transaction pegins builder' := by
  obtain ⟨available, readInputs, inputs⟩ := inputsAvailable_spec view transaction.body.getSpentIDs
  obtain ⟨new, readOutputs, outputs⟩ :=
    outputsNew_spec view (transaction.body.getOutputIDs crypto)
  have refused : ∀ builder', (none : Option (BlockBuilder T)) = some builder' →
      Stages crypto state builder transaction pegins builder' := by
    intro builder' absurd
    cases absurd
  unfold addTransaction
  simp only [readInputs, readOutputs]
  by_cases heavy : maxBlockWeight < calculate transaction.body + builder.weight
  · exact ⟨none, if_pos heavy, refused⟩
  rw [if_neg heavy]
  by_cases unmatched : peginsMatch crypto transaction pegins = false
  · exact ⟨none, if_pos unmatched, refused⟩
  rw [if_neg unmatched]
  cases available with
  | false => exact ⟨none, rfl, refused⟩
  | true =>
    cases new with
    | false => exact ⟨none, rfl, refused⟩
    | true =>
      have fresh := outputs rfl
      obtain ⟨after, staged, members⟩ :=
        stageOutputs_of_new nodup fun id member => (fresh id member).2
      refine ⟨some _, by rw [staged]; rfl, ?_⟩
      intro builder' same
      cases same
      exact ⟨not_lt.mp heavy, Bool.eq_true_of_not_eq_false unmatched, inputs rfl, fresh,
        rfl, rfl, rfl, rfl, members⟩

/-! ## Sound calls -/

variable (crypto) in
/-- What `AddTransaction` does not ask: the transaction is valid, it shares no input and no kernel
with a staged one, and the inputs stay within their number. -/
structure Sound (builder : BlockBuilder T) (transaction : Transaction T) : Prop where
  valid : transaction.validate crypto = .ok ()
  spent : ∀ id ∈ transaction.body.getSpentIDs, id ∉ (join builder.stagedTxs).body.getSpentIDs
  kernels : ∀ id ∈ transaction.body.getKernelIDs crypto,
    id ∉ (join builder.stagedTxs).body.getKernelIDs crypto
  numInputs : (join builder.stagedTxs).body.inputs.length + transaction.body.inputs.length ≤
    maxNumInputs

variable (crypto) in
/-- Every call offers a sound transaction to the builder as it is then. -/
def SoundCalls : BlockBuilder T → List (Transaction T × List (PegInCoin T)) → Prop
  | _, [] => True
  | builder, (transaction, pegins) :: rest =>
    builder.Sound crypto transaction ∧
      ∀ added, builder.addTransaction crypto transaction pegins = .ok added →
        (added.getD builder).SoundCalls rest

variable (crypto) in
/-- The staged transactions are valid and apply to the coins; nothing occurs in two of them. -/
structure WellStaged (state : ViewState crypto) (builder : BlockBuilder T) : Prop where
  view : Represents crypto builder.coinsView state
  weight : builder.weight = calculate (join builder.stagedTxs).body
  staged : ∀ id, id ∈ builder.stagedOutputs ↔
    id ∈ (join builder.stagedTxs).body.getOutputIDs crypto
  fresh : ∀ id ∈ (join builder.stagedTxs).body.getOutputIDs crypto, state.set.coins id = none
  available : ∀ id ∈ (join builder.stagedTxs).body.getSpentIDs,
    state.set.coins id ≠ none ∨ id ∈ (join builder.stagedTxs).body.getOutputIDs crypto
  valid : ∀ transaction ∈ builder.stagedTxs, transaction.validate crypto = .ok ()
  apart : Apart crypto builder.stagedTxs

theorem wellStaged_create {coinsView : ICoinsView T} (rep : Represents crypto coinsView state)
    (height : Nat) : ∃ builder, create height coinsView = some builder ∧
      builder.height = height ∧ builder.stagedTxs = [] ∧ WellStaged crypto state builder := by
  obtain ⟨top, created⟩ := exists_newCache rep
  refine ⟨⟨height, 0, .cache coinsView top, [], []⟩, ?_, rfl, rfl, ?_⟩
  · rw [create, created]
    rfl
  · exact {
      view := newCache_represents rep created
      weight := rfl
      staged := fun _ => Iff.rfl
      fresh := by simp [TxBody.getOutputIDs]
      available := by simp [TxBody.getSpentIDs]
      valid := by simp
      apart := ⟨nodup_nil, nodup_nil, nodup_nil, Nat.zero_le _, Nat.zero_le _⟩ }

section

variable (well : WellStaged crypto state builder)
include well

theorem WellStaged.stages (sound : builder.Sound crypto transaction) {builder' : BlockBuilder T}
    (stages : Stages crypto state builder transaction pegins builder') :
    WellStaged crypto state builder' := by
  have outputIDs : ∀ id, id ∈ (join builder'.stagedTxs).body.getOutputIDs crypto ↔
      id ∈ (join builder.stagedTxs).body.getOutputIDs crypto ∨
        id ∈ transaction.body.getOutputIDs crypto := by
    intro id
    rw [stages.stagedTxs, join_append_singleton]
    simp only [TxBody.getOutputIDs, map_append, mem_append]
  have spentIDs : ∀ id, id ∈ (join builder'.stagedTxs).body.getSpentIDs ↔
      id ∈ (join builder.stagedTxs).body.getSpentIDs ∨ id ∈ transaction.body.getSpentIDs := by
    intro id
    rw [stages.stagedTxs, join_append_singleton]
    simp only [TxBody.getSpentIDs, map_append, mem_append]
  refine { view := stages.coinsView ▸ well.view, weight := ?_, staged := ?_, fresh := ?_,
           available := ?_, valid := ?_, apart := ?_ }
  · rw [stages.weight, stages.stagedTxs, join_append_singleton, calculate_append, well.weight]
  · intro id
    rw [stages.stagedOutputs, outputIDs, well.staged]
  · intro id member
    rcases (outputIDs id).mp member with before | own
    · exact well.fresh id before
    · exact (stages.outputs id own).1
  · intro id member
    rw [outputIDs]
    rcases (spentIDs id).mp member with before | own
    · exact (well.available id before).imp_right .inl
    · exact (stages.inputs id own).imp_right fun staged => .inl ((well.staged id).mp staged)
  · intro other member
    rw [stages.stagedTxs, mem_append, mem_singleton] at member
    rcases member with before | rfl
    · exact well.valid other before
    · exact sound.valid
  · rw [stages.stagedTxs]
    refine well.apart.append sound.valid sound.spent ?_ sound.kernels sound.numInputs ?_
    · intro id own staged
      exact (stages.outputs id own).2 ((well.staged id).mpr staged)
    · rw [← well.weight, add_comm]
      exact stages.light

theorem WellStaged.addTransactions {calls : List (Transaction T × List (PegInCoin T))}
    (sound : SoundCalls crypto builder calls) :
    ∃ builder', builder.addTransactions crypto calls = .ok builder' ∧
      builder'.height = builder.height ∧ WellStaged crypto state builder' := by
  induction calls generalizing builder with
  | nil => exact ⟨builder, rfl, rfl, well⟩
  | cons call rest ih =>
    obtain ⟨transaction, pegins⟩ := call
    obtain ⟨first, later⟩ := sound
    obtain ⟨added, ran, staged⟩ :=
      @addTransaction_spec _ _ _ _ _ pegins well.view (nodup_of_validate first.valid).2.1
    have kept : WellStaged crypto state (added.getD builder) ∧
        (added.getD builder).height = builder.height := by
      cases added with
      | none => exact ⟨well, rfl⟩
      | some builder' =>
        exact ⟨well.stages first (staged builder' rfl), (staged builder' rfl).height⟩
    obtain ⟨builder', finished, height, well'⟩ := ih kept.1 (later added ran)
    refine ⟨builder', ?_, height.trans kept.2, well'⟩
    rw [BlockBuilder.addTransactions, ran]
    exact finished

/-! ## The block that is built -/

/-- The staged transactions apply to the coins. -/
theorem WellStaged.applyBody (height : Int32) :
    ∃ spent set', state.set.applyBody height (aggregate crypto builder.stagedTxs).body.outputs
      (aggregate crypto builder.stagedTxs).body.getSpentIDs = some (spent, set') := by
  have alike := aggregate_alike crypto builder.stagedTxs
  have outputIDs := alike.outputs.map crypto.hashOutput
  have spentIDs := alike.inputs.map Input.outputID
  obtain ⟨added, adds⟩ : ∃ added, state.set.addOutputs height
      (aggregate crypto builder.stagedTxs).body.outputs = some added :=
    CoinSet.exists_addOutputs (outputIDs.nodup_iff.mpr well.apart.outputs)
      fun id member => well.fresh id (outputIDs.mem_iff.mp member)
  obtain ⟨-, -, inside, outside, -⟩ := CoinSet.addOutputs_spec adds
  have held : ∀ id ∈ (aggregate crypto builder.stagedTxs).body.getSpentIDs,
      added.coins id ≠ none := by
    intro id member
    by_cases own : id ∈ (aggregate crypto builder.stagedTxs).body.outputs.map crypto.hashOutput
    · exact (inside id own).2
    · rw [outside id own]
      refine (well.available id (spentIDs.mem_iff.mp member)).resolve_right fun staged => own ?_
      exact outputIDs.mem_iff.mpr staged
  obtain ⟨⟨spent, set'⟩, spends⟩ :=
    CoinSet.exists_spendInputs (spentIDs.nodup_iff.mpr well.apart.spent) held
  exact ⟨spent, set', by rw [CoinSet.applyBody, adds]; exact spends⟩

/-- A block is built: its body is the aggregate, it is valid, and its header commits to the coins
after it. -/
theorem WellStaged.buildBlock
    (keys : KeySums crypto (join builder.stagedTxs).stealthOffset (join builder.stagedTxs).body) :
    ∃ block, builder.buildBlock crypto = .ok block ∧ block.validate crypto = .ok () ∧
      block.body = (aggregate crypto builder.stagedTxs).body ∧
      block.header.height = Int32.ofNat builder.height ∧
      block.header.kernelOffset = prevOffset state.header +
        (aggregate crypto builder.stagedTxs).kernelOffset ∧
      ∃ spent set', state.set.applyBody block.header.height block.body.outputs
        block.body.getSpentIDs = some (spent, set') ∧ set'.Matches block.header := by
  obtain ⟨top, created⟩ := exists_newCache well.view
  have rep := newCache_represents well.view created
  obtain ⟨spent, set', applies⟩ := well.applyBody (Int32.ofNat builder.height)
  obtain ⟨middle, adds, spends⟩ := bind_eq_some_iff.mp applies
  have first := addOutputs_represents rep.toRepresentsSet (Int32.ofNat builder.height)
    (aggregate crypto builder.stagedTxs).body.outputs
  rw [adds] at first
  obtain ⟨added, ranAdds, addedHeader, addedRep⟩ := first
  have second := spendInputs_represents addedRep
    (aggregate crypto builder.stagedTxs).body.getSpentIDs
  rw [spends] at second
  obtain ⟨after, ranSpends, spentHeader, afterRep⟩ := second
  have header : after.header = state.header :=
    spentHeader.trans (addedHeader.trans rep.header)
  have body := body_validate_aggregate
    (fun transaction member => (validate_eq_ok.mp (well.valid transaction member)).1) well.apart
  have stealth := validateStealthSums_aggregate
    (fun transaction member => (validate_eq_ok.mp (well.valid transaction member)).2.2) keys
  let built : Block T := {
    header := {
      height := Int32.ofNat builder.height
      outputRoot := rootOf crypto.outputMmr T.zeroHash set'.leaves
      kernelRoot := rootOf crypto.kernelMmr T.zeroHash
        (aggregate crypto builder.stagedTxs).body.kernels
      leafsetRoot := (cache builder.coinsView after).leafsetRoot crypto
      kernelOffset := prevOffset state.header +
        (aggregate crypto builder.stagedTxs).kernelOffset
      stealthOffset := (aggregate crypto builder.stagedTxs).stealthOffset
      numTXOs := set'.leaves.length
      numKernels := (aggregate crypto builder.stagedTxs).body.kernels.length }
    body := (aggregate crypto builder.stagedTxs).body }
  have offset : (match (cache builder.coinsView after).getBestHeader with
      | none => (aggregate crypto builder.stagedTxs).kernelOffset
      | some best => addBlindingFactors
          [best.kernelOffset, (aggregate crypto builder.stagedTxs).kernelOffset]) =
      built.header.kernelOffset := by
    simp only [getBestHeader, header, built, prevOffset]
    cases state.header with
    | none => exact (zero_add _).symm
    | some best => simp [addBlindingFactors_eq]
  refine ⟨built, ?_, ?_, rfl, rfl, rfl, spent, set', applies, ?_⟩
  · simp only [BlockBuilder.buildBlock, created, orAssert, buildNextBlock, kernelRoot_eq,
      ranAdds, ranSpends, afterRep.leaves.getNextLeafIdx_eq, afterRep.leaves.root_eq, offset, bind,
      Except.bind]
    rfl
  · simp only [Block.validate, bind_eq_ok, ensure_eq_ok, kernelRoot_eq]
    exact ⟨(), rfl, (), body, (), stealth, rfl⟩
  · refine (matchesHeader_iff afterRep built.header).mp ?_
    simp only [matchesHeader, afterRep.leaves.getNextLeafIdx_eq, afterRep.leaves.root_eq,
      built, decide_true, Bool.and_true]

end

theorem validateForBlock_of_offset {body : TxBody T} {prevOffset offset : T.Scalar} :
    validateForBlock crypto body (prevOffset + offset) prevOffset =
      (⟨offset, 0, body⟩ : Transaction T).validateForTx crypto := by
  have difference : (if prevOffset = 0 then prevOffset + offset
      else prevOffset + offset - prevOffset) = offset := by
    split
    · rename_i zero
      rw [zero, zero_add]
    · rw [add_sub_cancel_left]
  simp only [validateForBlock, difference, Transaction.validateForTx]

variable (crypto) in
/-- The block of the builder is built and valid, applies to the view, and what is staged is valid
and spends nothing twice. -/
def BuildsAccepted (coinsView : ICoinsView T) (builder : BlockBuilder T) : Prop :=
  (∀ transaction ∈ builder.stagedTxs, transaction.validate crypto = .ok ()) ∧
    (join builder.stagedTxs).body.getSpentIDs.Nodup ∧
    ∃ block top undo top', builder.buildBlock crypto = .ok block ∧ block.validate crypto = .ok () ∧
      coinsView.newCache = some top ∧ top.applyBlock crypto coinsView block = .ok (undo, top')

/-- Sound calls lead to a block that is accepted, unless a sum over what they staged is infinity or
does not fit. -/
theorem buildBlock_accepted {coinsView : ICoinsView T} (rep : Represents crypto coinsView state)
    {height : Nat} {start : BlockBuilder T} (created : create height coinsView = some start)
    {calls : List (Transaction T × List (PegInCoin T))} (sound : SoundCalls crypto start calls) :
    ∃ builder, start.addTransactions crypto calls = .ok builder ∧
      (SumsReturn crypto builder.stagedTxs →
        KeySums crypto (join builder.stagedTxs).stealthOffset (join builder.stagedTxs).body →
        BuildsAccepted crypto coinsView builder) := by
  obtain ⟨created', same, -, -, well⟩ := wellStaged_create rep height
  rw [created, some.injEq] at same
  subst same
  obtain ⟨builder, ran, -, well⟩ := well.addTransactions sound
  refine ⟨builder, ran, fun sums keys => ⟨well.valid, well.apart.spent, ?_⟩⟩
  obtain ⟨block, built, valid, body, -, offset, spent, set', applies, fits⟩ := well.buildBlock keys
  obtain ⟨top, opened⟩ := exists_newCache rep
  have fresh := newCache_represents rep opened
  have balanced : validateForBlock crypto block.body block.header.kernelOffset
      (prevOffset top.header) = .ok () := by
    have best : top.header = state.header := fresh.header
    rw [best, offset, validateForBlock_of_offset, body]
    exact validateForTx_aggregate
      (fun transaction member => (validate_eq_ok.mp (well.valid transaction member)).2.1) sums
  obtain ⟨top', applied⟩ :=
    applyBlock_of_applyBody fresh.toRepresentsSet balanced applies fits
  exact ⟨block, top, _, top', built, valid, opened, applied⟩

end BlockBuilder

end MooncoinFormal.Mweb

namespace MooncoinFormal.Primitives.Numeric

open Mweb Transaction

def forgedTx : Transaction types where
  kernelOffset := (0 : Int)
  stealthOffset := (2 : Int)
  body := ⟨[], [keptOutput], [{ peginKernel 20 (5, 0) with signature := (0 : Nat) }]⟩

def emptyBuilder : BlockBuilder types := ⟨1, 0, .cache emptyView emptyCache, [], []⟩

def offering (transaction : Transaction types) :
    List (Transaction types × List (PegInCoin types)) :=
  [(transaction, transaction.body.getPegIns mweb)]

theorem staged_of_added {transactions : List (Transaction types)}
    {calls : List (Transaction types × List (PegInCoin types))} {builder : BlockBuilder types}
    (staged : (emptyBuilder.addTransactions mweb calls).toOption.map BlockBuilder.stagedTxs =
      some transactions) (ran : emptyBuilder.addTransactions mweb calls = .ok builder) :
    builder.stagedTxs = transactions := by
  rw [ran] at staged
  exact Option.some.inj staged

theorem honestTx_sound : emptyBuilder.Sound mweb honestTx := by
  refine ⟨by decide +kernel, ?_, ?_, by decide +kernel⟩
  · intro id member
    cases member
  · intro id member inside
    cases inside

theorem honestTx_keySums : KeySums mweb (join [honestTx]).stealthOffset (join [honestTx]).body :=
  ⟨by decide +kernel, by decide +kernel⟩

theorem honestTx_built :
    ∃ builder, emptyBuilder.addTransactions mweb (offering honestTx) = .ok builder ∧
      builder.stagedTxs = [honestTx] ∧ BlockBuilder.BuildsAccepted mweb emptyView builder := by
  have sound : BlockBuilder.SoundCalls mweb emptyBuilder (offering honestTx) :=
    ⟨honestTx_sound, fun _ _ => trivial⟩
  obtain ⟨builder, ran, accepted⟩ :=
    BlockBuilder.buildBlock_accepted (empty_represents mweb) (rfl : _ = some emptyBuilder) sound
  have staged : builder.stagedTxs = [honestTx] := staged_of_added (by decide +kernel) ran
  refine ⟨builder, ran, staged, accepted ?_ ?_⟩
  · rw [staged]
    exact ⟨⟨by decide +kernel, by decide +kernel, by decide +kernel, by decide +kernel⟩,
      by decide +kernel, by decide +kernel⟩
  · rw [staged]
    exact honestTx_keySums

/-- A transaction whose kernel is not signed is staged, and the block that is built of it is not
valid. -/
theorem forgedTx_built :
    forgedTx.validate mweb = .error (.validation .invalidSig) ∧
      ∃ builder block, emptyBuilder.addTransactions mweb (offering forgedTx) = .ok builder ∧
        builder.stagedTxs = [forgedTx] ∧ builder.buildBlock mweb = .ok block ∧
        block.validate mweb = .error (.validation .invalidSig) ∧
        ¬ BlockBuilder.BuildsAccepted mweb emptyView builder := by
  have invalid : forgedTx.validate mweb = .error (.validation .invalidSig) := by decide +kernel
  have succeeds : (emptyBuilder.addTransactions mweb (offering forgedTx)).isOk = true := by
    decide +kernel
  obtain ⟨builder, ran⟩ := Library.Checks.exists_of_isOk succeeds
  have staged : builder.stagedTxs = [forgedTx] := staged_of_added (by decide +kernel) ran
  have outcome : (((emptyBuilder.addTransactions mweb (offering forgedTx)).bind
      (BlockBuilder.buildBlock mweb)).map (Block.validate mweb)) =
        .ok (.error (.validation .invalidSig)) := by decide +kernel
  rw [ran] at outcome
  cases built : builder.buildBlock mweb with
  | error error => simp [Except.bind, Except.map, built] at outcome
  | ok block =>
    simp only [Except.bind, Except.map, built, Except.ok.injEq] at outcome
    refine ⟨invalid, builder, block, ran, staged, built, outcome, ?_⟩
    rintro ⟨valid, -⟩
    have passes := valid forgedTx (by rw [staged]; exact List.mem_cons_self)
    cases passes

end MooncoinFormal.Primitives.Numeric
