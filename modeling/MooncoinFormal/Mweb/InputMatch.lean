import Mathlib
import MooncoinFormal.Mweb.FirstBlock

/-!
# What an input says about the coin it spends

An input repeats the commitment and the key of the output it spends. The kernel
sums are taken over the repeated commitments, while the coin is found by its ID
alone. No check of a block compares the two: whenever a block that spends
something is accepted, so is one with the same spent IDs and another commitment.
-/

namespace MooncoinFormal.Mweb

open Primitives Validation Library.Checks CoinsViewCache List ICoinsView

variable {T : CryptoTypes}

/-! ## Named outputs -/

/-- The output of an ID: that of an unspent coin of the view, or one of the block. -/
def Names (crypto : Crypto T) (view : ICoinsView T) (body : TxBody T) (id : T.Hash)
    (output : Output T) : Prop :=
  (∃ utxo, view.getUTXO id = .ok (some utxo) ∧ utxo.output = output) ∨
    (output ∈ body.outputs ∧ crypto.hashOutput output = id)

/-- Every input of the extension block repeats the commitment and the key of the
output that its ID names. -/
def InputsMatch (crypto : Crypto T) (view : ICoinsView T) (block : CBlock T) : Prop :=
  ∀ mwebBlock, block.mwebBlock = some mwebBlock → ∀ input ∈ mwebBlock.body.inputs,
    ∀ output, Names crypto view mwebBlock.body input.outputID output →
      input.commitment = output.commitment ∧ input.outputPubKey = output.receiverPubKey

variable (block : CBlock T)

def getSpentIDs : List T.Hash :=
  match block.mwebBlock with
  | none => []
  | some mwebBlock => mwebBlock.body.getSpentIDs

variable {input : Input T} {rest : List (Input T)}

section Names

variable {crypto : Crypto T} {base : ICoinsView T} {top top' : CoinsViewCache T}

theorem getUTXO_addUTXO {height : Int32} {output : Output T}
    (added : top.addUTXO crypto base height output = .ok top') (id : T.Hash) :
    (cache base top').getUTXO id =
      if id = crypto.hashOutput output then
        .ok (some ⟨height, top.outputPMMR.getNextLeafIdx, output⟩)
      else (cache base top).getUTXO id := by
  simp only [addUTXO, bind_eq_ok, ensure_eq_ok] at added
  obtain ⟨-, read, ⟨⟩, rfl, pmmr, appended, result⟩ := added
  cases result
  split
  · rename_i same
    subst same
    simp only [getUTXO, CoinsViewUpdates.getActions_addAction, if_pos, foldlM_append] at read ⊢
    rw [← bind_assoc, read]
    rfl
  · rename_i different
    simp only [getUTXO, CoinsViewUpdates.getActions_addAction, if_neg different]

theorem getUTXO_addOutputs {height : Int32} {outputs : List (Output T)}
    (added : top.addOutputs crypto base height outputs = .ok top') {id : T.Hash} {utxo : UTXO T}
    (found : (cache base top').getUTXO id = .ok (some utxo)) :
    (cache base top).getUTXO id = .ok (some utxo) ∨
      (utxo.output ∈ outputs ∧ crypto.hashOutput utxo.output = id) := by
  induction outputs generalizing top with
  | nil =>
    cases added
    exact .inl found
  | cons output rest ih =>
    simp only [addOutputs, bind_eq_ok] at added
    obtain ⟨middle, first, later⟩ := added
    rcases ih later with before | ⟨member, hash⟩
    · rw [getUTXO_addUTXO first] at before
      split at before
      · rename_i same
        cases before
        exact .inr ⟨mem_cons_self, same.symm⟩
      · exact .inl before
    · exact .inr ⟨mem_cons_of_mem _ member, hash⟩

theorem names_of_applyBlock {block : Block T} {undo : BlockUndo T}
    (inputs : block.body.inputs = input :: rest)
    (applied : top.applyBlock crypto base block = .ok (undo, top')) :
    ∃ output, Names crypto (.cache base top) block.body input.outputID output := by
  obtain ⟨-, added, spent, adds, spends, -⟩ := applyBlock_eq_ok.mp applied
  simp only [TxBody.getSpentIDs, inputs, map_cons, spendInputs, bind_eq_ok, Prod.exists] at spends
  obtain ⟨utxo, after, first, -⟩ := spends
  simp only [spendUTXO, bind_eq_ok] at first
  obtain ⟨found, read, first⟩ := first
  cases found with
  | none => cases first
  | some coin =>
    rcases getUTXO_addOutputs adds read with before | ⟨member, hash⟩
    · exact ⟨coin.output, .inl ⟨coin, before, rfl⟩⟩
    · exact ⟨coin.output, .inr ⟨member, hash⟩⟩

end Names

/-! ## Another commitment in the first input -/

section Shift

variable (crypto : BlockCrypto T) (blind : T.Scalar)

/-- The input with a commitment that is shifted by a blinding factor. -/
def Input.shift (input : Input T) : Input T :=
  { input with commitment := input.commitment + crypto.commitBlinded blind }

/-- The block whose first input is shifted, with the offset that balances it. -/
def Block.shiftFirstInput (block : Block T) : Block T where
  header := { block.header with kernelOffset := block.header.kernelOffset - blind }
  body := { block.body with inputs := block.body.inputs.modifyHead (Input.shift crypto blind) }

variable (hogEx : CTransaction T)

def replaceExtension (mwebBlock : Block T) : CBlock T :=
  { block with vtx := block.vtx.dropLast ++ [hogEx], mwebBlock := some mwebBlock }

def recommit (header : Header T) : CTransaction T :=
  { hogEx with vout := hogEx.vout.modifyHead fun hogAddr => { hogAddr with
      scriptPubKey := CScript.hogAddrScript (T.hashBytes (crypto.hashHeader header)) } }

@[simp] theorem middleTxs_replaceExtension
    (mwebBlock : Block T) :
    middleTxs (replaceExtension block hogEx mwebBlock) = middleTxs block := by
  simp [middleTxs, replaceExtension]

variable {crypto} {params : Params T} {chain : Chain T} {block : CBlock T} {mwebBlock : Block T}
  {hogEx : CTransaction T}

theorem getSpentIDs_shiftFirstInput (blind : T.Scalar) :
    (mwebBlock.shiftFirstInput crypto blind).body.getSpentIDs = mwebBlock.body.getSpentIDs := by
  unfold Block.shiftFirstInput TxBody.getSpentIDs
  cases mwebBlock.body.inputs with
  | nil => rfl
  | cons input rest => rfl

theorem validateBlock_shiftFirstInput (blind : T.Scalar) (pegins : List (PegInCoin T))
    (pegouts : List PegOutCoin) :
    validateBlock crypto.toCrypto (mwebBlock.shiftFirstInput crypto blind) pegins pegouts =
      validateBlock crypto.toCrypto mwebBlock pegins pegouts := by
  obtain ⟨header, inputs, -, -⟩ := mwebBlock
  match inputs with
  | [] => rfl
  | [_] => rfl
  | _ :: _ :: _ => rfl

theorem validHogEx_recommit (readable : crypto.ReadableHeaderHash)
    (valid : Node.ValidHogEx crypto params chain block mwebBlock hogEx) (blind : T.Scalar) :
    Node.ValidHogEx crypto params chain
      (replaceExtension block (recommit crypto hogEx
        (mwebBlock.shiftFirstInput crypto blind).header) (mwebBlock.shiftFirstInput crypto blind))
      (mwebBlock.shiftFirstInput crypto blind)
      (recommit crypto hogEx (mwebBlock.shiftFirstInput crypto blind).header) := by
  obtain ⟨hogAddr, pegouts, mwebHash, outputs, -, -⟩ := valid.committed
  obtain ⟨size, readBack⟩ := readable (mwebBlock.shiftFirstInput crypto blind).header
  have fromLast := valid.noPegins hogEx (mem_of_getLast? valid.last)
  rw [valid.flagged, Bool.or_true, Bool.true_and, outputs, any_cons, Bool.or_eq_false_iff]
    at fromLast
  refine ⟨by simp [replaceExtension], ?_, valid.flagged, ?_, ?_, valid.height, ?_, ?_⟩
  · intro tx member
    rcases mem_append.mp member with before | last
    · exact valid.noPegins tx (dropLast_subset _ before)
    · rw [mem_singleton.mp last, recommit, outputs, modifyHead_cons, any_cons,
        fromLast.2, isPegin, CScript.isMwebPegin_hogAddrScript size]
      simp
  · intro tx member
    rw [replaceExtension, dropLast_concat] at member
    exact valid.unflagged tx member
  · exact ⟨_, pegouts, _, by rw [recommit, outputs]; rfl,
      CScript.isMwebHogAddr_hogAddrScript size, readBack⟩
  · have same := valid.pegins
    simpa [peginOutPoints, recommit] using same
  · rw [validateBlock_shiftFirstInput, ← valid.validated]
    simp [blockPegins, hogexPegouts, recommit, outputs]

theorem getValueOut_recommit (header : Header T) :
    (recommit crypto hogEx header).getValueOut = hogEx.getValueOut := by
  unfold CTransaction.getValueOut recommit
  cases hogEx.vout with
  | nil => rfl
  | cons hogAddr pegouts => rfl

theorem checkConnect_recommit (connects : Node.checkConnect params chain block hogEx mwebBlock)
    (blind : T.Scalar) (header : Header T) :
    Node.checkConnect params chain
      (replaceExtension block (recommit crypto hogEx header)
        (mwebBlock.shiftFirstInput crypto blind))
      (recommit crypto hogEx header) (mwebBlock.shiftFirstInput crypto blind) := by
  refine ⟨connects.1, ?_⟩
  rw [← connects.2]
  unfold Node.checkHogExAmounts peginOutputs
  rw [middleTxs_replaceExtension, getValueOut_recommit]
  cases outputs : hogEx.vout with
  | nil => cases hogEx.getValueOut <;> simp [recommit, outputs]
  | cons hogAddr pegouts =>
    cases hogEx.getValueOut with
    | none => rfl
    | some valueOut =>
      rw [recommit, outputs]
      rfl

theorem exists_blind (order : crypto.LargeOrder) (first second : T.Point) :
    ∃ n : Nat, (n : T.Scalar) • crypto.generatorG ≠ 0 ∧
      first - (n : T.Scalar) • crypto.generatorG ≠ 0 ∧
      second - (n : T.Scalar) • crypto.generatorG ≠ 0 := by
  have apart : ∀ n k : Nat, k ≠ 0 → k < 3 →
      (n : T.Scalar) • crypto.generatorG ≠ ((n + k : Nat) : T.Scalar) • crypto.generatorG := by
    intro n k positive small same
    rw [Nat.cast_add, add_smul, left_eq_add] at same
    exact order k positive (by omega) same
  by_contra none_fits
  have hit : ∀ n : Nat, n ≠ 0 → n < 4 → first = (n : T.Scalar) • crypto.generatorG ∨
      second = (n : T.Scalar) • crypto.generatorG := by
    intro n positive small
    by_contra missed
    rw [not_or] at missed
    exact none_fits ⟨n, order n positive (by omega), sub_ne_zero.mpr missed.1,
      sub_ne_zero.mpr missed.2⟩
  -- two of the three multiples would be one point
  rcases hit 1 (by decide) (by decide) with h₁ | h₁ <;>
  rcases hit 2 (by decide) (by decide) with h₂ | h₂ <;>
  rcases hit 3 (by decide) (by decide) with h₃ | h₃
  · exact apart 1 1 (by decide) (by decide) (h₁.symm.trans h₂)
  · exact apart 1 1 (by decide) (by decide) (h₁.symm.trans h₂)
  · exact apart 1 2 (by decide) (by decide) (h₁.symm.trans h₃)
  · exact apart 2 1 (by decide) (by decide) (h₂.symm.trans h₃)
  · exact apart 2 1 (by decide) (by decide) (h₂.symm.trans h₃)
  · exact apart 1 2 (by decide) (by decide) (h₁.symm.trans h₃)
  · exact apart 1 1 (by decide) (by decide) (h₁.symm.trans h₂)
  · exact apart 1 1 (by decide) (by decide) (h₁.symm.trans h₂)

theorem exists_shift_validateForBlock (order : crypto.LargeOrder)
    (inputs : mwebBlock.body.inputs = input :: rest) {prev : T.Scalar}
    (valid : validateForBlock crypto.toCrypto mwebBlock.body mwebBlock.header.kernelOffset prev =
      .ok ()) :
    ∃ blind : T.Scalar, blind • crypto.generatorG ≠ 0 ∧
      validateForBlock crypto.toCrypto (mwebBlock.shiftFirstInput crypto blind).body
        (mwebBlock.shiftFirstInput crypto blind).header.kernelOffset prev = .ok () := by
  obtain ⟨excess, balance⟩ := validateSums_balance valid
  obtain ⟨n, nonzero, difference, net⟩ := exists_blind order
    (mwebBlock.body.getOutputCommits.sum - mwebBlock.body.getInputCommits.sum)
    (netCommitment crypto.toCrypto mwebBlock.body.getInputCommits mwebBlock.body.getOutputCommits
      mwebBlock.body.getSupplyChange)
  have sum : (mwebBlock.shiftFirstInput crypto (n : T.Scalar)).body.getInputCommits.sum =
      mwebBlock.body.getInputCommits.sum + (n : T.Scalar) • crypto.generatorG := by
    simp only [Block.shiftFirstInput, TxBody.getInputCommits, inputs, modifyHead_cons,
      map_cons, sum_cons, Input.shift, Crypto.commitBlinded]
    abel
  have shifted : netCommitment crypto.toCrypto
      (mwebBlock.shiftFirstInput crypto (n : T.Scalar)).body.getInputCommits
      mwebBlock.body.getOutputCommits mwebBlock.body.getSupplyChange =
      netCommitment crypto.toCrypto mwebBlock.body.getInputCommits mwebBlock.body.getOutputCommits
        mwebBlock.body.getSupplyChange - (n : T.Scalar) • crypto.generatorG := by
    rw [netCommitment, netCommitment, sum]
    abel
  refine ⟨n, nonzero, validateSums_of_balance ?_ ?_ excess ?_⟩
  · rw [sum, ← sub_sub]
    exact difference
  · exact shifted ▸ net
  · refine shifted.trans ?_
    rw [balance, add_sub_assoc, ← sub_smul]
    congr 2
    show _ = if prev = 0 then mwebBlock.header.kernelOffset - n
      else mwebBlock.header.kernelOffset - n - prev
    split
    · rfl
    · rw [sub_right_comm]

end Shift

/-! ## Accepted blocks -/

section Accepted

variable {crypto : BlockCrypto T} {params : Params T} {chain : Chain T} {base : ICoinsView T}
  {top : CoinsViewCache T} {block : CBlock T}

theorem accepts_shifted (order : crypto.LargeOrder) (readable : crypto.ReadableHeaderHash)
    {mwebBlock : Block T} (attached : block.mwebBlock = some mwebBlock)
    (inputs : mwebBlock.body.inputs = input :: rest)
    (accepted : Accepts crypto params chain base top block) :
    ∃ other blind, blind • crypto.generatorG ≠ 0 ∧
      other.mwebBlock = some (mwebBlock.shiftFirstInput crypto blind) ∧
      Accepts crypto params chain base top other := by
  obtain ⟨checked, undo, top', connected⟩ := accepted
  obtain ⟨enabled, hogEx, valid⟩ := (Node.contextualCheckBlock_eq_ok attached).mp checked
  obtain ⟨connects, mwundo, applied, -⟩ :=
    (Node.connectBlock_eq_ok attached valid.last).mp connected
  have sums := (applyBlock_eq_ok.mp applied).1
  obtain ⟨blind, nonzero, shifted⟩ := exists_shift_validateForBlock order inputs sums
  have again := applyBlock_congr applied shifted rfl rfl
    (getSpentIDs_shiftFirstInput blind) rfl rfl rfl
  have valid' := validHogEx_recommit readable valid blind
  exact ⟨_, blind, nonzero, rfl,
    (Node.contextualCheckBlock_eq_ok rfl).mpr ⟨enabled, _, valid'⟩, _, _,
    (Node.connectBlock_eq_ok rfl valid'.last).mpr
      ⟨checkConnect_recommit connects blind _, mwundo, again, rfl⟩⟩

/-- Accepted blocks that spend given IDs all repeat the commitments and keys of the
outputs they spend exactly when they spend nothing. -/
theorem inputsMatch_iff_spends_nothing (order : crypto.LargeOrder)
    (readable : crypto.ReadableHeaderHash) (accepted : Accepts crypto params chain base top block) :
    (∀ other, Accepts crypto params chain base top other →
      getSpentIDs other = getSpentIDs block →
        InputsMatch crypto.toCrypto (.cache base top) other) ↔ getSpentIDs block = [] := by
  constructor
  · intro all_match
    cases attached : block.mwebBlock with
    | none => simp [getSpentIDs, attached]
    | some mwebBlock =>
      cases inputs : mwebBlock.body.inputs with
      | nil => simp [getSpentIDs, attached, TxBody.getSpentIDs, inputs]
      | cons input rest =>
        exfalso
        obtain ⟨other, blind, nonzero, attached', accepted'⟩ :=
          accepts_shifted order readable attached inputs accepted
        obtain ⟨checked, undo, top', connected⟩ := accepted
        obtain ⟨-, hogEx, valid⟩ := (Node.contextualCheckBlock_eq_ok attached).mp checked
        obtain ⟨-, mwundo, applied, -⟩ :=
          (Node.connectBlock_eq_ok attached valid.last).mp connected
        obtain ⟨output, names⟩ := names_of_applyBlock inputs applied
        have here := (all_match block ⟨checked, undo, top', connected⟩ rfl mwebBlock attached
          input (inputs ▸ mem_cons_self) output names).1
        have same : getSpentIDs other = getSpentIDs block := by
          simp only [getSpentIDs, attached, attached', getSpentIDs_shiftFirstInput]
        have there := (all_match other accepted' same _ attached' (input.shift crypto blind)
          (by simp [Block.shiftFirstInput, inputs]) output names).1
        rw [Input.shift, here, add_eq_left] at there
        exact nonzero there
  · intro nothing other _ same mwebBlock attached input member
    rw [nothing] at same
    have none_spent : mwebBlock.body.inputs.map Input.outputID = [] := by
      simpa [getSpentIDs, attached, TxBody.getSpentIDs] using same
    rw [map_eq_nil_iff.mp none_spent] at member
    cases member

end Accepted

section FirstBlock

open Numeric

/-- Blocks that spend what the first block spends need not repeat its commitment. -/
theorem firstBlock_inputs_not_bound :
    ¬ ∀ other, Accepts Numeric.crypto Numeric.params genesis emptyView emptyCache other →
      getSpentIDs other = getSpentIDs (canonicalBlock firstBlock) →
        InputsMatch mweb (.cache emptyView emptyCache) other := by
  intro all_match
  have nothing := (inputsMatch_iff_spends_nothing crypto_largeOrder crypto_readableHeaderHash
    canonicalBlock_firstBlock_accepted).mp all_match
  cases nothing

/-- An output of 1020, made of a peg-in of 20 and an output of 10 that is spent as
if it held 1010. -/
def inflatedBody : TxBody types where
  inputs := [{ spendOutput passedOutput with commitment := ((3, 1010) : Int × Int) }]
  outputs := [passedOutput, plainOutput (5, 1020) (2, 0) (4, 0)]
  kernels := [peginKernel 20 (5, 0)]

def inflatedBlock : Block types := ⟨headerOf inflatedBody fun i => decide (i = 1), inflatedBody⟩

theorem inflatedBlock_accepted :
    Accepts Numeric.crypto Numeric.params genesis emptyView emptyCache
        (canonicalBlock inflatedBlock) ∧
      ¬ InputsMatch mweb (.cache emptyView emptyCache) (canonicalBlock inflatedBlock) := by
  refine ⟨accepts_canonicalBlock (by decide +kernel) (by decide +kernel), ?_⟩
  intro matches_all
  have same := (matches_all inflatedBlock rfl _ (mem_singleton.mpr rfl) passedOutput
    (.inr ⟨mem_cons_self, rfl⟩)).1
  exact absurd same (by decide)

end FirstBlock

end MooncoinFormal.Mweb
