import Mathlib
import MooncoinFormal.Mweb.FirstBlock

/-!
# The amount locked in the extension block

The first output of a HogEx holds what is locked in the extension block. The map
of peg-ins keeps one amount for each kernel ID and the peg-outs are compared as a
multiset, but together with the fee of the HogEx and its first amount they pin
every flow down: along a chain the locked amount is the exact total of peg-ins
less peg-outs and fees.
-/

namespace MooncoinFormal.Mweb

open Primitives Validation Library.Checks Node List Int64

variable {T : CryptoTypes}

theorem Kernel.getSupplyChange_eq (kernel : Kernel T) :
    kernel.getSupplyChange = ofInt (kernel.getPegIn.toInt - kernel.getFee.toInt -
      (kernel.pegouts.map fun pegout => pegout.amount.toInt).sum) := by
  have sum := accumulate_ofInt kernel.pegouts fun pegout => pegout.amount.toInt
  simp only [ofInt_toInt] at sum
  rw [ofInt_sub, ofInt_sub, ofInt_toInt, ofInt_toInt, ← sum]
  rfl

namespace TxBody

variable (body : TxBody T)

def feeTotal : Int := (body.kernels.map fun kernel => kernel.getFee.toInt).sum

def peginTotal : Int := (body.kernels.map fun kernel => kernel.getPegIn.toInt).sum

def pegoutTotal : Int := (body.getPegOuts.map fun pegout => pegout.amount.toInt).sum

def flow : Int := body.peginTotal - body.pegoutTotal - body.feeTotal

/-- The sums of the kernels' amounts are 64-bit amounts. -/
structure AmountsFit : Prop where
  fees_low : -2 ^ 63 ≤ body.feeTotal
  fees_high : body.feeTotal < 2 ^ 63
  flow_low : -2 ^ 63 ≤ body.flow
  flow_high : body.flow < 2 ^ 63

variable {body}

theorem getTotalFee_toInt (fits : body.AmountsFit) : body.getTotalFee.toInt = body.feeTotal := by
  have sum := accumulate_ofInt body.kernels fun kernel => kernel.getFee.toInt
  simp only [ofInt_toInt] at sum
  rw [getTotalFee, sum]
  exact toInt_ofInt_of_le fits.fees_low fits.fees_high

theorem getSupplyChange_eq_flow (body : TxBody T) : body.getSupplyChange = ofInt body.flow := by
  rw [getSupplyChange, funext (Kernel.getSupplyChange_eq (T := T)), accumulate_ofInt]
  congr 1
  rw [flow, peginTotal, pegoutTotal, feeTotal, getPegOuts]
  induction body.kernels with
  | nil => rfl
  | cons kernel rest ih =>
    simp only [map_cons, sum_cons, flatMap_cons, map_append, sum_append, ih]
    omega

theorem getSupplyChange_toInt (fits : body.AmountsFit) :
    body.getSupplyChange.toInt = body.flow := by
  rw [getSupplyChange_eq_flow]
  exact toInt_ofInt_of_le fits.flow_low fits.flow_high

end TxBody

theorem takePegOuts_perm {mwebPegouts hogexPegouts : List PegOutCoin}
    (count : mwebPegouts.length = hogexPegouts.length)
    (taken : takePegOuts mwebPegouts hogexPegouts = .ok ()) : hogexPegouts.Perm mwebPegouts := by
  induction mwebPegouts generalizing hogexPegouts with
  | nil =>
    rw [length_nil, eq_comm, length_eq_zero_iff] at count
    rw [count]
  | cons pegout rest ih =>
    rw [takePegOuts] at taken
    split at taken
    · rename_i member
      refine (perm_cons_erase member).trans (List.Perm.cons pegout (ih ?_ taken))
      rw [length_erase_of_mem member, ← count, length_cons, Nat.add_sub_cancel]
    · cases taken

def valueTotal (outputs : List CTxOut) : Int := (outputs.map fun txout => txout.nValue.toInt).sum

theorem amountTotal_nValue (outputs : List CTxOut) :
    amountTotal (outputs.map CTxOut.nValue) = valueTotal outputs := by
  rw [amountTotal, map_map]
  rfl

variable {outputs : List CTxOut} {start total : CAmount}

theorem staysInRange_of_le (range : moneyRange start = true)
    (ranges : ∀ txout ∈ outputs, moneyRange txout.nValue = true)
    (bound : start.toInt + valueTotal outputs ≤ maxMoney.toInt) :
    StaysInRange start (outputs.map CTxOut.nValue) :=
  .of_le range (forall_mem_map.mpr ranges) (by rwa [amountTotal_nValue])

theorem hogexInputAmount_eq_ok (range : moneyRange start = true) :
    hogexInputAmount start outputs = .ok total ↔
      StaysInRange start (outputs.map CTxOut.nValue) ∧
        (outputs.map CTxOut.nValue).foldl (· + ·) start = total := by
  induction outputs generalizing start with
  | nil => simp [hogexInputAmount, StaysInRange.nil_iff, range]
  | cons output rest ih =>
    simp only [hogexInputAmount, bind_eq_ok, ensure_eq_ok, map_cons, StaysInRange.cons_iff,
      foldl_cons]
    constructor
    · rintro ⟨⟨⟩, inRange, added⟩
      exact ⟨⟨range, ((ih inRange).mp added).1⟩, ((ih inRange).mp added).2⟩
    · rintro ⟨⟨-, stays⟩, added⟩
      exact ⟨(), stays 0, (ih (stays 0)).mpr ⟨stays, added⟩⟩

theorem valueOutLoop_eq_some (range : moneyRange start = true) :
    CTransaction.valueOutLoop outputs start = some total ↔
      (∀ txout ∈ outputs, moneyRange txout.nValue = true) ∧
        StaysInRange start (outputs.map CTxOut.nValue) ∧
        (outputs.map CTxOut.nValue).foldl (· + ·) start = total := by
  induction outputs generalizing start with
  | nil => simp [CTransaction.valueOutLoop, StaysInRange.nil_iff, range]
  | cons txout rest ih =>
    rw [CTransaction.valueOutLoop, forall_mem_cons, map_cons, StaysInRange.cons_iff, foldl_cons]
    by_cases passed : moneyRange txout.nValue = true ∧ moneyRange (start + txout.nValue) = true
    · rw [if_neg (by simp [passed]), ih passed.2, and_assoc, and_iff_right passed.1, and_assoc,
        and_iff_right range]
    · rw [if_pos (by simpa [imp_iff_not_or] using passed)]
      refine iff_of_false nofun ?_
      rintro ⟨⟨own, -⟩, ⟨-, stays⟩, -⟩
      exact passed ⟨own, stays 0⟩

theorem hogexInputAmount_exact (range : moneyRange start = true)
    (added : hogexInputAmount start outputs = .ok total) :
    moneyRange total = true ∧ total.toInt = start.toInt + valueTotal outputs := by
  obtain ⟨stays, rfl⟩ := (hogexInputAmount_eq_ok range).mp added
  exact ⟨stays.range, by rw [stays.toInt_foldl, amountTotal_nValue]⟩

theorem valueOutLoop_exact (range : moneyRange start = true)
    (added : CTransaction.valueOutLoop outputs start = some total) :
    moneyRange total = true ∧ total.toInt = start.toInt + valueTotal outputs ∧
      ∀ txout ∈ outputs, moneyRange txout.nValue = true := by
  obtain ⟨ranges, stays, rfl⟩ := (valueOutLoop_eq_some range).mp added
  exact ⟨stays.range, by rw [stays.toInt_foldl, amountTotal_nValue], ranges⟩

theorem prevAmount_range (chain : Chain T) : moneyRange (prevAmount chain) = true := by
  cases chain with
  | nil => exact moneyRange_zero
  | cons prev rest => exact prev.mwebAmount_range

/-! ## One block -/

/-- The flows of a block, as its HogEx and its extension block state them. -/
structure ExactFlows (chain : Chain T) (block : CBlock T) (mwebBlock : Block T)
    (hogEx : CTransaction T) : Prop where
  pegins : valueTotal (peginOutputs block) = mwebBlock.body.peginTotal
  pegouts : (hogexPegouts hogEx).Perm mwebBlock.body.getPegOuts
  locked : ∃ first rest, hogEx.vout = first :: rest ∧
    first.nValue.toInt = (prevAmount chain).toInt + mwebBlock.body.peginTotal -
      mwebBlock.body.pegoutTotal - mwebBlock.body.feeTotal

section Blocks

variable {crypto : BlockCrypto T} {params : Params T} {chain : Chain T} {block : CBlock T}
  {mwebBlock : Block T} {hogEx : CTransaction T}

theorem hogexPegouts_perm
    (validated : validateBlock crypto.toCrypto mwebBlock (blockPegins block) (hogexPegouts hogEx) =
      .ok ()) : (hogexPegouts hogEx).Perm mwebBlock.body.getPegOuts := by
  simp only [validateBlock, validatePegOutCoins, bind_eq_ok, ensure_eq_ok] at validated
  obtain ⟨⟨⟩, -, ⟨⟩, -, ⟨⟩, count, taken⟩ := validated
  exact takePegOuts_perm count taken

/-- What the checks of the amounts say, with the sums as they were computed. -/
theorem checkHogExAmounts_eq_ok (checked : checkHogExAmounts chain block hogEx mwebBlock = .ok ()) :
    ∃ inputAmount valueOut : CAmount, ∃ first rest, hogEx.vout = first :: rest ∧
      (moneyRange inputAmount = true ∧
        inputAmount.toInt = (prevAmount chain).toInt + valueTotal (peginOutputs block)) ∧
      (moneyRange valueOut = true ∧ valueOut.toInt = first.nValue.toInt + valueTotal rest ∧
        moneyRange first.nValue = true) ∧
      (moneyRange (inputAmount - valueOut) = true ∧
        inputAmount - valueOut = mwebBlock.body.getTotalFee) ∧
      prevAmount chain + mwebBlock.body.getSupplyChange = first.nValue := by
  simp only [checkHogExAmounts, bind_eq_ok] at checked
  obtain ⟨inputAmount, added, checked⟩ := checked
  cases value : hogEx.getValueOut with
  | none => simp [value] at checked
  | some valueOut =>
    obtain ⟨outRange, exact_out, ranges⟩ := valueOutLoop_exact moneyRange_zero value
    cases outputs : hogEx.vout with
    | nil => simp [value, outputs] at checked
    | cons first rest =>
      simp only [value, outputs, bind_eq_ok, ensure_eq_ok] at checked
      obtain ⟨⟨⟩, fee, locked⟩ := checked
      rw [outputs] at exact_out ranges
      simp only [valueTotal, map_cons, sum_cons, toInt_zero] at exact_out
      exact ⟨inputAmount, valueOut, first, rest, rfl,
        hogexInputAmount_exact (prevAmount_range chain) added,
        ⟨outRange, by rw [exact_out, zero_add]; rfl, ranges first mem_cons_self⟩, fee, locked⟩

theorem checkHogExAmounts_exact (fits : mwebBlock.body.AmountsFit)
    (checked : checkHogExAmounts chain block hogEx mwebBlock = .ok ()) :
    ∃ first rest, hogEx.vout = first :: rest ∧
      (prevAmount chain).toInt + valueTotal (peginOutputs block) =
        first.nValue.toInt + valueTotal rest + mwebBlock.body.feeTotal ∧
      first.nValue.toInt = (prevAmount chain).toInt + mwebBlock.body.flow := by
  obtain ⟨inputAmount, valueOut, first, rest, outputs, ⟨inputRange, exact_input⟩,
    ⟨outRange, exact_out, range⟩, ⟨-, fee⟩, locked⟩ := checkHogExAmounts_eq_ok checked
  refine ⟨first, rest, outputs, ?_, ?_⟩
  · have exact_fee := congrArg toInt fee
    rw [toInt_sub_of_moneyRange inputRange outRange, TxBody.getTotalFee_toInt fits, exact_input,
      exact_out] at exact_fee
    omega
  · rw [← locked] at range ⊢
    rw [toInt_add_of_moneyRange (prevAmount_range chain) range, TxBody.getSupplyChange_toInt fits]

theorem exactFlows_of_accepts {base : ICoinsView T} {top : CoinsViewCache T}
    (accepted : Accepts crypto params chain base top block)
    (attached : block.mwebBlock = some mwebBlock) (fits : mwebBlock.body.AmountsFit) :
    ∃ hogEx, block.vtx.getLast? = some hogEx ∧ ExactFlows chain block mwebBlock hogEx := by
  obtain ⟨checked, undo, top', connected⟩ := accepted
  obtain ⟨-, hogEx, valid⟩ := (contextualCheckBlock_eq_ok attached).mp checked
  obtain ⟨⟨-, amounts⟩, -⟩ := (connectBlock_eq_ok attached valid.last).mp connected
  have pegouts := hogexPegouts_perm valid.validated
  obtain ⟨first, rest, outputs, fee, locked⟩ := checkHogExAmounts_exact fits amounts
  have paid : valueTotal rest = mwebBlock.body.pegoutTotal := by
    rw [TxBody.pegoutTotal, ← (pegouts.map fun pegout => pegout.amount.toInt).sum_eq]
    simp [hogexPegouts, outputs, valueTotal, Function.comp_def]
  refine ⟨hogEx, valid.last, ?_, pegouts, first, rest, outputs, ?_⟩
  · rw [TxBody.flow] at locked
    omega
  · rw [locked, TxBody.flow]
    omega

end Blocks

/-! ## Chains -/

/-- The entry that a connected block gets in the index. -/
def IndexOf (crypto : BlockCrypto T) (block : CBlock T) (index : CBlockIndex T) : Prop :=
  index.header = block.header ∧ index.blockHash = block.getHash crypto ∧
    ∃ hogEx first rest, block.getHogEx = some hogEx ∧ hogEx.vout = first :: rest ∧
      index.hogexHash = hogEx.getHash crypto ∧ index.mwebAmount = first.nValue

/-- Blocks with an extension block, accepted one after another. -/
inductive Connected (crypto : BlockCrypto T) (params : Params T) :
    Chain T → List (CBlock T) → Chain T → Prop where
  | start (chain : Chain T) : Connected crypto params chain [] chain
  | connect {start chain : Chain T} {blocks : List (CBlock T)} {block : CBlock T}
      {base : ICoinsView T} {top : CoinsViewCache T} {mwebBlock : Block T} {index : CBlockIndex T}
      (earlier : Connected crypto params start blocks chain)
      (accepted : Accepts crypto params chain base top block)
      (attached : block.mwebBlock = some mwebBlock) (fits : mwebBlock.body.AmountsFit)
      (indexed : IndexOf crypto block index) :
      Connected crypto params start (blocks ++ [block]) (index :: chain)

/-- What a block adds to the extension block. -/
def blockFlow (block : CBlock T) : Int :=
  match block.mwebBlock with
  | none => 0
  | some mwebBlock => mwebBlock.body.flow

theorem getHogEx_eq {block : CBlock T} {hogEx other : CTransaction T}
    (found : block.getHogEx = some hogEx) (last : block.vtx.getLast? = some other) :
    hogEx = other := by
  rw [CBlock.getHogEx, last] at found
  split at found
  · rename_i same
    split at found
    · cases found
      exact (Option.some.inj same).symm
    · cases found
  · cases found

theorem Connected.runningTotal {crypto : BlockCrypto T} {params : Params T} {start chain : Chain T}
    {blocks : List (CBlock T)} (run : Connected crypto params start blocks chain) :
    (prevAmount chain).toInt = (prevAmount start).toInt + (blocks.map blockFlow).sum := by
  induction run with
  | start => simp
  | connect earlier accepted attached fits indexed ih =>
    obtain ⟨hogEx, last, flows⟩ := exactFlows_of_accepts accepted attached fits
    obtain ⟨-, -, indexHogEx, first, rest, found, outputs, -, amount⟩ := indexed
    obtain ⟨first', rest', outputs', locked⟩ := flows.locked
    cases getHogEx_eq found last
    rw [outputs] at outputs'
    cases outputs'
    rw [prevAmount, amount, locked, ih]
    simp only [map_append, map_cons, map_nil, sum_append, sum_cons,
      sum_nil, blockFlow, attached, TxBody.flow]
    omega

/-- On every chain of accepted blocks the locked amount is the exact total of their
flows, and the flows of the next accepted block are exact as well. -/
theorem mwebAmount_exact {crypto : BlockCrypto T} {params : Params T} {start chain : Chain T}
    {blocks : List (CBlock T)} (run : Connected crypto params start blocks chain) :
    (prevAmount chain).toInt =
        (prevAmount start).toInt + (blocks.map blockFlow).sum ∧
      ∀ base top block mwebBlock, Accepts crypto params chain base top block →
        block.mwebBlock = some mwebBlock → mwebBlock.body.AmountsFit →
          ∃ hogEx, block.vtx.getLast? = some hogEx ∧ ExactFlows chain block mwebBlock hogEx :=
  ⟨run.runningTotal, fun _ _ _ _ accepted attached fits =>
    exactFlows_of_accepts accepted attached fits⟩

section FirstBlock

open Numeric

def firstHogEx : CTransaction types :=
  hogExTx 20 (peginTx 20 (peginKernel 20 (5, 0))) firstBlock.header

def firstIndex : CBlockIndex types where
  header := (canonicalBlock firstBlock).header
  blockHash := (canonicalBlock firstBlock).getHash Numeric.crypto
  hogexHash := firstHogEx.getHash Numeric.crypto
  mwebAmount := 20
  mwebAmount_range := by decide

/-- After the first block, which pegs in 20, the amount of 20 is locked. -/
theorem mwebAmount_firstBlock :
    Connected Numeric.crypto Numeric.params genesis [canonicalBlock firstBlock]
        (firstIndex :: genesis) ∧
      (prevAmount (firstIndex :: genesis)).toInt =
        (prevAmount genesis).toInt + ([canonicalBlock firstBlock].map blockFlow).sum ∧
      ∃ hogEx, (canonicalBlock firstBlock).vtx.getLast? = some hogEx ∧
        ExactFlows genesis (canonicalBlock firstBlock) firstBlock hogEx := by
  have fits : firstBody.AmountsFit := ⟨by decide, by decide, by decide, by decide⟩
  have run : Connected Numeric.crypto Numeric.params genesis [canonicalBlock firstBlock]
      (firstIndex :: genesis) :=
    .connect (.start genesis) canonicalBlock_firstBlock_accepted rfl fits
      ⟨rfl, rfl, firstHogEx, _, [], rfl, rfl, rfl, rfl⟩
  exact ⟨run, (mwebAmount_exact run).1, (mwebAmount_exact (.start genesis)).2 _ _ _ _
    canonicalBlock_firstBlock_accepted rfl fits⟩

end FirstBlock

end MooncoinFormal.Mweb
