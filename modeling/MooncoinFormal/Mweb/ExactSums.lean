import Mathlib
import MooncoinFormal.Mweb.Amounts
import MooncoinFormal.Validation.CheckBlock

/-!
# Sums of the kernels' amounts

Amounts of a kernel are read as non-negative 64-bit integers and added without a
range check. In an accepted block the peg-outs are outputs of the HogEx and the
peg-ins are outputs of the block, which bounds both; the fees are compared with the
HogEx only after they were added. So every sum is exact when the fees stay within
the money limit, and fees that wrap around are accepted.
-/

namespace MooncoinFormal.Mweb

open Primitives Validation Library.Checks List Function PegInCoin Numeric Int64

variable {T : CryptoTypes}

variable {amounts : List CAmount}

theorem accumulate_toInt (low : -2 ^ 63 ≤ amountTotal amounts)
    (high : amountTotal amounts < 2 ^ 63) : (accumulate amounts).toInt = amountTotal amounts := by
  rw [accumulate_eq]
  exact toInt_ofInt_of_le low high

theorem amountTotal_of_sublist {part whole : List CAmount} (sublist : part.Sublist whole)
    (nonneg : ∀ amount ∈ whole, 0 ≤ amount.toInt) :
    0 ≤ amountTotal part ∧ amountTotal part ≤ amountTotal whole := by
  have values : ∀ value ∈ whole.map toInt, 0 ≤ value := forall_mem_map.mpr nonneg
  have inside := sublist.map toInt
  exact ⟨sum_nonneg fun value member => values value (inside.subset member),
    inside.sum_le_sum values⟩

theorem le_amountTotal {amount : CAmount} (member : amount ∈ amounts)
    (nonneg : ∀ amount ∈ amounts, 0 ≤ amount.toInt) :
    0 ≤ amount.toInt ∧ amount.toInt ≤ amountTotal amounts := by
  have part := amountTotal_of_sublist (singleton_sublist.mpr member) nonneg
  simpa [amountTotal] using part

/-! ## Bodies as they are read -/

namespace TxBody

variable (body : TxBody T)

/-- The body with its first kernels only, as the loops over the kernels see it. -/
def upTo (count : Nat) : TxBody T := { body with kernels := body.kernels.take count }

/-- No amount of a kernel is negative, since all are read in the mode `NONNEGATIVE_SIGNED`. -/
structure Nonnegative (body : TxBody T) : Prop where
  fees : ∀ kernel ∈ body.kernels, 0 ≤ kernel.getFee.toInt
  pegins : ∀ kernel ∈ body.kernels, 0 ≤ kernel.getPegIn.toInt
  pegouts : ∀ pegout ∈ body.getPegOuts, 0 ≤ pegout.amount.toInt

/-- Every sum of amounts is exact after every kernel, and within every kernel. -/
structure ExactSums (body : TxBody T) : Prop where
  fees : ∀ count, (body.upTo count).getTotalFee.toInt = (body.upTo count).feeTotal
  pegins : ∀ count, (body.upTo count).getPegInAmount.toInt = (body.upTo count).peginTotal
  supply : ∀ count, (body.upTo count).getSupplyChange.toInt = (body.upTo count).flow
  difference : ∀ kernel ∈ body.kernels,
    (kernel.getPegIn - kernel.getFee).toInt = kernel.getPegIn.toInt - kernel.getFee.toInt
  pegouts : ∀ kernel ∈ body.kernels, ∀ count,
    (accumulate ((kernel.pegouts.take count).map PegOutCoin.amount)).toInt =
      amountTotal ((kernel.pegouts.take count).map PegOutCoin.amount)
  change : ∀ kernel ∈ body.kernels, kernel.getSupplyChange.toInt =
    kernel.getPegIn.toInt - kernel.getFee.toInt - amountTotal (kernel.pegouts.map PegOutCoin.amount)

variable {body : TxBody T}

theorem upTo_length : body.upTo body.kernels.length = body := by
  simp [upTo]

theorem feeTotal_eq : body.feeTotal = amountTotal (body.kernels.map Kernel.getFee) := by
  simp [feeTotal, amountTotal, comp_def]

theorem peginTotal_eq : body.peginTotal = amountTotal (body.kernels.map Kernel.getPegIn) := by
  simp [peginTotal, amountTotal, comp_def]

theorem pegoutTotal_eq :
    body.pegoutTotal = amountTotal (body.getPegOuts.map PegOutCoin.amount) := by
  simp [pegoutTotal, amountTotal, comp_def]

theorem Nonnegative.upTo_bounds (nonneg : body.Nonnegative) (count : Nat) :
    (0 ≤ (body.upTo count).feeTotal ∧ (body.upTo count).feeTotal ≤ body.feeTotal) ∧
      (0 ≤ (body.upTo count).peginTotal ∧ (body.upTo count).peginTotal ≤ body.peginTotal) ∧
      0 ≤ (body.upTo count).pegoutTotal ∧ (body.upTo count).pegoutTotal ≤ body.pegoutTotal := by
  have part : (body.upTo count).kernels.Sublist body.kernels := take_sublist _ _
  have pegouts : (body.upTo count).getPegOuts.Sublist body.getPegOuts := by
    have split : body.getPegOuts =
        (body.upTo count).getPegOuts ++ (body.kernels.drop count).flatMap Kernel.pegouts := by
      rw [getPegOuts, getPegOuts, upTo, ← flatMap_append, take_append_drop]
    rw [split]
    exact sublist_append_left _ _
  simp only [feeTotal_eq, peginTotal_eq, pegoutTotal_eq]
  exact ⟨amountTotal_of_sublist (part.map _) (forall_mem_map.mpr nonneg.fees),
    amountTotal_of_sublist (part.map _) (forall_mem_map.mpr nonneg.pegins),
    amountTotal_of_sublist (pegouts.map _) (forall_mem_map.mpr nonneg.pegouts)⟩

theorem Nonnegative.exactSums (nonneg : body.Nonnegative) (fees : body.feeTotal ≤ maxMoney.toInt)
    (pegins : body.peginTotal < 2 ^ 63) (pegouts : body.pegoutTotal ≤ maxMoney.toInt) :
    body.ExactSums := by
  rw [maxMoney_toInt] at fees pegouts
  -- what one kernel holds is part of the totals
  have kernel_bounds : ∀ kernel ∈ body.kernels,
      (0 ≤ kernel.getFee.toInt ∧ kernel.getFee.toInt ≤ body.feeTotal) ∧
        0 ≤ kernel.getPegIn.toInt ∧ kernel.getPegIn.toInt ≤ body.peginTotal := by
    intro kernel member
    rw [feeTotal_eq, peginTotal_eq]
    exact ⟨le_amountTotal (mem_map_of_mem member) (forall_mem_map.mpr nonneg.fees),
      le_amountTotal (mem_map_of_mem member) (forall_mem_map.mpr nonneg.pegins)⟩
  have kernel_pegouts : ∀ kernel ∈ body.kernels, ∀ count,
      0 ≤ amountTotal ((kernel.pegouts.take count).map PegOutCoin.amount) ∧
        amountTotal ((kernel.pegouts.take count).map PegOutCoin.amount) ≤ body.pegoutTotal := by
    intro kernel member count
    have part : (kernel.pegouts.take count).Sublist body.getPegOuts :=
      (take_sublist _ _).trans (sublist_flatten_of_mem (mem_map_of_mem member))
    rw [pegoutTotal_eq]
    exact amountTotal_of_sublist (part.map _) (forall_mem_map.mpr nonneg.pegouts)
  have difference : ∀ kernel ∈ body.kernels,
      (kernel.getPegIn - kernel.getFee).toInt = kernel.getPegIn.toInt - kernel.getFee.toInt := by
    intro kernel member
    have bounds := kernel_bounds kernel member
    rw [toInt_sub, Int.bmod_eq_of_le] <;> omega
  refine ⟨?_, ?_, ?_, difference, ?_, ?_⟩
  · intro count
    obtain ⟨⟨low, high⟩, -⟩ := nonneg.upTo_bounds count
    rw [feeTotal_eq] at low high ⊢
    exact accumulate_toInt (by omega) (by omega)
  · intro count
    obtain ⟨-, ⟨low, high⟩, -⟩ := nonneg.upTo_bounds count
    rw [peginTotal_eq] at low high ⊢
    exact accumulate_toInt (by omega) (by omega)
  · intro count
    obtain ⟨⟨fee_low, fee_high⟩, ⟨in_low, in_high⟩, out_low, out_high⟩ := nonneg.upTo_bounds count
    refine getSupplyChange_toInt ⟨by omega, by omega, ?_, ?_⟩ <;> rw [flow] <;> omega
  · intro kernel member count
    obtain ⟨low, high⟩ := kernel_pegouts kernel member count
    exact accumulate_toInt (by omega) (by omega)
  · intro kernel member
    obtain ⟨low, high⟩ := kernel_pegouts kernel member kernel.pegouts.length
    have bounds := kernel_bounds kernel member
    rw [take_length] at low high
    rw [Kernel.getSupplyChange_eq]
    simp only [amountTotal, map_map, comp_def] at low high ⊢
    exact toInt_ofInt_of_le (by omega) (by omega)

end TxBody

/-! ## What accepted blocks bound -/

section Accepted

variable {crypto : BlockCrypto T} {params : Params T} {chain : Chain T} {block : CBlock T}
  {mwebBlock : Block T} {hogEx : CTransaction T}

section

variable (checked : Node.checkHogExAmounts chain block hogEx mwebBlock = .ok ())
include checked

theorem checkHogExAmounts_bounds :
    moneyRange mwebBlock.body.getTotalFee = true ∧
      valueTotal (hogEx.vout.drop 1) ≤ maxMoney.toInt ∧
      valueTotal (peginOutputs block) ≤ maxMoney.toInt := by
  obtain ⟨inputAmount, valueOut, first, rest, outputs, ⟨inputRange, exact_input⟩,
    ⟨outRange, exact_out, range⟩, ⟨feeRange, fee⟩, -⟩ := checkHogExAmounts_eq_ok checked
  have prevRange := prevAmount_range chain
  rw [moneyRange_iff] at inputRange prevRange outRange range
  rw [maxMoney_toInt, outputs, drop_one, tail_cons]
  exact ⟨fee ▸ feeRange, by omega, by omega⟩

theorem pegoutTotal_le (pegouts : (hogexPegouts hogEx).Perm mwebBlock.body.getPegOuts) :
    mwebBlock.body.pegoutTotal ≤ maxMoney.toInt := by
  have paid := (checkHogExAmounts_bounds checked).2.1
  rw [TxBody.pegoutTotal, ← (pegouts.map fun pegout => pegout.amount.toInt).sum_eq]
  simpa [hogexPegouts, valueTotal, comp_def] using paid

end

theorem mem_of_lookup_pegInAmounts {coins : List (PegInCoin T)} {id : T.Hash} {amount : CAmount}
    (found : (pegInAmounts coins).lookup id = some amount) : ⟨amount, id⟩ ∈ coins := by
  induction coins using reverseRecOn with
  | nil => simp [pegInAmounts] at found
  | append_singleton coins coin ih =>
    rw [pegInAmounts, foldl_append] at found
    simp only [foldl_cons, foldl_nil] at found
    rw [mem_append, mem_singleton]
    split at found
    · exact .inl (ih found)
    · by_cases same : id = coin.kernelID
      · subst same
        rw [AList.lookup_insert, Option.some.injEq] at found
        exact .inr (by rw [← found])
      · rw [AList.lookup_insert_ne same] at found
        exact .inl (ih found)

theorem peginTotal_eq_getPegIns (crypto : Crypto T) (body : TxBody T) :
    body.peginTotal = amountTotal ((body.getPegIns crypto).map amount) := by
  rw [TxBody.peginTotal, TxBody.getPegIns, amountTotal]
  induction body.kernels with
  | nil => rfl
  | cons kernel rest ih =>
    cases pegin : kernel.pegin with
    | none => simpa [Kernel.getPegIn, pegin] using ih
    | some amount => simpa [Kernel.getPegIn, pegin] using ih

theorem peginIDs_sublist (crypto : Crypto T) (body : TxBody T) :
    ((body.getPegIns crypto).map kernelID).Sublist (body.getKernelIDs crypto) := by
  rw [TxBody.getPegIns, TxBody.getKernelIDs, map_filterMap]
  induction body.kernels with
  | nil => exact List.Sublist.slnil
  | cons kernel rest ih =>
    cases pegin : kernel.pegin with
    | none => simpa [pegin] using ih.cons _
    | some amount => simpa [pegin] using ih

def outputPegins (vout : List CTxOut) : List (PegInCoin T) :=
  vout.filterMap fun txout =>
    txout.scriptPubKey.isMwebPegin.map fun kernelId => ⟨txout.nValue, T.hashOfBytes kernelId⟩

theorem outputPegins_amounts (vout : List CTxOut) :
    (outputPegins vout : List (PegInCoin T)).map amount =
      (vout.filter isPegin).map CTxOut.nValue := by
  unfold outputPegins
  induction vout with
  | nil => rfl
  | cons txout rest ih =>
    cases pegin : txout.scriptPubKey.isMwebPegin with
    | none => simpa [isPegin, pegin] using ih
    | some kernelId => simpa [isPegin, pegin] using ih

theorem blockPegins_amounts (block : CBlock T) :
    (blockPegins block).map amount = (peginOutputs block).map CTxOut.nValue := by
  rw [blockPegins, peginOutputs, map_flatMap, map_flatMap]
  exact congrArg (flatMap · _) (funext fun tx => outputPegins_amounts tx.vout)

theorem peginTotal_le (validated : validateBlock crypto.toCrypto mwebBlock (blockPegins block)
      (hogexPegouts hogEx) = .ok ())
    (nonneg : ∀ txout ∈ peginOutputs block, 0 ≤ txout.nValue.toInt) :
    mwebBlock.body.peginTotal ≤ valueTotal (peginOutputs block) := by
  simp only [validateBlock, validatePegInCoins, Block.validate, TxBody.validate, bind_eq_ok,
    ensure_eq_ok, ensureAll_eq_ok] at validated
  obtain ⟨⟨⟩, ⟨⟨⟩, -, ⟨⟩, ⟨⟨⟩, -, ⟨⟩, -, ⟨⟩, -, ⟨⟩, -, ⟨⟩, kernelIDs, -⟩, -⟩, ⟨⟩,
      ⟨⟨⟩, -, lookups⟩, -⟩ :=
    validated
  have distinct : (mwebBlock.body.getPegIns crypto.toCrypto).Nodup :=
    List.Nodup.of_map PegInCoin.kernelID (kernelIDs.sublist (peginIDs_sublist _ _))
  obtain ⟨part, same, sublist⟩ := subperm_of_subset distinct
    fun pegin member => mem_of_lookup_pegInAmounts (lookups pegin member)
  have amounts : ∀ amount ∈ (blockPegins block).map PegInCoin.amount, 0 ≤ amount.toInt := by
    rw [blockPegins_amounts]
    exact forall_mem_map.mpr nonneg
  have total : amountTotal ((blockPegins block).map amount) = valueTotal (peginOutputs block) := by
    rw [blockPegins_amounts, amountTotal, valueTotal, map_map]
    rfl
  rw [peginTotal_eq_getPegIns crypto.toCrypto, ← total]
  calc amountTotal ((mwebBlock.body.getPegIns crypto.toCrypto).map amount)
      = amountTotal (part.map amount) := (((same.map _).map _).sum_eq).symm
    _ ≤ amountTotal ((blockPegins block).map amount) :=
        (amountTotal_of_sublist (sublist.map _) amounts).2

theorem nonneg_of_checkedBlock (checked : CheckedBlock crypto params block) :
    ∀ txout ∈ peginOutputs block, 0 ≤ txout.nValue.toInt := by
  intro txout member
  obtain ⟨tx, middle, inside⟩ := mem_flatMap.mp member
  have passes := checked.txs tx (dropLast_subset _ (mem_of_mem_drop middle))
  exact nonneg_of_checkTransaction _ _ passes txout (mem_of_mem_filter inside)

/-- The sums of an accepted block are exact when its fees stay within the money limit and its
peg-ins within 64 bits; the latter is so for every block that passes `CheckBlock`. -/
theorem exactSums_iff {base : ICoinsView T} {top : CoinsViewCache T}
    (accepted : Accepts crypto params chain base top block)
    (attached : block.mwebBlock = some mwebBlock) (nonneg : mwebBlock.body.Nonnegative) :
    (mwebBlock.body.ExactSums ↔
        mwebBlock.body.feeTotal ≤ maxMoney.toInt ∧ mwebBlock.body.peginTotal < 2 ^ 63) ∧
      (checkBlock crypto params block = .ok () →
        (mwebBlock.body.ExactSums ↔ mwebBlock.body.feeTotal ≤ maxMoney.toInt)) := by
  obtain ⟨checked, undo, top', connected⟩ := accepted
  obtain ⟨-, hogEx, valid⟩ := (Node.contextualCheckBlock_eq_ok attached).mp checked
  obtain ⟨⟨-, amounts⟩, -⟩ := (Node.connectBlock_eq_ok attached valid.last).mp connected
  obtain ⟨range, -, pegins⟩ := checkHogExAmounts_bounds amounts
  have pegouts := pegoutTotal_le amounts (hogexPegouts_perm valid.validated)
  have exact_iff : mwebBlock.body.ExactSums ↔
      mwebBlock.body.feeTotal ≤ maxMoney.toInt ∧ mwebBlock.body.peginTotal < 2 ^ 63 := by
    constructor
    · intro sums
      have fees := sums.fees mwebBlock.body.kernels.length
      have total := sums.pegins mwebBlock.body.kernels.length
      rw [TxBody.upTo_length] at fees total
      rw [moneyRange_iff, fees] at range
      rw [maxMoney_toInt, ← total]
      exact ⟨range.2, toInt_lt _⟩
    · rintro ⟨fees, total⟩
      exact nonneg.exactSums fees total pegouts
  refine ⟨exact_iff, fun passed => exact_iff.trans (and_iff_left ?_)⟩
  have outputs := nonneg_of_checkedBlock (checkBlock_eq_ok.mp passed)
  have total := peginTotal_le valid.validated outputs
  rw [maxMoney_toInt] at pegins
  omega

end Accepted

/-! ## Blocks whose sums are exact and not -/

/-- The sums of the first block are exact. -/
theorem exactSums_firstBlock :
    Accepts crypto params genesis emptyView emptyCache
        (canonicalBlock firstBlock) ∧ firstBlock.body.Nonnegative ∧ firstBlock.body.ExactSums := by
  have nonneg : firstBlock.body.Nonnegative := ⟨by decide, by decide, by decide⟩
  have limits := exactSums_iff canonicalBlock_firstBlock_accepted rfl nonneg
  exact ⟨canonicalBlock_firstBlock_accepted, nonneg, limits.1.mpr (by decide)⟩

end MooncoinFormal.Mweb

namespace MooncoinFormal.Primitives.Numeric

open Mweb

theorem fee_announced (fee : CAmount) : (some fee).isSome = hasFeature 1 0 := rfl

/-- A kernel that only pays a fee, signed with its excess. -/
def feeKernel (fee : CAmount) (excess : Int × Int) : Kernel types :=
  let unsigned : Kernel types :=
    { features := 1
      fee := some fee
      pegin := none
      pegouts := []
      lockHeight := none
      stealthExcess := none
      extraData := []
      excess := excess
      signature := (0 : Nat)
      fee_iff := fee_announced fee
      pegin_iff := by decide
      pegouts_of := absurd rfl
      lockHeight_iff := by decide
      stealthExcess_iff := by decide
      extraData_of := absurd rfl }
  { unsigned with signature := sign excess (crypto.kernelMessage unsigned) }

/-- Four fees of `2 ^ 62` beside a peg-in. -/
def feeBody : TxBody types where
  inputs := []
  outputs := [keptOutput]
  kernels := [peginKernel 20 (1, 0), feeKernel 4611686018427387904 (1, 0),
    feeKernel 4611686018427387904 (2, 0), feeKernel 4611686018427387904 (-2, 0),
    feeKernel 4611686018427387904 (3, 0)]

def feeBlock : Block types where
  header := { headerOf feeBody fun i => decide (i = 0) with stealthOffset := (2 : Int) }
  body := feeBody

end MooncoinFormal.Primitives.Numeric

namespace MooncoinFormal.Mweb

open Primitives Numeric

/-- Four fees of `2 ^ 62` add up to zero, and the block is accepted. -/
theorem fees_wrap_around :
    Accepts crypto params genesis emptyView emptyCache
        (canonicalBlock feeBlock) ∧
      feeBlock.body.Nonnegative ∧
      feeBlock.body.getTotalFee = 0 ∧ feeBlock.body.feeTotal = 2 ^ 64 ∧
      ¬ feeBlock.body.ExactSums := by
  have wrapped : feeBlock.body.getTotalFee = 0 := by decide
  have total : feeBlock.body.feeTotal = 2 ^ 64 := by decide
  refine ⟨accepts_canonicalBlock (by decide +kernel) (by decide +kernel),
    ⟨by decide, by decide, by decide⟩, wrapped, total, ?_⟩
  intro sums
  have fees := sums.fees 5
  exact absurd fees (by decide)

end MooncoinFormal.Mweb
