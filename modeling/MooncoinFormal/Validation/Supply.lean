import MooncoinFormal.Coins.Total
import MooncoinFormal.Mweb.ExactSums
import MooncoinFormal.Validation.Restore
import MooncoinFormal.Validation.Subsidy

/-!
# The supply of coins

A connected block adds at most its subsidy to the total value of the coins: every
transaction but the coinbase brings at most what it spends less its fee, and the
coinbase claims at most fees and subsidy. All sums of amounts on the way stay in the
money range, or fit into 64 bits, and are exact.
-/

namespace MooncoinFormal.Validation

open Primitives Coins Mweb Library.Checks Connection List Except Int64 Function

variable {T : CryptoTypes}

/-- Adding the amounts one after another is exact all the way. -/
def SumsExactly (amounts : List CAmount) : Prop :=
  ∀ count, (accumulate (amounts.take count)).toInt = amountTotal (amounts.take count)

variable {start : CAmount} {amounts : List CAmount}

theorem sumsExactly_of_stays (stays : StaysInRange 0 amounts) : SumsExactly amounts := by
  intro count
  have part : StaysInRange 0 (amounts.take count) := by
    intro other
    rw [take_take]
    exact stays _
  have total := part.toInt_foldl
  rwa [toInt_zero, zero_add] at total

/-! ## Inputs and outputs of a transaction -/

def inputValues (view : CCoinsViewCache T) (tx : CTransaction T) : List CAmount :=
  (spentOutputs view tx).map CTxOut.nValue

def outputValues (tx : CTransaction T) : List CAmount := tx.vout.map CTxOut.nValue

theorem checkInputs_stays {view : CCoinsViewCache T} {nSpendHeight : Nat} {vin : List (CTxIn T)}
    {total : CAmount} (range : moneyRange start = true)
    (checked : checkInputs view nSpendHeight vin start = .ok total) :
    let values := vin.map fun txin => ((view.getCoin txin.prevout).getD Coin.cleared).out.nValue
    StaysInRange start values ∧ total = values.foldl (· + ·) start ∧
      amountTotal values = (vin.map fun txin => valueOf (view.getCoin txin.prevout)).sum := by
  induction vin generalizing start with
  | nil =>
    cases checked
    exact ⟨StaysInRange.nil_iff.mpr range, rfl, rfl⟩
  | cons txin rest ih =>
    rw [checkInputs] at checked
    cases found : view.getCoin txin.prevout with
    | none => simp [found] at checked
    | some coin =>
      simp only [found, bind_eq_ok, ensure_eq_ok] at checked
      obtain ⟨⟨⟩, -, ⟨⟩, ⟨-, inRange⟩, checked⟩ := checked
      obtain ⟨stays, sum, values⟩ := ih inRange checked
      simp only [map_cons, found, Option.getD_some]
      refine ⟨StaysInRange.cons_iff.mpr ⟨range, stays⟩, sum, ?_⟩
      simp only [amountTotal, map_cons, sum_cons] at values ⊢
      rw [values]
      rfl

variable {outputs : List CTxOut}

theorem checkOutputs_stays (range : moneyRange start = true)
    (checked : checkOutputs outputs start = .ok ()) :
    StaysInRange start (outputs.map CTxOut.nValue) := by
  induction outputs generalizing start with
  | nil => exact StaysInRange.nil_iff.mpr range
  | cons txout rest ih =>
    simp only [checkOutputs, bind_eq_ok, ensure_eq_ok] at checked
    obtain ⟨⟨⟩, -, ⟨⟩, -, ⟨⟩, inRange, checked⟩ := checked
    exact StaysInRange.cons_iff.mpr ⟨range, ih inRange checked⟩

theorem sumsExactly_outputValues {crypto : BlockCrypto T} {params : Params T} {tx : CTransaction T}
    (checked : checkTransaction crypto params tx = .ok ()) : SumsExactly (outputValues tx) := by
  simp only [checkTransaction, bind_eq_ok, ensure_eq_ok] at checked
  obtain ⟨⟨⟩, -, ⟨⟩, -, ⟨⟩, -, ⟨⟩, outputs, -⟩ := checked
  exact sumsExactly_of_stays (checkOutputs_stays moneyRange_zero outputs)

/-- The sums of a transaction and the fees after it are exact. -/
structure ExactAmounts (progress progress' : Progress T) (tx : CTransaction T) : Prop where
  inputs : SumsExactly (inputValues progress.view tx)
  fee : (accumulate (inputValues progress.view tx) - accumulate (outputValues tx)).toInt =
    amountTotal (inputValues progress.view tx) - amountTotal (outputValues tx)
  fees : progress'.nFees.toInt = progress.nFees.toInt +
    (amountTotal (inputValues progress.view tx) - amountTotal (outputValues tx))

/-! ## Transactions -/

section Transactions

variable {connection : Connection T} {progress progress' : Progress T} {tx : CTransaction T}

theorem exactAmounts_of_addFees (regular : tx.isCoinBase = false) (plain : tx.mwebTx = none)
    (range : moneyRange progress.nFees = true)
    (fees : connection.addFees progress tx = .ok progress'.nFees) :
    ExactAmounts progress progress' tx ∧ moneyRange progress'.nFees = true ∧
      amountTotal (inputValues progress.view tx) =
        ((spentOutPoints tx).map fun outpoint => valueOf (progress.view.getCoin outpoint)).sum := by
  simp only [addFees, regular, Bool.false_eq_true, if_false, bind_eq_ok, asBlock_eq_ok,
    checkTxInputs, checkMwebInputs, plain, ensure_eq_ok, ok.injEq] at fees
  obtain ⟨txfee, ⟨⟨⟩, -, nValueIn, ins, fee, amounts, rfl⟩, ⟨⟩, inRange, ⟨⟩, -, total⟩ := fees
  obtain ⟨in_stays, in_total, in_values⟩ := checkInputs_stays moneyRange_zero ins
  simp only [checkAmounts] at amounts
  cases value : tx.getValueOut with
  | none => simp [value] at amounts
  | some valueOut =>
    simp only [value, bind_eq_ok, ensure_eq_ok, ok.injEq] at amounts
    obtain ⟨⟨⟩, -, ⟨⟩, -, rfl⟩ := amounts
    obtain ⟨-, out_stays, out_total⟩ := (valueOutLoop_eq_some moneyRange_zero).mp value
    have values : inputValues progress.view tx = tx.vin.map fun txin =>
        ((progress.view.getCoin txin.prevout).getD Coin.cleared).out.nValue := by
      simp [inputValues, spentOutputs, comp_def]
    rw [← values] at in_stays in_total in_values
    have in_exact := in_stays.toInt_foldl
    have out_exact := out_stays.toInt_foldl
    rw [← in_total, toInt_zero, zero_add] at in_exact
    rw [out_total, toInt_zero, zero_add] at out_exact
    have difference := toInt_sub_of_moneyRange (in_total ▸ in_stays.range)
      (out_total ▸ out_stays.range)
    rw [in_exact, out_exact] at difference
    refine ⟨⟨sumsExactly_of_stays in_stays, ?_, ?_⟩, total ▸ inRange, ?_⟩
    · rw [accumulate, accumulate, outputValues, ← in_total, out_total]
      exact difference
    · rw [← total, toInt_add_of_moneyRange range inRange, difference]
      rfl
    · rw [in_values, spentOutPoints, regular]
      simp [comp_def]

theorem connectTx_account (accounted : progress.view.Accounted)
    (range : moneyRange progress.nFees = true) (regular : tx.isCoinBase = false)
    (plain : tx.mwebTx = none)
    (checked : checkTransaction connection.crypto connection.params tx = .ok ())
    {vprevout : List Coin} (connected : connection.connectTx progress tx =
      .ok (vprevout, progress')) :
    progress'.view.Accounted ∧ moneyRange progress'.nFees = true ∧
      ExactAmounts progress progress' tx ∧
      ∑ᶠ outpoint, progress'.view.held outpoint + progress'.nFees.toInt ≤
        ∑ᶠ outpoint, progress.view.held outpoint + progress.nFees.toInt := by
  obtain ⟨fees, -, -, updated, -⟩ := connectTx_eq_ok.mp connected
  obtain ⟨amounts, inRange, spent⟩ := exactAmounts_of_addFees regular plain range fees
  have nodup : (spentOutPoints tx).Nodup := by
    rw [spentOutPoints, regular]
    exact nodup_of_checkTransaction _ _ checked
  obtain ⟨kept, total⟩ := accounted.updateCoins plain nodup
    (nonneg_of_checkTransaction _ _ checked) updated
  refine ⟨kept, inRange, amounts, ?_⟩
  have outs : amountTotal (outputValues tx) =
      (tx.vout.map fun txout => txout.nValue.toInt).sum := by
    simp [amountTotal, outputValues, comp_def]
  rw [amounts.fees, outs, spent]
  omega

/-- Every transaction of a run but the coinbase has exact amounts. -/
def ExactRun (connection : Connection T) : Progress T → List (CTransaction T) → Prop
  | _, [] => True
  | progress, tx :: rest => ∀ vprevout progress',
      connection.connectTx progress tx = .ok (vprevout, progress') →
        (tx.isCoinBase = false → ExactAmounts progress progress' tx) ∧
          ExactRun connection progress' rest

theorem connectTxs_account {vtx : List (CTransaction T)} (accounted : progress.view.Accounted)
    (range : moneyRange progress.nFees = true) (regular : ∀ tx ∈ vtx, tx.isCoinBase = false)
    (plain : ∀ tx ∈ vtx, tx.mwebTx = none)
    (checked : ∀ tx ∈ vtx, checkTransaction connection.crypto connection.params tx = .ok ())
    {vtxundo : List (List Coin)} (connected : connection.connectTxs progress vtx =
      .ok (vtxundo, progress')) :
    progress'.view.Accounted ∧ moneyRange progress'.nFees = true ∧
      ExactRun connection progress vtx ∧
      ∑ᶠ outpoint, progress'.view.held outpoint + progress'.nFees.toInt ≤
        ∑ᶠ outpoint, progress.view.held outpoint + progress.nFees.toInt := by
  induction vtx generalizing progress vtxundo with
  | nil =>
    cases connected
    exact ⟨accounted, range, trivial, le_rfl⟩
  | cons tx rest ih =>
    obtain ⟨vprevout, middle, later, first, others, -⟩ := connectTxs_cons.mp connected
    obtain ⟨kept, inRange, amounts, total⟩ := connectTx_account accounted range
      (regular tx mem_cons_self) (plain tx mem_cons_self)
      (checked tx mem_cons_self) first
    obtain ⟨kept', inRange', run, total'⟩ := ih kept inRange
      (forall_mem_cons.mp regular).2 (forall_mem_cons.mp plain).2
      (forall_mem_cons.mp checked).2 others
    refine ⟨kept', inRange', ?_, total'.trans total⟩
    intro vprevout' middle' again
    rw [first] at again
    cases again
    exact ⟨fun _ => amounts, run⟩

theorem connectCoinbase_account (accounted : progress.view.Accounted)
    (coinbase : tx.isCoinBase = true) (plain : tx.mwebTx = none)
    (checked : checkTransaction connection.crypto connection.params tx = .ok ())
    {vprevout : List Coin} (connected : connection.connectTx progress tx =
      .ok (vprevout, progress')) :
    progress'.view.Accounted ∧ progress'.nFees = progress.nFees ∧
      ∑ᶠ outpoint, progress'.view.held outpoint ≤
        ∑ᶠ outpoint, progress.view.held outpoint + valueTotal tx.vout := by
  obtain ⟨fees, -, -, updated, -⟩ := connectTx_eq_ok.mp connected
  simp only [addFees, coinbase, if_true, ok.injEq] at fees
  have nothing : spentOutPoints tx = [] := by simp [spentOutPoints, coinbase]
  obtain ⟨kept, total⟩ := accounted.updateCoins plain (by rw [nothing]; exact nodup_nil)
    (nonneg_of_checkTransaction _ _ checked) updated
  refine ⟨kept, fees.symm, ?_⟩
  rw [nothing] at total
  simpa [valueTotal] using total

end Transactions

/-! ## Blocks -/

theorem totalValue_congr {view view' : CCoinsViewCache T} (base : view'.base = view.base)
    (cached : view'.cacheCoins = view.cacheCoins) : view'.totalValue = view.totalValue :=
  finsum_congr fun _ => congrArg valueOf (CCoinsViewCache.getCoin_congr base cached)

/-- A connected block adds at most its subsidy to the coins, and no sum of amounts overflows
on the way: those of each transaction, the fees and the reward. -/
theorem totalValue_connectBlock {connection : Connection T} {view view' : CCoinsViewCache T}
    {block : CBlock T} {undo : Option (CBlockUndo T)} {rules : SubsidyRules T.Hash}
    (subsidy : connection.params.getBlockSubsidy = rules.getBlockSubsidy)
    (coherent : view.Coherent) (finite : {outpoint | view.getCoin outpoint ≠ none}.Finite)
    (range : ∀ outpoint coin, view.getCoin outpoint = some coin → moneyRange coin.out.nValue = true)
    (connected : connection.connectBlock view block = .ok (undo, view')) :
    view'.totalValue ≤ view.totalValue +
        (rules.getBlockSubsidy connection.chain.nextHeight block.header.hashPrevBlock).toInt ∧
      (∀ tx ∈ block.vtx, SumsExactly (outputValues tx)) ∧
      (undo ≠ none → ExactRun connection ⟨view, 0, 0⟩ block.vtx ∧
        ∀ vtxundo progress, connection.connectTxs ⟨view, 0, 0⟩ block.vtx = .ok (vtxundo, progress) →
          (progress.nFees + rules.getBlockSubsidy connection.chain.nextHeight
              block.header.hashPrevBlock).toInt =
            progress.nFees.toInt + (rules.getBlockSubsidy connection.chain.nextHeight
              block.header.hashPrevBlock).toInt) := by
  obtain ⟨low, high⟩ := rules.getBlockSubsidy_bounds connection.chain.nextHeight
    block.header.hashPrevBlock
  obtain ⟨accounted, start⟩ := coherent.accounted finite range
  cases undo with
  | none =>
    -- the outputs of the genesis block are not added
    simp only [connectBlock, bind_eq_ok, ensure_eq_ok, recheck_eq_ok] at connected
    obtain ⟨⟨⟩, checked, ⟨⟩, -, connected⟩ := connected
    split at connected
    · simp only [ok.injEq, Prod.mk.injEq, true_and] at connected
      subst connected
      refine ⟨?_, fun tx member => sumsExactly_outputValues (checked.txs tx member),
        fun absent => absurd rfl absent⟩
      have same : CCoinsViewCache.totalValue { view with
          hashBlock := block.getHash connection.crypto } = view.totalValue :=
            totalValue_congr rfl rfl
      omega
    · simp only [bind_eq_ok, ok.injEq, Prod.mk.injEq, reduceCtorEq, false_and, and_false,
        exists_false] at connected
  | some undo =>
    obtain ⟨checked, -, -, result⟩ := connectBlock_eq_ok.mp connected
    obtain ⟨vtxundo, progress, mwundo, mwebView, parts, -, rfl⟩ :=
      connectFrom_eq_ok.mp result
    obtain ⟨coinbase, rest, vtx, isCoinbase, others⟩ := checked.coinbase
    obtain ⟨vprevout, middle, later, first, run, -⟩ := connectTxs_cons.mp (vtx ▸ parts.txs)
    obtain ⟨kept, noFees, claimed⟩ := connectCoinbase_account accounted isCoinbase
      (checked.plain coinbase (vtx ▸ mem_cons_self))
      (checked.txs coinbase (vtx ▸ mem_cons_self)) first
    obtain ⟨final, feeRange, exact_run, spent⟩ := connectTxs_account kept
      (by rw [noFees]; exact moneyRange_zero) others
      (fun tx member => checked.plain tx (vtx ▸ mem_cons_of_mem _ member))
      (fun tx member => checked.txs tx (vtx ▸ mem_cons_of_mem _ member)) run
    have reward_exact : (progress.nFees + rules.getBlockSubsidy connection.chain.nextHeight
        block.header.hashPrevBlock).toInt = progress.nFees.toInt +
          (rules.getBlockSubsidy connection.chain.nextHeight block.header.hashPrevBlock).toInt := by
      have bounds := (moneyRange_iff _).mp feeRange
      rw [toInt_add, Int.bmod_def]
      split <;> omega
    refine ⟨?_, fun tx member => sumsExactly_outputValues (checked.txs tx member),
      fun _ => ⟨?_, ?_⟩⟩
    · have reward := parts.reward
      simp only [checkReward, vtx, List.head?_cons, Option.bind_some] at reward
      cases value : coinbase.getValueOut with
      | none => simp [value] at reward
      | some valueOut =>
        simp only [value, ensure_eq_ok, subsidy] at reward
        obtain ⟨-, exact_out, -⟩ := valueOutLoop_exact moneyRange_zero value
        rw [toInt_zero, zero_add] at exact_out
        rw [le_iff_toInt_le, reward_exact, exact_out] at reward
        have below := final.totalValue_le
        have same : CCoinsViewCache.totalValue { progress.view with
            hashBlock := block.getHash connection.crypto
            mwebView := mwebView } = progress.view.totalValue := totalValue_congr rfl rfl
        rw [noFees] at spent
        simp only [toInt_zero] at spent
        simp only [start] at claimed
        omega
    · rw [vtx]
      intro vprevout' middle' again
      rw [first] at again
      cases again
      exact ⟨fun regular => absurd (regular.symm.trans isCoinbase) Bool.false_ne_true, exact_run⟩
    · intro vtxundo' progress' again
      rw [parts.txs] at again
      cases again
      exact reward_exact

end MooncoinFormal.Validation

namespace MooncoinFormal.Primitives.Numeric

open Coins Validation List

def largestSubsidy : SubsidyRules Nat := ⟨.exact, .largest, fun _ => 0⟩

/-- The connection of the spending block, under the subsidy of the coin. -/
def payingConnection : Connection types :=
  connectionAt 7 seven_lt_height
    { plainParams with getBlockSubsidy := largestSubsidy.getBlockSubsidy }

theorem viewOf_finite {coins : List (COutPoint types × Coin)}
    {valid : ∀ entry ∈ coins, entry.2.Valid} :
    {outpoint | (viewOf coins valid).getCoin outpoint ≠ none}.Finite := by
  refine (finite_toSet (coins.map Prod.fst)).subset fun outpoint present => ?_
  obtain ⟨coin, found⟩ := Option.ne_none_iff_exists'.mp present
  exact mem_map.mpr ⟨_, mem_of_viewOf_getCoin found, rfl⟩

/-- The block that spends one coin, with the coin that it finds. -/
theorem totalValue_spendingBlock : ∃ undo view',
    payingConnection.connectBlock (paidView false) spendingBlock = .ok (undo, view') ∧
      view'.totalValue ≤ (paidView false).totalValue +
        (largestSubsidy.getBlockSubsidy 7 (0 : Nat)).toInt := by
  have succeeds : (payingConnection.connectBlock (paidView false) spendingBlock).isOk = true := by
    decide +kernel
  obtain ⟨⟨undo, view'⟩, connected⟩ := Library.Checks.exists_of_isOk succeeds
  refine ⟨undo, view', connected, ?_⟩
  have range : ∀ outpoint coin, (paidView false).getCoin outpoint = some coin →
      moneyRange coin.out.nValue = true := by
    intro outpoint coin found
    cases mem_singleton.mp (mem_of_viewOf_getCoin found)
    decide
  exact (totalValue_connectBlock rfl viewOf_coherent viewOf_finite range connected).1

end MooncoinFormal.Primitives.Numeric
