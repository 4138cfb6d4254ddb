import Mathlib
import MooncoinFormal.Mweb.FirstBlock

/-!
# Loose transactions and their aggregate

`mw::Transaction` with its validation, and `Aggregation::Aggregate`: the bodies of several
transactions are joined and sorted and their offsets are added up, while one transaction alone is
taken as it stands. The aggregate of valid transactions is valid when nothing occurs in two of them,
it is not too large, and none of the sums over all of them is infinity.
-/

namespace MooncoinFormal.Mweb

open Primitives Library.Checks List TxBody Weight Int64

variable {T : CryptoTypes} (crypto : Crypto T)

/-! ## Sorting -/

section Sorting

variable {α : Type} {less : α → α → Bool}

def sort (less : α → α → Bool) (items : List α) : List α :=
  items.insertionSort fun first second => less second first = false

/-- A strict weak order, which `std::sort` asks for. -/
structure StrictWeak (less : α → α → Bool) : Prop where
  asymm : ∀ first second, less first second = true → less second first = false
  trans : ∀ first second third, less second first = false → less third second = false →
    less third first = false

theorem isSorted_of_pairwise {items : List α}
    (ordered : items.Pairwise fun first second => less second first = false) :
    isSorted less items = true := by
  induction ordered with
  | nil => rfl
  | @cons first rest before _ ih =>
    cases rest with
    | nil => rfl
    | cons second others =>
      rw [isSorted, before second mem_cons_self, ih]
      rfl

theorem pairwise_sort (order : StrictWeak less) (items : List α) :
    (sort less items).Pairwise fun first second => less second first = false := by
  have total : Std.Total fun first second => less second first = false := by
    refine ⟨fun first second => ?_⟩
    cases above : less second first with
    | false => exact .inl rfl
    | true => exact .inr (order.asymm second first above)
  have trans : IsTrans α fun first second => less second first = false := ⟨order.trans⟩
  exact pairwise_insertionSort _ items

theorem isSorted_sort (order : StrictWeak less) (items : List α) :
    isSorted less (sort less items) = true :=
  isSorted_of_pairwise (pairwise_sort order items)

theorem sort_perm (items : List α) : (sort less items).Perm items :=
  perm_insertionSort _ items

variable {κ : Type} [LinearOrder κ] {key : α → κ}
  (keyed : ∀ first second, less first second = decide (key first < key second))
include keyed

theorem strictWeak_of_key : StrictWeak less where
  asymm first second below := by
    rw [keyed, decide_eq_true_eq] at below
    rw [keyed, decide_eq_false_iff_not]
    exact below.asymm
  trans first second third low high := by
    rw [keyed, decide_eq_false_iff_not, not_lt] at low high ⊢
    exact low.trans high

theorem sort_congr {items others : List α} (same : items.Perm others)
    (nodup : (items.map key).Nodup) : sort less items = sort less others := by
  have order := strictWeak_of_key keyed
  have sorted : (sort less items).Perm (sort less others) :=
    (sort_perm items).trans (same.trans (sort_perm others).symm)
  refine sorted.eq_of_pairwise (fun a b first second below above => ?_)
    (pairwise_sort order items) (pairwise_sort order others)
  rw [keyed, decide_eq_false_iff_not, not_lt] at below above
  exact inj_on_of_nodup_map nodup ((sort_perm items).mem_iff.mp first)
    ((sort_perm items).mem_iff.mp (sorted.mem_iff.mpr second)) (le_antisymm below above)

end Sorting

theorem inputSort_key (first second : Input T) :
    inputSort first second = decide (first.outputID < second.outputID) := rfl

theorem outputSort_key (first second : Output T) : outputSort crypto first second =
    decide (crypto.hashOutput first < crypto.hashOutput second) := rfl

/-- Kernels with a larger supply change come first. -/
def kernelKey (kernel : Kernel T) : Int ×ₗ T.Hash :=
  toLex (-kernel.getSupplyChange.toInt, crypto.hashKernel kernel)

theorem kernelSort_key (first second : Kernel T) : kernelSort crypto first second =
    decide (kernelKey crypto first < kernelKey crypto second) := by
  simp [kernelSort, kernelKey, Prod.Lex.toLex_lt_toLex, lt_iff_toInt_lt, ← toInt_inj]

/-! ## Transactions -/

variable (positive : List T.Scalar)

/-- `Pedersen::AddBlindingFactors` without negative ones: zeros are left out. -/
def addBlindingFactors : T.Scalar :=
  (positive.filter (· ≠ 0)).sum

theorem addBlindingFactors_eq : addBlindingFactors positive = positive.sum := by
  induction positive with
  | nil => rfl
  | cons blind rest ih =>
    unfold addBlindingFactors at ih ⊢
    by_cases zero : blind = 0
    · rw [filter_cons_of_neg (by simp [zero]), ih, sum_cons, zero, zero_add]
    · rw [filter_cons_of_pos (by simp [zero]), sum_cons, ih, sum_cons]

namespace Transaction

def create (kernelOffset stealthOffset : T.Scalar) (inputs : List (Input T))
    (outputs : List (Output T)) (kernels : List (Kernel T)) : Transaction T where
  kernelOffset := kernelOffset
  stealthOffset := stealthOffset
  body := ⟨sort inputSort inputs, sort (outputSort crypto) outputs,
    sort (kernelSort crypto) kernels⟩

variable (transaction : Transaction T)

def validateForTx : MwResult Unit :=
  validateSums crypto transaction.body.getInputCommits transaction.body.getOutputCommits
    transaction.body.getKernelCommits transaction.kernelOffset transaction.body.getSupplyChange

def validate : MwResult Unit := do
  transaction.body.validate crypto
  transaction.validateForTx crypto
  validateStealthSums crypto transaction.stealthOffset transaction.body

variable (transactions : List (Transaction T))

/-- The transactions one after another, with their offsets added up. -/
def join : Transaction T where
  kernelOffset := addBlindingFactors (transactions.map kernelOffset)
  stealthOffset := addBlindingFactors (transactions.map stealthOffset)
  body := {
    inputs := transactions.flatMap fun transaction => transaction.body.inputs
    outputs := transactions.flatMap fun transaction => transaction.body.outputs
    kernels := transactions.flatMap fun transaction => transaction.body.kernels }

def aggregate : List (Transaction T) → Transaction T
  | [] => ⟨0, 0, ⟨[], [], []⟩⟩
  | [transaction] => transaction
  | transactions =>
    create crypto (join transactions).kernelOffset (join transactions).stealthOffset
      (join transactions).body.inputs (join transactions).body.outputs
      (join transactions).body.kernels

/-- The same offsets, and the same parts in some order. -/
structure Alike (transaction other : Transaction T) : Prop where
  kernelOffset : transaction.kernelOffset = other.kernelOffset
  stealthOffset : transaction.stealthOffset = other.stealthOffset
  inputs : transaction.body.inputs.Perm other.body.inputs
  outputs : transaction.body.outputs.Perm other.body.outputs
  kernels : transaction.body.kernels.Perm other.body.kernels

theorem aggregate_alike : (aggregate crypto transactions).Alike (join transactions) := by
  match transactions with
  | [] => exact ⟨rfl, rfl, List.Perm.nil, List.Perm.nil, List.Perm.nil⟩
  | [transaction] =>
    refine ⟨?_, ?_, ?_, ?_, ?_⟩ <;>
      simp [aggregate, join, addBlindingFactors_eq]
  | first :: second :: rest =>
    exact ⟨rfl, rfl, sort_perm _, sort_perm _, sort_perm _⟩

end Transaction

/-! ## Sums in any order -/

section Sums

variable {crypto} {inputs outputs kernels : List T.Point} {offset : T.Scalar} {coinsAdded : CAmount}

theorem accumulate_perm {amounts others : List CAmount} (same : amounts.Perm others) :
    accumulate amounts = accumulate others := by
  rw [accumulate_eq, accumulate_eq, amountTotal, amountTotal, (same.map toInt).sum_eq]

theorem addCommitments_perm {positive negative positive' negative' : List T.Point}
    (first : positive.Perm positive') (second : negative.Perm negative') :
    addCommitments positive negative = addCommitments positive' negative' := by
  have left := first.filter (· ≠ 0)
  have right := second.filter (· ≠ 0)
  unfold addCommitments
  simp only [left.sum_eq, right.sum_eq, ← length_eq_zero_iff, left.length_eq, right.length_eq]

theorem totalKey_perm {keys others : List T.Point} (same : keys.Perm others) :
    totalKey keys = totalKey others := by
  simp only [totalKey, addPublicKeys, ← length_eq_zero_iff, same.length_eq, same.mem_iff,
    same.sum_eq]

theorem totalKey_ok {keys : List T.Point} {total : T.Point} (added : totalKey keys = .ok total) :
    total = keys.sum := by
  unfold totalKey addPublicKeys at added
  split at added
  · rename_i empty
    cases added
    rw [empty, sum_nil]
  · split at added
    · cases added
    · split at added
      · cases added
      · cases added
        rfl

/-- The sums that are compared for the kernels are points. -/
structure CommitmentSums (crypto : Crypto T) (inputs outputs kernels : List T.Point)
    (offset : T.Scalar) (coinsAdded : CAmount) : Prop where
  utxo : (addCommitments outputs inputs).isOk = true
  coins : (subtractCoins crypto (outputs.sum - inputs.sum) coinsAdded).isOk = true
  excess : (addCommitments kernels []).isOk = true
  shifted : (addOffset crypto kernels.sum offset).isOk = true

theorem validateSums_eq_ok :
    validateSums crypto inputs outputs kernels offset coinsAdded = .ok () ↔
      CommitmentSums crypto inputs outputs kernels offset coinsAdded ∧
        netCommitment crypto inputs outputs coinsAdded = kernels.sum +
          offset • crypto.generatorG := by
  constructor
  · intro valid
    refine ⟨?_, (validateSums_balance valid).2⟩
    simp only [validateSums, bind_eq_ok, ensure_eq_ok] at valid
    obtain ⟨sumUtxo, utxo, total, coins, sumExcess, excess, _, shifted, rfl⟩ := valid
    have excessSum : sumExcess = kernels.sum := by simpa using addCommitments_ok excess
    rw [addCommitments_ok utxo] at coins
    rw [excessSum] at shifted
    exact ⟨by rw [utxo]; rfl, by rw [coins]; rfl, by rw [excess]; rfl, by rw [shifted]; rfl⟩
  · rintro ⟨⟨utxo, coins, excess, shifted⟩, balance⟩
    obtain ⟨sumUtxo, utxo⟩ := exists_of_isOk utxo
    obtain ⟨total, coins⟩ := exists_of_isOk coins
    obtain ⟨sumExcess, excess⟩ := exists_of_isOk excess
    obtain ⟨shiftedSum, shifted⟩ := exists_of_isOk shifted
    have excessSum : sumExcess = kernels.sum := by simpa using addCommitments_ok excess
    have equal : total = shiftedSum := by
      rw [subtractCoins_ok coins, addOffset_ok shifted, ← balance]
      rfl
    simp only [validateSums, bind_eq_ok, ensure_eq_ok]
    refine ⟨sumUtxo, utxo, total, ?_, sumExcess, excess, shiftedSum, ?_, equal⟩
    · rw [addCommitments_ok utxo, coins]
    · rw [excessSum, shifted]

/-- The keys on the left of the stealth sums. -/
def senderKeys (body : TxBody T) : List T.Point :=
  body.outputs.map Output.senderPubKey ++ body.inputs.filterMap Input.inputPubKey

/-- The keys on the right of the stealth sums. -/
def excessKeys (crypto : Crypto T) (stealthOffset : T.Scalar) (body : TxBody T) : List T.Point :=
  body.getStealthExcesses ++ body.inputs.map Input.outputPubKey ++
    if stealthOffset = 0 then [] else [crypto.commitBlinded stealthOffset]

/-- The sums that are compared for the stealth keys are points. -/
structure KeySums (crypto : Crypto T) (stealthOffset : T.Scalar) (body : TxBody T) : Prop where
  sender : (totalKey (senderKeys body)).isOk = true
  excess : (totalKey (excessKeys crypto stealthOffset body)).isOk = true

variable {stealthOffset : T.Scalar} {body : TxBody T}

theorem validateStealthSums_keys : validateStealthSums crypto stealthOffset body = (do
    let lhsTotal ← totalKey (senderKeys body)
    let rhsTotal ← totalKey (excessKeys crypto stealthOffset body)
    ensure (lhsTotal = rhsTotal) (.validation .stealthSums)) := rfl

theorem validateStealthSums_eq_ok :
    validateStealthSums crypto stealthOffset body = .ok () ↔
      KeySums crypto stealthOffset body ∧
        (senderKeys body).sum = (excessKeys crypto stealthOffset body).sum := by
  simp only [validateStealthSums_keys, bind_eq_ok, ensure_eq_ok]
  constructor
  · rintro ⟨lhsTotal, left, rhsTotal, right, equal⟩
    refine ⟨⟨by rw [left]; rfl, by rw [right]; rfl⟩, ?_⟩
    rw [← totalKey_ok left, ← totalKey_ok right, equal]
  · rintro ⟨⟨left, right⟩, equal⟩
    obtain ⟨lhsTotal, left⟩ := exists_of_isOk left
    obtain ⟨rhsTotal, right⟩ := exists_of_isOk right
    exact ⟨lhsTotal, left, rhsTotal, right, by rw [totalKey_ok left, totalKey_ok right, equal]⟩

end Sums

/-! ## The aggregate of valid transactions -/

namespace Transaction

variable {crypto} {transaction other : Transaction T} {transactions rest : List (Transaction T)}

variable (crypto) in
/-- The equation of `KernelSumValidator::ValidateForTx`. -/
def KernelSums (transaction : Transaction T) : Prop :=
  netCommitment crypto transaction.body.getInputCommits transaction.body.getOutputCommits
      transaction.body.getSupplyChange =
    transaction.body.getKernelCommits.sum + transaction.kernelOffset • crypto.generatorG

variable (crypto) in
/-- The equation of `StealthSumValidator::Validate`. -/
def StealthSums (transaction : Transaction T) : Prop :=
  (senderKeys transaction.body).sum =
    (excessKeys crypto transaction.stealthOffset transaction.body).sum

variable (crypto) in
def Sorted (transaction : Transaction T) : Prop :=
  isSorted inputSort transaction.body.inputs = true ∧
    isSorted (outputSort crypto) transaction.body.outputs = true ∧
    isSorted (kernelSort crypto) transaction.body.kernels = true

theorem validate_eq_ok : transaction.validate crypto = .ok () ↔
    transaction.body.validate crypto = .ok () ∧ transaction.validateForTx crypto = .ok () ∧
      Mweb.validateStealthSums crypto transaction.stealthOffset transaction.body = .ok () := by
  simp only [validate, bind_eq_ok]
  constructor
  · rintro ⟨⟨⟩, body, ⟨⟩, sums, stealth⟩
    exact ⟨body, sums, stealth⟩
  · rintro ⟨body, sums, stealth⟩
    exact ⟨(), body, (), sums, stealth⟩

theorem body_validate_eq_ok {body : TxBody T} : body.validate crypto = .ok () ↔
    exceedsMaximum body = false ∧ Sorted crypto ⟨0, 0, body⟩ ∧
      (body.getSpentIDs.Nodup ∧ (body.getOutputIDs crypto).Nodup ∧
        (body.getKernelIDs crypto).Nodup) ∧
      (∀ signed ∈ body.signatures crypto, crypto.verify signed = true) ∧
      ∀ output ∈ body.outputs, verifyProof crypto output = true := by
  simp only [TxBody.validate, bind_eq_ok, ensure_eq_ok, all_eq_true]
  constructor
  · rintro ⟨⟨⟩, small, ⟨⟩, sorted, ⟨⟩, spent, ⟨⟩, outputs, ⟨⟩, kernels, ⟨⟩, signed, proofs⟩
    exact ⟨small, sorted, ⟨spent, outputs, kernels⟩, signed, proofs⟩
  · rintro ⟨small, sorted, ⟨spent, outputs, kernels⟩, signed, proofs⟩
    exact ⟨(), small, (), sorted, (), spent, (), outputs, (), kernels, (), signed, proofs⟩

/-- A valid transaction spends nothing twice and has no output or kernel twice. -/
theorem nodup_of_validate (valid : transaction.validate crypto = .ok ()) :
    transaction.body.getSpentIDs.Nodup ∧ (transaction.body.getOutputIDs crypto).Nodup ∧
      (transaction.body.getKernelIDs crypto).Nodup :=
  (body_validate_eq_ok.mp (validate_eq_ok.mp valid).1).2.2.1

namespace Alike

variable (alike : transaction.Alike other)

include alike

theorem getSupplyChange : transaction.body.getSupplyChange = other.body.getSupplyChange :=
  accumulate_perm (alike.kernels.map Kernel.getSupplyChange)

theorem validateForTx : transaction.validateForTx crypto = other.validateForTx crypto := by
  have utxo : addCommitments transaction.body.getOutputCommits transaction.body.getInputCommits =
      addCommitments other.body.getOutputCommits other.body.getInputCommits :=
    addCommitments_perm (alike.outputs.map _) (alike.inputs.map _)
  have excess : addCommitments transaction.body.getKernelCommits [] =
      addCommitments other.body.getKernelCommits [] :=
    addCommitments_perm (alike.kernels.map _) List.Perm.nil
  simp only [Transaction.validateForTx, validateSums, utxo, excess, alike.kernelOffset,
    alike.getSupplyChange]

theorem senderKeys : (senderKeys transaction.body).Perm (Mweb.senderKeys other.body) :=
  (alike.outputs.map _).append (alike.inputs.filterMap _)

theorem excessKeys : (excessKeys crypto transaction.stealthOffset transaction.body).Perm
    (Mweb.excessKeys crypto other.stealthOffset other.body) := by
  rw [alike.stealthOffset]
  exact ((alike.kernels.filterMap _).append (alike.inputs.map _)).append_right _

theorem signatures : (transaction.body.signatures crypto).Perm (other.body.signatures crypto) :=
  ((alike.kernels.map _).append (alike.inputs.map _)).append (alike.outputs.map _)

theorem validateStealthSums :
    validateStealthSums crypto transaction.stealthOffset transaction.body =
      Mweb.validateStealthSums crypto other.stealthOffset other.body := by
  rw [validateStealthSums_keys, validateStealthSums_keys, totalKey_perm alike.senderKeys,
    totalKey_perm alike.excessKeys]

end Alike

/-! ### Sums over several transactions -/

@[simp] theorem join_nil : join ([] : List (Transaction T)) = ⟨0, 0, ⟨[], [], []⟩⟩ := rfl

theorem join_cons : join (transaction :: rest) = {
    kernelOffset := transaction.kernelOffset + (join rest).kernelOffset
    stealthOffset := transaction.stealthOffset + (join rest).stealthOffset
    body := {
      inputs := transaction.body.inputs ++ (join rest).body.inputs
      outputs := transaction.body.outputs ++ (join rest).body.outputs
      kernels := transaction.body.kernels ++ (join rest).body.kernels } } := by
  simp [join, addBlindingFactors_eq]

theorem join_append_singleton : join (transactions ++ [transaction]) = {
    kernelOffset := (join transactions).kernelOffset + transaction.kernelOffset
    stealthOffset := (join transactions).stealthOffset + transaction.stealthOffset
    body := {
      inputs := (join transactions).body.inputs ++ transaction.body.inputs
      outputs := (join transactions).body.outputs ++ transaction.body.outputs
      kernels := (join transactions).body.kernels ++ transaction.body.kernels } } := by
  simp [join, addBlindingFactors_eq]

/-- What the coins of the transactions add up to, exactly. -/
def supplyTotal (transactions : List (Transaction T)) : Int :=
  (transactions.map fun transaction => transaction.body.getSupplyChange.toInt).sum

theorem supplyTotal_cons : supplyTotal (transaction :: rest) =
    transaction.body.getSupplyChange.toInt + supplyTotal rest := sum_cons

theorem getSupplyChange_join :
    (join transactions).body.getSupplyChange = ofInt (supplyTotal transactions) := by
  induction transactions with
  | nil => rfl
  | cons transaction rest ih =>
    have split : (join (transaction :: rest)).body.getSupplyChange =
        transaction.body.getSupplyChange + (join rest).body.getSupplyChange := by
      rw [join_cons]
      simp only [getSupplyChange, map_append, accumulate_append]
    rw [split, ih, supplyTotal_cons, ofInt_add, ofInt_toInt]

theorem balance_join (each : ∀ transaction ∈ transactions, transaction.KernelSums crypto) :
    (join transactions).body.getOutputCommits.sum - (join transactions).body.getInputCommits.sum -
        supplyTotal transactions • crypto.generatorH =
      (join transactions).body.getKernelCommits.sum +
        (join transactions).kernelOffset • crypto.generatorG := by
  induction transactions with
  | nil => simp [supplyTotal, getOutputCommits, getInputCommits, getKernelCommits]
  | cons transaction rest ih =>
    have first := each transaction mem_cons_self
    have later := ih (forall_mem_cons.mp each).2
    rw [KernelSums, netCommitment] at first
    simp only [getOutputCommits, getInputCommits, getKernelCommits] at first later
    simp only [getOutputCommits, getInputCommits, getKernelCommits, join_cons,
      map_append, sum_append, supplyTotal_cons, add_smul]
    calc _ = ((transaction.body.outputs.map Output.commitment).sum -
            (transaction.body.inputs.map Input.commitment).sum -
            transaction.body.getSupplyChange.toInt • crypto.generatorH) +
          (((join rest).body.outputs.map Output.commitment).sum -
            ((join rest).body.inputs.map Input.commitment).sum -
            supplyTotal rest • crypto.generatorH) := by abel
      _ = _ := by rw [first, later]; abel

theorem excessKeys_sum (stealthOffset : T.Scalar) (body : TxBody T) :
    (excessKeys crypto stealthOffset body).sum = body.getStealthExcesses.sum +
      (body.inputs.map Input.outputPubKey).sum + stealthOffset • crypto.generatorG := by
  rw [excessKeys, sum_append, sum_append]
  congr 1
  split
  · rename_i zero
    rw [zero, zero_smul, sum_nil]
  · rw [sum_singleton, Crypto.commitBlinded]

theorem keys_join (each : ∀ transaction ∈ transactions, transaction.StealthSums crypto) :
    (join transactions).StealthSums crypto := by
  induction transactions with
  | nil => simp [StealthSums, senderKeys, excessKeys, getStealthExcesses]
  | cons transaction rest ih =>
    have first := each transaction mem_cons_self
    have later := ih (forall_mem_cons.mp each).2
    rw [StealthSums, excessKeys_sum] at first later ⊢
    simp only [senderKeys, getStealthExcesses, sum_append] at first later
    simp only [senderKeys, getStealthExcesses, join_cons, map_append,
      filterMap_append, sum_append, add_smul]
    calc _ = ((transaction.body.outputs.map Output.senderPubKey).sum +
            (transaction.body.inputs.filterMap Input.inputPubKey).sum) +
          (((join rest).body.outputs.map Output.senderPubKey).sum +
            ((join rest).body.inputs.filterMap Input.inputPubKey).sum) := by abel
      _ = _ := by rw [first, later]; abel

/-! ### The body of the aggregate -/

/-- Nothing occurs twice in the transactions, and together they are not too large. -/
structure Apart (crypto : Crypto T) (transactions : List (Transaction T)) : Prop where
  spent : (join transactions).body.getSpentIDs.Nodup
  outputs : ((join transactions).body.getOutputIDs crypto).Nodup
  kernels : ((join transactions).body.getKernelIDs crypto).Nodup
  numInputs : (join transactions).body.inputs.length ≤ maxNumInputs
  weight : calculate (join transactions).body ≤ maxBlockWeight

theorem Alike.calculate (alike : transaction.Alike other) :
    calculate transaction.body = calculate other.body := by
  simp only [Weight.calculate, (alike.inputs.map _).sum_eq, (alike.outputs.map _).sum_eq,
    (alike.kernels.map _).sum_eq]

theorem calculate_append (first second : TxBody T) :
    calculate ⟨first.inputs ++ second.inputs, first.outputs ++ second.outputs,
      first.kernels ++ second.kernels⟩ = calculate first + calculate second := by
  simp only [calculate, map_append, sum_append]
  omega

/-- One more transaction, with nothing in it that the others have. -/
theorem Apart.append (apart : Apart crypto transactions)
    (valid : transaction.validate crypto = .ok ())
    (spent : ∀ id ∈ transaction.body.getSpentIDs, id ∉ (join transactions).body.getSpentIDs)
    (outputs : ∀ id ∈ transaction.body.getOutputIDs crypto,
      id ∉ (join transactions).body.getOutputIDs crypto)
    (kernels : ∀ id ∈ transaction.body.getKernelIDs crypto,
      id ∉ (join transactions).body.getKernelIDs crypto)
    (numInputs : (join transactions).body.inputs.length + transaction.body.inputs.length ≤
      maxNumInputs) (weight : calculate (join transactions).body + calculate transaction.body ≤
      maxBlockWeight) : Apart crypto (transactions ++ [transaction]) := by
  obtain ⟨ownSpent, ownOutputs, ownKernels⟩ := nodup_of_validate valid
  have together : ∀ {held own : List T.Hash}, held.Nodup → own.Nodup → (∀ id ∈ own, id ∉ held) →
      (held ++ own).Nodup := fun first second disjoint =>
    nodup_append.mpr ⟨first, second, fun id inside other member same =>
      disjoint other member (same ▸ inside)⟩
  refine ⟨?_, ?_, ?_, ?_, ?_⟩ <;> rw [join_append_singleton]
  · rw [getSpentIDs, map_append]
    exact together apart.spent ownSpent spent
  · rw [getOutputIDs, map_append]
    exact together apart.outputs ownOutputs outputs
  · rw [getKernelIDs, map_append]
    exact together apart.kernels ownKernels kernels
  · rw [length_append]
    exact numInputs
  · rw [calculate_append]
    exact weight

theorem sorted_aggregate (each : ∀ transaction ∈ transactions, transaction.Sorted crypto) :
    (aggregate crypto transactions).Sorted crypto := by
  match transactions with
  | [] => exact ⟨rfl, rfl, rfl⟩
  | [transaction] => exact each transaction mem_cons_self
  | first :: second :: rest =>
    exact ⟨isSorted_sort (strictWeak_of_key inputSort_key) _,
      isSorted_sort (strictWeak_of_key (outputSort_key crypto)) _,
      isSorted_sort (strictWeak_of_key (kernelSort_key crypto)) _⟩

theorem join_perm {others : List (Transaction T)} (same : transactions.Perm others) :
    (join transactions).Alike (join others) := by
  refine ⟨?_, ?_, same.flatMap_right _, same.flatMap_right _, same.flatMap_right _⟩ <;>
    simp only [join, addBlindingFactors_eq, (same.map _).sum_eq]

theorem aggregate_perm (spent : (join transactions).body.getSpentIDs.Nodup)
    (outputs : ((join transactions).body.getOutputIDs crypto).Nodup)
    (kernels : ((join transactions).body.getKernelIDs crypto).Nodup)
    {others : List (Transaction T)} (same : transactions.Perm others) :
    aggregate crypto transactions = aggregate crypto others := by
  match transactions, others, same.length_eq with
  | [], [], _ => rfl
  | [_], [_], _ => rw [singleton_perm_singleton.mp same]
  | first :: second :: rest, first' :: second' :: rest', _ =>
    have keys : ((join (first :: second :: rest)).body.kernels.map (kernelKey crypto)).Nodup :=
      .of_map (fun key => (ofLex key).2) (by rw [map_map]; exact kernels)
    have alike := join_perm same
    simp only [aggregate, create, alike.kernelOffset, alike.stealthOffset,
      sort_congr inputSort_key alike.inputs spent,
      sort_congr (outputSort_key crypto) alike.outputs outputs,
      sort_congr (kernelSort_key crypto) alike.kernels keys]

theorem mem_signatures_join {signed : SignedMessage T} :
    signed ∈ (join transactions).body.signatures crypto ↔
      ∃ transaction ∈ transactions, signed ∈ transaction.body.signatures crypto := by
  simp only [signatures, join, map_flatMap, mem_append, mem_flatMap, and_or_left, exists_or]

theorem body_validate_aggregate
    (each : ∀ transaction ∈ transactions, transaction.body.validate crypto = .ok ())
    (apart : Apart crypto transactions) :
    (aggregate crypto transactions).body.validate crypto = .ok () := by
  have alike := aggregate_alike crypto transactions
  have small : exceedsMaximum (aggregate crypto transactions).body = false := by
    rw [exceedsMaximum, Bool.or_eq_false_iff, decide_eq_false_iff_not,
      decide_eq_false_iff_not, alike.inputs.length_eq, alike.calculate]
    exact ⟨Nat.not_lt.mpr apart.numInputs, Nat.not_lt.mpr apart.weight⟩
  have valid := fun transaction member => body_validate_eq_ok.mp (each transaction member)
  have sorted := sorted_aggregate fun transaction member => (valid transaction member).2.1
  refine body_validate_eq_ok.mpr ⟨small, sorted, ⟨(alike.inputs.map _).nodup_iff.mpr apart.spent,
    (alike.outputs.map _).nodup_iff.mpr apart.outputs,
    (alike.kernels.map _).nodup_iff.mpr apart.kernels⟩, fun signed inside => ?_,
    fun output inside => ?_⟩
  · obtain ⟨transaction, member, own⟩ := mem_signatures_join.mp (alike.signatures.mem_iff.mp inside)
    exact (valid transaction member).2.2.2.1 signed own
  · obtain ⟨transaction, member, own⟩ := mem_flatMap.mp (alike.outputs.mem_iff.mp inside)
    exact (valid transaction member).2.2.2.2 output own

/-! ### The sums of the aggregate -/

variable (crypto) in
/-- The sums over all the transactions are points and the coins they add fit in 64 bits. -/
structure SumsReturn (transactions : List (Transaction T)) : Prop where
  commitments : CommitmentSums crypto (join transactions).body.getInputCommits
    (join transactions).body.getOutputCommits (join transactions).body.getKernelCommits
    (join transactions).kernelOffset (join transactions).body.getSupplyChange
  supply_low : -2 ^ 63 ≤ supplyTotal transactions
  supply_high : supplyTotal transactions < 2 ^ 63

theorem validateForTx_aggregate
    (each : ∀ transaction ∈ transactions, transaction.validateForTx crypto = .ok ())
    (sums : SumsReturn crypto transactions) :
    (aggregate crypto transactions).validateForTx crypto = .ok () := by
  rw [(aggregate_alike crypto transactions).validateForTx]
  refine validateSums_eq_ok.mpr ⟨sums.commitments, ?_⟩
  rw [netCommitment, getSupplyChange_join, toInt_ofInt_of_le sums.supply_low sums.supply_high]
  exact balance_join fun transaction member => (validateSums_balance (each transaction member)).2

theorem validateStealthSums_aggregate (each : ∀ transaction ∈ transactions,
      Mweb.validateStealthSums crypto transaction.stealthOffset transaction.body = .ok ())
    (sums : KeySums crypto (join transactions).stealthOffset (join transactions).body) :
    Mweb.validateStealthSums crypto (aggregate crypto transactions).stealthOffset
      (aggregate crypto transactions).body = .ok () := by
  rw [(aggregate_alike crypto transactions).validateStealthSums]
  exact validateStealthSums_eq_ok.mpr ⟨sums, keys_join fun transaction member =>
    (validateStealthSums_eq_ok.mp (each transaction member)).2⟩

/-- The aggregate of transactions that balance and have nothing twice balances, and has their
parts in order, whichever order the transactions are in. -/
theorem aggregate_preserves
    (sorted : ∀ transaction ∈ transactions, transaction.Sorted crypto)
    (kernelSums : ∀ transaction ∈ transactions, transaction.KernelSums crypto)
    (stealthSums : ∀ transaction ∈ transactions, transaction.StealthSums crypto)
    (low : -2 ^ 63 ≤ supplyTotal transactions) (high : supplyTotal transactions < 2 ^ 63)
    (spent : (join transactions).body.getSpentIDs.Nodup)
    (outputs : ((join transactions).body.getOutputIDs crypto).Nodup)
    (kernels : ((join transactions).body.getKernelIDs crypto).Nodup) :
    ((aggregate crypto transactions).KernelSums crypto ∧
        (aggregate crypto transactions).StealthSums crypto) ∧
      ((aggregate crypto transactions).Alike (join transactions) ∧
        (aggregate crypto transactions).Sorted crypto) ∧
      ∀ others, transactions.Perm others →
        aggregate crypto transactions = aggregate crypto others := by
  have alike := aggregate_alike crypto transactions
  refine ⟨⟨?_, ?_⟩, ⟨alike, sorted_aggregate sorted⟩, fun others =>
    aggregate_perm spent outputs kernels⟩
  · have supply := toInt_ofInt_of_le low high
    rw [← getSupplyChange_join] at supply
    rw [KernelSums, netCommitment, alike.getSupplyChange, supply, alike.kernelOffset]
    simp only [getOutputCommits, getInputCommits, getKernelCommits, (alike.outputs.map _).sum_eq,
      (alike.inputs.map _).sum_eq, (alike.kernels.map _).sum_eq]
    exact balance_join kernelSums
  · rw [StealthSums, alike.senderKeys.sum_eq, alike.excessKeys.sum_eq]
    exact keys_join stealthSums

end Transaction

end MooncoinFormal.Mweb

namespace MooncoinFormal.Primitives.Numeric

open Mweb Transaction

/-- A transaction that pegs in 20 and keeps it in one output. -/
def honestTx : Transaction types where
  kernelOffset := (0 : Int)
  stealthOffset := (2 : Int)
  body := ⟨[], [keptOutput], [peginKernel 20 (5, 0)]⟩

theorem honestTx_aggregate :
    let passed : Transaction types := ⟨0, 1, ⟨[], [passedOutput], [peginKernel 10 (3, 0)]⟩⟩
    aggregate mweb [honestTx, passed] = aggregate mweb [passed, honestTx] := by
  refine (aggregate_preserves ?_ ?_ ?_ ?_ ?_ ?_ ?_ ?_).2.2 _ (.swap _ _ _)
  · unfold Sorted
    decide +kernel
  · unfold KernelSums
    decide +kernel
  · unfold StealthSums
    decide +kernel
  all_goals decide +kernel

end MooncoinFormal.Primitives.Numeric
