import Mathlib
import MooncoinFormal.Mweb.Amounts
import MooncoinFormal.Validation.Conservation
import MooncoinFormal.Validation.Extended

/-!
# The chain of HogEx balances

The balance of the extension block lies in output 0 of the last HogEx, and peg-ins lie
in outputs that anyone could spend. What protects them is the shape of the HogEx: its
first input is the balance before, its other inputs are the peg-ins of its block, and it
is the last transaction. Together with the conservation of outpoints this makes the
balances a chain in which each is spent by the next HogEx alone, and leaves no peg-in
behind. A block that re-creates an unspent outpoint would break this.
-/

namespace MooncoinFormal.Primitives.CScript

theorem isUnspendable_of_isMwebProgram {version size : Nat} {script : CScript}
    {program : List UInt8}
    (known : isMwebProgram version size script = some program) : isUnspendable script = false := by
  unfold isMwebProgram isWitnessProgram at known
  match script with
  | [] => simp at known
  | [_] => simp at known
  | opcode :: push :: data =>
    simp only at known
    split at known
    · rename_i found
      split at found
      · cases found
      split at found
      · cases found
      rename_i opcodes
      have code : opcode ≠ opReturn := by
        rintro rfl
        exact opcodes (by decide)
      have length : data.length + 2 ≤ maxScriptSize := by
        unfold maxScriptSize
        omega
      simp [isUnspendable, code]
      omega
    · cases known

theorem isMwebPegin_of_isMwebHogAddr {script : CScript} {hash : List UInt8}
    (hogAddr : isMwebHogAddr script = some hash) : isMwebPegin script = none := by
  unfold isMwebHogAddr isMwebProgram at hogAddr
  unfold isMwebPegin isMwebProgram
  cases program : isWitnessProgram script with
  | none => rfl
  | some found =>
    obtain ⟨version, data⟩ := found
    rw [program] at hogAddr
    by_cases eight : version = mwebHogAddrWitnessVersion ∧ data.length = witnessMwebHeaderHashSize
    · rw [eight.1]
      exact if_neg fun nine => absurd nine.1 (by decide)
    · simp only [if_neg eight] at hogAddr
      cases hogAddr

end MooncoinFormal.Primitives.CScript

namespace MooncoinFormal.Mweb

open Primitives Coins Validation Library.Checks CCoinsViewCache List Function Connection
  CTransaction UInt32

variable {T : CryptoTypes} {crypto : BlockCrypto T}

/-! ## The inputs of a HogEx -/

def peginsOf (crypto : BlockCrypto T) (tx : CTransaction T) : List (COutPoint T) :=
  (tx.vout.zipIdx.filter fun entry => isPegin entry.1).map fun entry =>
    ⟨tx.getHash crypto, ofNat entry.2⟩

def blockPeginsOf (crypto : BlockCrypto T) (block : CBlock T) : List (COutPoint T) :=
  (middleTxs block).flatMap (peginsOf crypto)

/-- The outpoint of the balance after a block: output 0 of its last transaction. -/
def balanceOf (crypto : BlockCrypto T) (block : CBlock T) : COutPoint T :=
  ⟨(block.vtx.getLast?.map (getHash crypto)).getD T.zeroHash, 0⟩

theorem blockPeginsOf_eq (block : CBlock T) :
    blockPeginsOf crypto block =
      (peginOutPoints crypto block).map fun entry => ⟨entry.1, ofNat entry.2⟩ := by
  simp only [blockPeginsOf, peginOutPoints, map_flatMap, map_map]
  rfl

variable {outpoint : COutPoint T} {tx : CTransaction T}

theorem mem_peginsOf :
    outpoint ∈ peginsOf crypto tx ↔ ∃ n txout, tx.vout[n]? = some txout ∧ isPegin txout = true ∧
      outpoint = ⟨tx.getHash crypto, ofNat n⟩ := by
  simp only [peginsOf, mem_map, mem_filter, Prod.exists]
  constructor
  · rintro ⟨txout, n, ⟨listed, pegin⟩, rfl⟩
    exact ⟨n, txout, by simpa [mem_zipIdx_iff_getElem?] using listed, pegin, rfl⟩
  · rintro ⟨n, txout, at_, pegin, rfl⟩
    exact ⟨txout, n, ⟨by simpa [mem_zipIdx_iff_getElem?] using at_, pegin⟩, rfl⟩

namespace Node

theorem matchPegins_inputs {vin : List (CTxIn T)} {next final : Nat} {pegins : List (T.Hash × Nat)}
    (matched : matchPegins vin next pegins = .ok final) :
    final = next + pegins.length ∧
      ((vin.drop next).take pegins.length).map CTxIn.prevout =
        pegins.map fun entry => ⟨entry.1, ofNat entry.2⟩ := by
  induction pegins generalizing next with
  | nil =>
    cases matched
    exact ⟨rfl, by simp⟩
  | cons first rest ih =>
    rw [matchPegins] at matched
    cases here : vin[next]? with
    | none => simp [here] at matched
    | some txin =>
      simp only [here, bind_eq_ok, ensure_eq_ok] at matched
      obtain ⟨⟨⟩, ⟨index, txid⟩, matched⟩ := matched
      obtain ⟨rfl, inputs⟩ := ih matched
      refine ⟨by simp only [length_cons]; omega, ?_⟩
      obtain ⟨inside, rfl⟩ := List.getElem?_eq_some_iff.mp here
      rw [drop_eq_getElem_cons inside, length_cons, take_succ_cons, map_cons,
        inputs, map_cons, ← index, ← txid, UInt32.ofNat_toNat]

end Node

/-- The HogEx of an accepted block, after the outpoints that it must spend first. -/
structure Integrates (crypto : BlockCrypto T) (block : CBlock T) (previous : List (COutPoint T))
    (hogEx : CTransaction T) : Prop where
  last : block.vtx.getLast? = some hogEx
  regular : hogEx.isCoinBase = false
  inputs : hogEx.vin.map CTxIn.prevout = previous ++ blockPeginsOf crypto block
  flagged : hogEx.isHogEx = true
  noPegins : ∀ tx ∈ block.vtx, (tx.isCoinBase || tx.isHogEx) = true →
    ∀ txout ∈ tx.vout, isPegin txout = false
  hogAddr : ∃ hogAddr pegouts mwebHash, hogEx.vout = hogAddr :: pegouts ∧
    hogAddr.scriptPubKey.isMwebHogAddr = some mwebHash

/-- What the first input has to be: nothing in particular for the first HogEx. -/
def previousBalance (params : Params T) (chain : Chain T) : List (COutPoint T) :=
  if Node.isFirstHogEx params chain then [] else (chain.head?.map fun prev =>
    ⟨prev.hogexHash, 0⟩).toList

theorem integrates_of_accepts {params : Params T} {chain : Chain T} {block : CBlock T}
    {base : ICoinsView T} {top top' : CoinsViewCache T} {undo : Option (BlockUndo T)}
    (checked : CheckedBlock crypto params block) (enabled : params.mwebEnabled chain = true)
    (contextual : Node.contextualCheckBlock crypto params chain block = .ok ())
    (connected : Node.connectBlock crypto params chain block base top = .ok (undo, top')) :
    ∃ hogEx, Integrates crypto block (previousBalance params chain) hogEx := by
  obtain ⟨mwebBlock, hogEx, attached, valid⟩ := Node.exists_validHogEx enabled contextual
  obtain ⟨⟨input, -⟩, -⟩ := (Node.connectBlock_eq_ok attached valid.last).mp connected
  obtain ⟨hogAddr, pegouts, mwebHash, outputs, program, -⟩ := valid.committed
  obtain ⟨count, matched⟩ := Node.matchPegins_inputs valid.pegins
  have inputs : hogEx.vin.map CTxIn.prevout =
      previousBalance params chain ++ blockPeginsOf crypto block := by
    rw [blockPeginsOf_eq, ← matched, previousBalance]
    cases first : Node.isFirstHogEx params chain with
    | true =>
      simp only [first, if_true, zero_add] at count
      simp [← count]
    | false =>
      have head := input first
      simp only [first, Bool.false_eq_true, if_false] at count ⊢
      cases vin : hogEx.vin with
      | nil => simp [Node.checkHogExInput, vin] at head
      | cons txin rest =>
        cases chain with
        | nil => simp [Node.checkHogExInput, vin] at head
        | cons prev chain =>
          simp only [Node.checkHogExInput, vin, ensure_eq_ok] at head
          rw [vin, length_cons] at count
          have whole : (peginOutPoints crypto block).length = rest.length := by omega
          simp [whole, head.2, ← head.1]
  refine ⟨hogEx, valid.last, ?_, inputs, valid.flagged, ?_, hogAddr, pegouts, mwebHash,
    outputs, program⟩
  · obtain ⟨coinbase, rest, vtx, -, others⟩ := checked.coinbase
    have last := valid.last
    rw [vtx] at last
    cases rest with
    | cons second rest =>
      exact others hogEx (mem_of_getLast? last)
    | nil =>
      -- a coinbase alone has neither a peg-in nor a balance to spend
      have none : blockPeginsOf crypto block = [] := by
        simp [blockPeginsOf, middleTxs, vtx]
      rw [none, append_nil, previousBalance] at inputs
      cases isCoinbase : hogEx.isCoinBase with
      | false => rfl
      | true =>
        rw [isCoinBase] at isCoinbase
        split at isCoinbase
        · rename_i txin vin
          rw [vin] at inputs
          split at inputs
          · cases inputs
          · cases chain with
            | nil => cases inputs
            | cons prev chain =>
              have null := (cons.inj inputs).1
              rw [null] at isCoinbase
              simp [COutPoint.isNull, COutPoint.nullIndex] at isCoinbase
        · cases isCoinbase
  · intro tx member special txout output
    have none := valid.noPegins tx member
    rw [special, Bool.true_and, any_eq_false] at none
    exact Bool.eq_false_iff.mpr (none txout output)

/-! ## Outpoints of peg-ins and balances -/

section Outpoints

variable {params : Params T} {block : CBlock T} {previous : List (COutPoint T)}
  {tx tx' hogEx : CTransaction T} {outpoint : COutPoint T}

theorem stripped_of_getHash (free : crypto.TransactionInj) (canonical : tx.vin ≠ [])
    (canonical' : tx'.vin ≠ []) (same : tx.getHash crypto = tx'.getHash crypto) :
    tx.stripped = tx'.stripped := by
  rw [getHash_eq crypto canonical, getHash_eq crypto canonical'] at same
  exact free (by simpa [stripped] using canonical) (by simpa [stripped] using canonical') same

/-- A transaction that can be hashed and has no more outputs than indices. -/
structure Indexed (tx : CTransaction T) : Prop where
  canonical : tx.vin ≠ []
  few : tx.vout.length ≤ CBlock.maxBlockWeight

theorem indexed_of_checked (checked : CheckedBlock crypto params block) (member : tx ∈ block.vtx) :
    Indexed tx :=
  ⟨checked.vin_ne_nil member, (lengths_of_checkTransaction _ _ (checked.txs tx member)).2⟩

theorem output_of_outpoint (free : crypto.TransactionInj) (indexed : Indexed tx)
    (indexed' : Indexed tx') {n n' : Nat} {txout txout' : CTxOut} (at_ : tx.vout[n]? = some txout)
    (at' : tx'.vout[n']? = some txout') (same : (⟨tx.getHash crypto, ofNat n⟩ : COutPoint T) =
      ⟨tx'.getHash crypto, ofNat n'⟩) : tx.stripped = tx'.stripped ∧ txout = txout' := by
  obtain ⟨hash, index⟩ := COutPoint.mk.inj same
  have stripped := stripped_of_getHash free indexed.canonical indexed'.canonical hash
  refine ⟨stripped, ?_⟩
  have below := (List.getElem?_eq_some_iff.mp at_).1
  have below' := (List.getElem?_eq_some_iff.mp at').1
  have few := indexed.few
  have few' := indexed'.few
  unfold CBlock.maxBlockWeight at few few'
  have value := congrArg UInt32.toNat index
  simp only [toNat_ofNat'] at value
  have equal : n = n' := by omega
  rw [vout_eq stripped, equal, at'] at at_
  exact (Option.some.inj at_).symm

theorem created_of_mem_peginsOf (pegin : outpoint ∈ peginsOf crypto tx) :
    outpoint ∈ createdOutPoints crypto tx := by
  obtain ⟨n, txout, at_, isPegin, rfl⟩ := mem_peginsOf.mp pegin
  obtain ⟨kernelId, program⟩ := Option.isSome_iff_exists.mp isPegin
  have created := @mem_createdFrom_of_getElem? _ tx.vout (tx.getHash crypto) 0 n txout at_
    (CScript.isUnspendable_of_isMwebProgram program)
  rwa [zero_add] at created

theorem mem_peginsOf_of_created (free : crypto.TransactionInj) (indexed : Indexed tx)
    (indexed' : Indexed tx') (pegin : outpoint ∈ peginsOf crypto tx)
    (created : outpoint ∈ createdOutPoints crypto tx') : outpoint ∈ peginsOf crypto tx' := by
  obtain ⟨n, txout, at_, isPegin, rfl⟩ := mem_peginsOf.mp pegin
  obtain ⟨n', txout', at', -, same⟩ := exists_of_mem_createdFrom created
  rw [zero_add] at same
  obtain ⟨-, rfl⟩ := output_of_outpoint free indexed indexed' at_ at' same
  exact mem_peginsOf.mpr ⟨n', txout, at', isPegin, same⟩

namespace Integrates

variable (integrates : Integrates crypto block previous hogEx)
include integrates

theorem vtx_eq (checked : CheckedBlock crypto params block) :
    ∃ coinbase, coinbase.isCoinBase = true ∧
      block.vtx = coinbase :: middleTxs block ++ [hogEx] := by
  obtain ⟨coinbase, rest, vtx, isCoinbase, -⟩ := checked.coinbase
  refine ⟨coinbase, isCoinbase, ?_⟩
  have split := dropLast_append_getLast? hogEx integrates.last
  cases rest with
  | nil =>
    have last := integrates.last
    rw [vtx] at last
    cases last
    exact absurd (integrates.regular.symm.trans isCoinbase) Bool.false_ne_true
  | cons second rest =>
    rw [middleTxs, vtx, dropLast_cons_cons, drop_succ_cons, drop_zero]
    rw [vtx, dropLast_cons_cons] at split
    exact split.symm

theorem mem_vtx : hogEx ∈ block.vtx :=
  mem_of_getLast? integrates.last

theorem spentOutPoints_eq : spentOutPoints hogEx = previous ++ blockPeginsOf crypto block := by
  rw [spentOutPoints, integrates.regular, if_neg Bool.false_ne_true, integrates.inputs]

theorem balanceOf_eq : balanceOf crypto block = ⟨hogEx.getHash crypto, 0⟩ := by
  rw [balanceOf, integrates.last]
  rfl

theorem balance_created : balanceOf crypto block ∈ createdOutPoints crypto hogEx := by
  obtain ⟨hogAddr, pegouts, mwebHash, outputs, program⟩ := integrates.hogAddr
  rw [integrates.balanceOf_eq, createdOutPoints, outputs]
  exact mem_createdFrom (CScript.isUnspendable_of_isMwebProgram program)

section

variable (free : crypto.TransactionInj) (indexed : Indexed hogEx) (indexed' : Indexed tx)
include free indexed indexed'

theorem spent_of_balance_created (created : balanceOf crypto block ∈ createdOutPoints crypto tx) :
    spentOutPoints tx = previous ++ blockPeginsOf crypto block := by
  obtain ⟨n, txout, at_, -, same⟩ := exists_of_mem_createdFrom created
  obtain ⟨hogAddr, pegouts, mwebHash, outputs, -⟩ := integrates.hogAddr
  rw [zero_add, integrates.balanceOf_eq] at same
  have first : hogEx.vout[0]? = some hogAddr := by rw [outputs]; rfl
  obtain ⟨stripped, -⟩ := output_of_outpoint free indexed' indexed at_ first same.symm
  exact (Validation.spentOutPoints_eq stripped).trans integrates.spentOutPoints_eq

theorem balance_not_pegin : balanceOf crypto block ∉ peginsOf crypto tx := by
  intro pegin
  obtain ⟨n, txout, at_, isPegin, same⟩ := mem_peginsOf.mp pegin
  obtain ⟨hogAddr, pegouts, mwebHash, outputs, program⟩ := integrates.hogAddr
  rw [integrates.balanceOf_eq] at same
  have first : hogEx.vout[0]? = some hogAddr := by rw [outputs]; rfl
  obtain ⟨-, rfl⟩ := output_of_outpoint free indexed' indexed at_ first same.symm
  rw [Mweb.isPegin, CScript.isMwebPegin_of_isMwebHogAddr program] at isPegin
  cases isPegin

end

theorem nodup_pegins (checked : CheckedBlock crypto params block) :
    (blockPeginsOf crypto block).Nodup := by
  have inputs := nodup_of_checkTransaction _ _ (checked.txs hogEx integrates.mem_vtx)
  rw [integrates.inputs] at inputs
  exact (nodup_append.mp inputs).2.1

theorem exists_pegin (checked : CheckedBlock crypto params block)
    (listed : outpoint ∈ blockPeginsOf crypto block) :
    ∃ tx ∈ block.vtx, outpoint ∈ peginsOf crypto tx := by
  obtain ⟨tx, middle, pegin⟩ := mem_flatMap.mp listed
  obtain ⟨coinbase, -, vtx⟩ := integrates.vtx_eq checked
  refine ⟨tx, ?_, pegin⟩
  rw [vtx]
  simp [middle]

theorem count_created_le (free : crypto.TransactionInj) (checked : CheckedBlock crypto params block)
    (indexed : Indexed tx) (pegin : outpoint ∈ peginsOf crypto tx) :
    (createdIn crypto block.vtx).count outpoint ≤ (blockPeginsOf crypto block).count outpoint := by
  obtain ⟨coinbase, isCoinbase, vtx⟩ := integrates.vtx_eq checked
  -- the coinbase and the HogEx have no peg-ins
  have special : ∀ other ∈ block.vtx, (other.isCoinBase || other.isHogEx) = true →
      (createdOutPoints crypto other).count outpoint = 0 := by
    intro other member flag
    refine count_eq_zero_of_not_mem fun created => ?_
    have again := mem_peginsOf_of_created free indexed
      (indexed_of_checked checked member) pegin created
    obtain ⟨n, txout, at_, isPegin, -⟩ := mem_peginsOf.mp again
    exact absurd ((integrates.noPegins other member flag txout (mem_of_getElem? at_)).symm.trans
      isPegin)
      Bool.false_ne_true
  have first := special coinbase (by rw [vtx]; simp) (by simp [isCoinbase])
  have last := special hogEx integrates.mem_vtx (by simp [integrates.flagged])
  have middle : ((middleTxs block).flatMap (createdOutPoints crypto)).count outpoint ≤
      ((middleTxs block).flatMap (peginsOf crypto)).count outpoint := by
    rw [count_flatMap, count_flatMap]
    refine sum_le_sum fun other member => ?_
    have inside : other ∈ block.vtx := by rw [vtx]; simp [member]
    have indexed' := indexed_of_checked checked inside
    by_cases created : outpoint ∈ createdOutPoints crypto other
    · have again := mem_peginsOf_of_created free indexed indexed' pegin created
      rw [comp_apply, comp_apply, count_eq_one_of_mem (nodup_createdOutPoints indexed'.few) created]
      exact one_le_count_iff.mpr again
    · rw [comp_apply, count_eq_zero_of_not_mem created]
      exact Nat.zero_le _
  rw [createdIn, vtx, cons_append, flatMap_cons, flatMap_append, flatMap_singleton,
    count_append, count_append, first, last, blockPeginsOf]
  omega

theorem count_balance_le (free : crypto.TransactionInj) (indexed : Indexed hogEx) {other : CBlock T}
    (checked : CheckedBlock crypto params other)
    (input : outpoint ∈ previous ++ blockPeginsOf crypto block) :
    (createdIn crypto other.vtx).count (balanceOf crypto block) ≤
      (spentIn other.vtx).count outpoint := by
  rw [createdIn, spentIn, count_flatMap, count_flatMap]
  refine sum_le_sum fun tx member => ?_
  have indexed' := indexed_of_checked checked member
  rw [comp_apply, comp_apply]
  by_cases created : balanceOf crypto block ∈ createdOutPoints crypto tx
  · have inputs := integrates.spent_of_balance_created free indexed indexed' created
    rw [count_eq_one_of_mem (nodup_createdOutPoints indexed'.few) created, inputs]
    exact one_le_count_iff.mpr input
  · rw [count_eq_zero_of_not_mem created]
    exact Nat.zero_le _

end Integrates

end Outpoints

/-! ## One block -/

/-- What a block with a HogEx does to the outpoints between two views. -/
structure Settles (crypto : BlockCrypto T) (params : Params T) (view view' : CCoinsViewCache T)
    (block : CBlock T) (previous : List (COutPoint T)) (hogEx : CTransaction T) : Prop where
  checked : CheckedBlock crypto params block
  integrates : Integrates crypto block previous hogEx
  fresh : ∀ outpoint ∈ createdIn crypto block.vtx, view.present outpoint = 0
  conserves : ∀ outpoint, view.present outpoint + (createdIn crypto block.vtx).count outpoint =
    (spentIn block.vtx).count outpoint + view'.present outpoint
  balance : view'.present (balanceOf crypto block) = 1

variable {vtx : List (CTransaction T)} {blocks : List (CBlock T)} {newest : CBlock T}

theorem mem_spentIn (member : tx ∈ vtx)
    (spent : outpoint ∈ spentOutPoints tx) : outpoint ∈ spentIn vtx :=
  mem_flatMap.mpr ⟨tx, member, spent⟩

theorem two_le_count_spentIn {tx tx' : CTransaction T} (member : tx ∈ vtx)
    (member' : tx' ∈ vtx) (differ : tx ≠ tx') (spent : outpoint ∈ spentOutPoints tx)
    (spent' : outpoint ∈ spentOutPoints tx') : 2 ≤ (spentIn vtx).count outpoint := by
  obtain ⟨before, after, rfl⟩ := append_of_mem member
  have one := one_le_count_iff.mpr spent
  have other : 1 ≤ (spentIn (before ++ after)).count outpoint := by
    refine one_le_count_iff.mpr (mem_spentIn ?_ spent')
    rcases mem_append.mp member' with inside | inside
    · exact mem_append_left _ inside
    · rcases mem_cons.mp inside with rfl | inside
      · exact absurd rfl differ
      · exact mem_append_right _ inside
  simp only [spentIn, flatMap_append, flatMap_cons, count_append] at other ⊢
  omega

namespace Settles

variable {params : Params T} {view view' : CCoinsViewCache T} {block : CBlock T}
  {previous : List (COutPoint T)} {hogEx tx : CTransaction T} {outpoint : COutPoint T}

variable (settles : Settles crypto params view view' block previous hogEx)
include settles

theorem indexed : Indexed hogEx :=
  indexed_of_checked settles.checked settles.integrates.mem_vtx

theorem pegin_absent (free : crypto.TransactionInj) (indexed : Indexed tx)
    (pegin : outpoint ∈ peginsOf crypto tx) (absent : view.present outpoint = 0) :
    view'.present outpoint = 0 ∧ (spentIn block.vtx).count outpoint ≤ 1 ∧
      (outpoint ∈ spentIn block.vtx → outpoint ∈ blockPeginsOf crypto block) := by
  have kept := settles.conserves outpoint
  have created := settles.integrates.count_created_le free settles.checked indexed pegin
  have once := nodup_iff_count_le_one.mp (settles.integrates.nodup_pegins settles.checked) outpoint
  by_cases listed : outpoint ∈ blockPeginsOf crypto block
  · have spent : 1 ≤ (spentIn block.vtx).count outpoint := by
      refine one_le_count_iff.mpr (mem_spentIn settles.integrates.mem_vtx ?_)
      rw [settles.integrates.spentOutPoints_eq]
      exact mem_append_right _ listed
    exact ⟨by omega, by omega, fun _ => listed⟩
  · rw [count_eq_zero_of_not_mem listed] at created
    refine ⟨by omega, by omega, fun spent => ?_⟩
    have some_spent := one_le_count_iff.mpr spent
    omega

theorem own_pegin_absent (free : crypto.TransactionInj)
    (listed : outpoint ∈ blockPeginsOf crypto block) :
    view.present outpoint = 0 ∧ view'.present outpoint = 0 ∧
      ∃ tx, Indexed tx ∧ outpoint ∈ peginsOf crypto tx := by
  obtain ⟨tx, member, pegin⟩ := settles.integrates.exists_pegin settles.checked listed
  have indexed := indexed_of_checked settles.checked member
  have absent := settles.fresh outpoint
    (mem_flatMap.mpr ⟨tx, member, created_of_mem_peginsOf pegin⟩)
  exact ⟨absent, (settles.pegin_absent free indexed pegin absent).1, tx, indexed, pegin⟩

theorem balance_mem_created : balanceOf crypto block ∈ createdIn crypto block.vtx :=
  mem_flatMap.mpr ⟨hogEx, settles.integrates.mem_vtx, settles.integrates.balance_created⟩

theorem balance_unspent (free : crypto.TransactionInj)
    (input : outpoint ∈ previous ++ blockPeginsOf crypto block)
    (once : (spentIn block.vtx).count outpoint ≤ 1) :
    (spentIn block.vtx).count (balanceOf crypto block) = 0 := by
  have created := settles.integrates.count_balance_le free settles.indexed settles.checked input
  have kept := settles.conserves (balanceOf crypto block)
  rw [settles.fresh _ settles.balance_mem_created, settles.balance] at kept
  omega

end Settles

/-! ## Chains of blocks -/

/-- Every block integrates the one before it; the newest stands first. -/
def Chained (crypto : BlockCrypto T) (params : Params T) : List (CBlock T) → Prop
  | [] => False
  | [first] => CheckedBlock crypto params first ∧ ∃ hogEx, Integrates crypto first [] hogEx
  | block :: before :: older => CheckedBlock crypto params block ∧
      (∃ hogEx, Integrates crypto block [balanceOf crypto before] hogEx) ∧
        Chained crypto params (before :: older)

/-- The outpoints of a chain of blocks before the next one: only the newest balance is there. -/
structure Waiting (crypto : BlockCrypto T) (blocks : List (CBlock T))
    (view : CCoinsViewCache T) : Prop where
  older : ∀ block ∈ blocks.tail, view.present (balanceOf crypto block) = 0
  pegins : ∀ block ∈ blocks, ∀ outpoint ∈ blockPeginsOf crypto block, view.present outpoint = 0

section Chains

variable {params : Params T} {view view' : CCoinsViewCache T} {block : CBlock T}
  {hogEx : CTransaction T}

theorem Chained.integrates (chained : Chained crypto params blocks) :
    ∀ block ∈ blocks, CheckedBlock crypto params block ∧
      ∃ previous hogEx, Integrates crypto block previous hogEx := by
  induction blocks with
  | nil => exact nofun
  | cons block rest ih =>
    cases rest with
    | nil =>
      obtain ⟨checked, hogEx, integrates⟩ := chained
      exact forall_mem_cons.mpr ⟨⟨checked, _, _, integrates⟩, nofun⟩
    | cons before older =>
      obtain ⟨checked, ⟨hogEx, integrates⟩, chained⟩ := chained
      exact forall_mem_cons.mpr ⟨⟨checked, _, _, integrates⟩, ih chained⟩

theorem Chained.not_recreated (free : crypto.TransactionInj) {newestHogEx : CTransaction T}
    {newestPrevious : List (COutPoint T)} (newestIndexed : Indexed newestHogEx)
    (newestIntegrates : Integrates crypto newest newestPrevious newestHogEx)
    (settles : Settles crypto params view view' block [balanceOf crypto newest] hogEx)
    (chained : Chained crypto params blocks) (waiting : Waiting crypto blocks view) :
    ∀ old ∈ blocks, balanceOf crypto old ∉ createdIn crypto block.vtx := by
  induction blocks with
  | nil => exact nofun
  | cons old rest ih =>
    cases rest with
    | nil =>
      obtain ⟨checked, oldHogEx, integrates⟩ := chained
      refine forall_mem_cons.mpr ⟨fun created => ?_, nofun⟩
      obtain ⟨tx, member, creates⟩ := mem_flatMap.mp created
      have oldIndexed := indexed_of_checked checked integrates.mem_vtx
      have spent := integrates.spent_of_balance_created free oldIndexed
        (indexed_of_checked settles.checked member) creates
      rw [nil_append] at spent
      obtain ⟨outpoint, listed⟩ : ∃ outpoint, outpoint ∈ blockPeginsOf crypto old := by
        refine exists_mem_of_ne_nil _ fun none => oldIndexed.canonical ?_
        have inputs := integrates.inputs
        rwa [none, append_nil, map_eq_nil_iff] at inputs
      obtain ⟨peginTx, inside, pegin⟩ := integrates.exists_pegin checked listed
      obtain ⟨-, once, own⟩ := settles.pegin_absent free (indexed_of_checked checked inside) pegin
        (waiting.pegins old mem_cons_self outpoint listed)
      have here : outpoint ∈ spentOutPoints tx := spent ▸ listed
      have there : outpoint ∈ spentOutPoints hogEx := by
        rw [settles.integrates.spentOutPoints_eq]
        exact mem_append_right _ (own (mem_spentIn member here))
      have differ : tx ≠ hogEx := by
        rintro rfl
        -- the first input of the HogEx would be a balance and a peg-in
        rw [settles.integrates.spentOutPoints_eq] at spent
        have both : balanceOf crypto newest ∈ blockPeginsOf crypto old :=
          spent ▸ mem_append_left _ (mem_singleton_self _)
        obtain ⟨other, among, same⟩ := integrates.exists_pegin checked both
        exact newestIntegrates.balance_not_pegin free newestIndexed
          (indexed_of_checked checked among) same
      have twice := two_le_count_spentIn member settles.integrates.mem_vtx differ here there
      omega
    | cons before older =>
      obtain ⟨checked, ⟨oldHogEx, integrates⟩, chained⟩ := chained
      have waitingOlder : Waiting crypto (before :: older) view :=
        ⟨fun other member => waiting.older other (mem_of_mem_tail member),
          (forall_mem_cons.mp waiting.pegins).2⟩
      have others := ih chained waitingOlder
      refine forall_mem_cons.mpr ⟨fun created => ?_, others⟩
      have count := integrates.count_balance_le free
        (indexed_of_checked checked integrates.mem_vtx) settles.checked
        (mem_append_left _ (mem_singleton_self (balanceOf crypto before)))
      have some_created := one_le_count_iff.mpr created
      have kept := settles.conserves (balanceOf crypto before)
      rw [waiting.older before mem_cons_self,
        count_eq_zero_of_not_mem (others before mem_cons_self)] at kept
      omega

def spentBy (blocks : List (CBlock T)) (outpoint : COutPoint T) : Nat :=
  (blocks.map fun block => (spentIn block.vtx).count outpoint).sum

/-- The invariant of a chain of blocks, the newest first. -/
structure Standing (crypto : BlockCrypto T) (params : Params T) (blocks : List (CBlock T))
    (view : CCoinsViewCache T) : Prop where
  chained : Chained crypto params blocks
  waiting : Waiting crypto blocks view
  newest : ∀ block older, blocks = block :: older → view.present (balanceOf crypto block) = 1
  spentOnce : ∀ newer block older, blocks = newer ++ block :: older →
    spentBy (newer ++ [block]) (balanceOf crypto block) = if newer = [] then 0 else 1

theorem standing_first (free : crypto.TransactionInj)
    (settles : Settles crypto params view view' block [] hogEx) :
    Standing crypto params [block] view' := by
  refine ⟨⟨settles.checked, hogEx, settles.integrates⟩, ⟨nofun, ?_⟩, ?_, ?_⟩
  · intro other member outpoint listed
    cases mem_singleton.mp member
    exact (settles.own_pegin_absent free listed).2.1
  · rintro other older ⟨⟩
    exact settles.balance
  · intro newer other older split
    obtain ⟨rfl, rfl, -⟩ : newer = [] ∧ other = block ∧ older = [] := by
      cases newer with
      | nil => simpa [eq_comm] using split
      | cons first rest => simp at split
    -- some peg-in is spent, and only once
    obtain ⟨outpoint, listed⟩ : ∃ outpoint, outpoint ∈ blockPeginsOf crypto other := by
      refine exists_mem_of_ne_nil _ fun none => settles.indexed.canonical ?_
      have inputs := settles.integrates.inputs
      rwa [none, append_nil, map_eq_nil_iff] at inputs
    obtain ⟨absent, -, tx, indexed, pegin⟩ := settles.own_pegin_absent free listed
    have once := (settles.pegin_absent free indexed pegin absent).2.1
    have unspent := settles.balance_unspent free (mem_append_right _ listed) once
    simpa [spentBy] using unspent

theorem standing_next (free : crypto.TransactionInj) {older : List (CBlock T)}
    (standing : Standing crypto params (newest :: older) view)
    (settles : Settles crypto params view view' block [balanceOf crypto newest] hogEx) :
    Standing crypto params (block :: newest :: older) view' := by
  obtain ⟨checked, previous, newestHogEx, integrates⟩ :=
    standing.chained.integrates newest mem_cons_self
  have untouched := standing.chained.not_recreated free
    (indexed_of_checked checked integrates.mem_vtx) integrates settles standing.waiting
  have spends : 1 ≤ (spentIn block.vtx).count (balanceOf crypto newest) := by
    refine one_le_count_iff.mpr (mem_spentIn settles.integrates.mem_vtx ?_)
    rw [settles.integrates.spentOutPoints_eq]
    exact mem_append_left _ (mem_singleton_self _)
  have newest_count : (spentIn block.vtx).count (balanceOf crypto newest) = 1 ∧
      view'.present (balanceOf crypto newest) = 0 := by
    have kept := settles.conserves (balanceOf crypto newest)
    rw [standing.newest newest older rfl,
      count_eq_zero_of_not_mem (untouched newest mem_cons_self)] at kept
    omega
  have older_count : ∀ old ∈ older, (spentIn block.vtx).count (balanceOf crypto old) = 0 ∧
      view'.present (balanceOf crypto old) = 0 := by
    intro old member
    have kept := settles.conserves (balanceOf crypto old)
    rw [standing.waiting.older old member,
      count_eq_zero_of_not_mem (untouched old (mem_cons_of_mem _ member))] at kept
    omega
  refine ⟨⟨settles.checked, ⟨hogEx, settles.integrates⟩, standing.chained⟩, ⟨?_, ?_⟩, ?_, ?_⟩
  · exact forall_mem_cons.mpr ⟨newest_count.2, fun old member => (older_count old member).2⟩
  · refine forall_mem_cons.mpr ⟨fun outpoint listed =>
      (settles.own_pegin_absent free listed).2.1, ?_⟩
    intro old member outpoint listed
    obtain ⟨oldChecked, oldPrevious, oldHogEx, oldIntegrates⟩ :=
      standing.chained.integrates old member
    obtain ⟨tx, inside, pegin⟩ := oldIntegrates.exists_pegin oldChecked listed
    exact (settles.pegin_absent free (indexed_of_checked oldChecked inside) pegin
      (standing.waiting.pegins old member outpoint listed)).1
  · rintro other rest ⟨⟩
    exact settles.balance
  · intro newer other rest split
    cases newer with
    | nil =>
      cases split
      have unspent := settles.balance_unspent free
        (mem_append_left _ (mem_singleton_self (balanceOf crypto newest)))
        newest_count.1.le
      simpa [spentBy] using unspent
    | cons first newer =>
      obtain ⟨rfl, tail⟩ := cons.inj split
      have before := standing.spentOnce newer other rest tail
      rw [spentBy] at before
      rw [spentBy, cons_append, map_cons, sum_cons, before]
      cases newer with
      | nil =>
        obtain ⟨rfl, -⟩ := cons.inj tail
        simp [newest_count.1]
      | cons second newer =>
        obtain ⟨-, rest_eq⟩ := cons.inj tail
        have member : other ∈ older := by rw [rest_eq]; simp
        simp [(older_count other member).1]

end Chains

/-! ## Runs -/

/-- The end of the active chain. -/
structure Tip (T : CryptoTypes) where
  chain : Chain T
  view : CCoinsViewCache T

/-- The block after the chain is checked for outputs that are there already. -/
def checksBIP30 (params : Params T) (chain : Chain T) : Bool :=
  match chain.getAncestor params.bip34Height with
  | [] => true
  | index :: _ => decide (index.blockHash ≠ params.bip34Hash)

/-- The block is accepted after the tip and becomes the new one. The next block is connected to
any view with the same coins. -/
structure Extends (crypto : BlockCrypto T) (params : Params T) (tip : Tip T) (block : CBlock T)
    (next : Tip T) : Prop where
  accepted : ∃ (connection : Connection T) (undo : CBlockUndo T) (after : CCoinsViewCache T),
    connection.crypto = crypto ∧ connection.params = params ∧ connection.chain = tip.chain ∧
      contextualCheckBlock crypto params tip.chain block = .ok () ∧
      connection.connectBlock tip.view block = .ok (some undo, after) ∧
      ∀ outpoint, next.view.getCoin outpoint = after.getCoin outpoint
  coherent : next.view.Coherent
  indexed : ∃ index, next.chain = index :: tip.chain ∧
    (block.mwebBlock ≠ none → IndexOf crypto block index)

/-- The blocks since extension blocks are enforced, each with the tip it was accepted on; the
newest stands first. -/
inductive Active (crypto : BlockCrypto T) (params : Params T) (start : Tip T) :
    List (Tip T × CBlock T) → Tip T → Prop where
  | activate {block : CBlock T} {next : Tip T} (coherent : start.view.Coherent)
      (enabled : params.mwebEnabled start.chain = true)
      (first : params.mwebEnabled start.chain.tail = false)
      (accepted : Extends crypto params start block next) :
      Active crypto params start [(start, block)] next
  | extend {steps : List (Tip T × CBlock T)} {tip next : Tip T} {block : CBlock T}
      (earlier : Active crypto params start steps tip)
        (enabled : params.mwebEnabled tip.chain = true)
      (accepted : Extends crypto params tip block next) :
      Active crypto params start ((tip, block) :: steps) next

/-- No output of the block is there already. -/
def Unrepeated (crypto : BlockCrypto T) (view : CCoinsViewCache T) (block : CBlock T) : Prop :=
  ∀ outpoint ∈ createdIn crypto block.vtx, view.getCoin outpoint = none

variable {start : Tip T} {steps : List (Tip T × CBlock T)}

section Runs

variable {params : Params T} {tip next : Tip T} {block : CBlock T}

/-- Where the check of BIP30 is made there is nothing to ask for. -/
theorem Extends.unrepeated (accepted : Extends crypto params tip block next)
    (asked : checksBIP30 params tip.chain = false → Unrepeated crypto tip.view block) :
    Unrepeated crypto tip.view block := by
  cases enforced : checksBIP30 params tip.chain with
  | false => exact asked enforced
  | true =>
    obtain ⟨connection, undo, after, rfl, rfl, chain, -, connected, -⟩ := accepted.accepted
    obtain ⟨-, -, -, result⟩ := connectBlock_eq_ok.mp connected
    obtain ⟨_, _, _, _, parts, -⟩ := connectFrom_eq_ok.mp result
    have same : connection.enforceBIP30 = checksBIP30 connection.params connection.chain := rfl
    have rule : connection.enforceBIP30 = true := by rw [same, chain, enforced]
    have bip30 := parts.bip30
    simp only [checkBIP30, ensure_eq_ok] at bip30
    intro outpoint created
    obtain ⟨tx, member, creates⟩ := mem_flatMap.mp created
    obtain ⟨n, txout, at_, -, rfl⟩ := exists_of_mem_createdFrom creates
    have absent := bip30 rule tx member n (List.getElem?_eq_some_iff.mp at_).1
    rw [zero_add]
    exact Option.isSome_eq_false_iff.mp absent |> Option.isNone_iff_eq_none.mp

theorem present_of_last {connection : Connection T} {progress progress' : Progress T}
    {last : CTransaction T} {vtxundo : List (List Coin)}
    (plain : last.mwebTx = none) (few : last.vout.length ≤ CBlock.maxBlockWeight)
    (run : connection.connectTxs progress (vtx ++ [last]) = .ok (vtxundo, progress'))
    (created : outpoint ∈ createdOutPoints connection.crypto last) :
    progress'.view.present outpoint = 1 := by
  induction vtx generalizing progress vtxundo with
  | nil =>
    obtain ⟨vprevout, middle, later, step, run, -⟩ := connectTxs_cons.mp run
    cases run
    exact present_of_created plain few step created
  | cons tx rest ih =>
    obtain ⟨vprevout, middle, later, step, run, -⟩ := connectTxs_cons.mp run
    exact ih run

/-- An accepted block under the rules of extension blocks settles its outpoints. -/
theorem Extends.settles (accepted : Extends crypto params tip block next)
    (coherent : tip.view.Coherent) (enabled : params.mwebEnabled tip.chain = true)
    (fresh : Unrepeated crypto tip.view block) :
    ∃ hogEx, Settles crypto params tip.view next.view block
      (previousBalance params tip.chain) hogEx := by
  obtain ⟨connection, undo, after, rfl, rfl, chain, contextual, connected, coins⟩ :=
    accepted.accepted
  obtain ⟨checked, -, -, result⟩ := connectBlock_eq_ok.mp connected
  obtain ⟨vtxundo, progress, mwundo, mwebView, parts, -, rfl⟩ := connectFrom_eq_ok.mp result
  have mweb := parts.mweb
  rw [chain] at mweb
  obtain ⟨hogEx, integrates⟩ := integrates_of_accepts checked enabled
    (mweb_of_contextualCheckBlock contextual) mweb
  have unrepeated : NoDuplicates connection tip.view block := fun tx member outpoint created =>
    fresh outpoint (mem_flatMap.mpr ⟨tx, member, created⟩)
  have after_present : ∀ outpoint, next.view.present outpoint = progress.view.present outpoint := by
    intro outpoint
    rw [present, present, coins]
    exact congrArg (fun coin => if Option.isSome coin = true then 1 else 0)
      (getCoin_with _ _ _ _)
  refine ⟨hogEx, checked, integrates, ?_, ?_, ?_⟩
  · exact fun outpoint created => present_eq_zero.mpr (fresh outpoint created)
  · intro outpoint
    have kept := conserves_connectBlock outpoint coherent unrepeated connected
    rw [kept, present, present, coins]
  · have run := parts.txs
    rw [← dropLast_append_getLast? hogEx integrates.last] at run
    rw [after_present]
    exact present_of_last (checked.plain hogEx integrates.mem_vtx)
      (indexed_of_checked checked integrates.mem_vtx).few run integrates.balance_created

theorem Active.coherent (run : Active crypto params start steps tip) : tip.view.Coherent := by
  cases run with
  | activate _ _ _ accepted => exact accepted.coherent
  | extend _ _ accepted => exact accepted.coherent

theorem Active.previousBalance_eq {before : Tip T}
    (run : Active crypto params start ((before, newest) :: steps) tip) :
    previousBalance params tip.chain = [balanceOf crypto newest] := by
  have facts : params.mwebEnabled before.chain = true ∧
      Extends crypto params before newest tip := by
    cases run with
    | activate _ enabled _ accepted => exact ⟨enabled, accepted⟩
    | extend _ enabled accepted => exact ⟨enabled, accepted⟩
  obtain ⟨enabled, accepted⟩ := facts
  obtain ⟨index, chain, recorded⟩ := accepted.indexed
  obtain ⟨connection, undo, after, rfl, rfl, -, contextual, -⟩ := accepted.accepted
  obtain ⟨_, -, attached, -⟩ :=
    Node.exists_validHogEx enabled (mweb_of_contextualCheckBlock contextual)
  obtain ⟨-, -, hogEx, first, rest, found, -, hash, -⟩ := recorded (by simp [attached])
  have last : newest.vtx.getLast? = some hogEx := by
    cases last : newest.vtx.getLast? with
    | none => simp [CBlock.getHogEx, last] at found
    | some other => rw [getHogEx_eq found last]
  rw [previousBalance, Node.isFirstHogEx, chain, tail_cons, enabled, balanceOf, last]
  simp [hash]

theorem Active.standing (free : crypto.TransactionInj) (run : Active crypto params start steps tip)
    (unrepeated : ∀ step ∈ steps, checksBIP30 params step.1.chain = false → Unrepeated crypto
      step.1.view step.2) : Standing crypto params (steps.map Prod.snd) tip.view := by
  induction run with
  | activate coherent enabled first accepted =>
    have fresh := accepted.unrepeated (unrepeated _ mem_cons_self)
    obtain ⟨hogEx, settles⟩ := accepted.settles coherent enabled fresh
    have none : previousBalance params start.chain = [] := by
      simp [previousBalance, Node.isFirstHogEx, first]
    exact standing_first free (none ▸ settles)
  | @extend steps tip next block earlier enabled accepted ih =>
    rw [forall_mem_cons] at unrepeated
    obtain ⟨hogEx, settles⟩ := accepted.settles earlier.coherent enabled
      (accepted.unrepeated unrepeated.1)
    have standing := ih unrepeated.2
    cases steps with
    | nil => exact absurd standing.chained id
    | cons step steps => exact standing_next free standing (earlier.previousBalance_eq ▸ settles)

/-- The balances and peg-ins of blocks, the newest first, and of the view after them. -/
structure HogExChain (crypto : BlockCrypto T) (blocks : List (CBlock T))
    (view : CCoinsViewCache T) : Prop where
  /-- The first input of a HogEx spends the balance of the block before. -/
  linked : ∀ newer block before older, blocks = newer ++ block :: before :: older →
    ∃ hogEx, block.vtx.getLast? = some hogEx ∧
      (hogEx.vin.map CTxIn.prevout).head? = some (balanceOf crypto before)
  /-- A balance is spent once, that of the newest block not at all. -/
  spentOnce : ∀ newer block older, blocks = newer ++ block :: older →
    spentBy (newer ++ [block]) (balanceOf crypto block) = if newer = [] then 0 else 1
  /-- The HogEx of a block spends its peg-ins. -/
  peginsSpent : ∀ block ∈ blocks, ∃ hogEx, block.vtx.getLast? = some hogEx ∧
    ∀ outpoint ∈ blockPeginsOf crypto block, outpoint ∈ hogEx.vin.map CTxIn.prevout
  /-- The newest balance is the only one that is left. -/
  balance : ∀ newer block older, blocks = newer ++ block :: older →
    ((∃ coin, view.getCoin (balanceOf crypto block) = some coin) ↔ newer = [])
  /-- No peg-in is left. -/
  noPegins : ∀ block ∈ blocks, ∀ outpoint ∈ blockPeginsOf crypto block, view.getCoin outpoint = none

theorem Chained.linked (chained : Chained crypto params blocks) :
    ∀ newer block before older, blocks = newer ++ block :: before :: older →
      ∃ hogEx, Integrates crypto block [balanceOf crypto before] hogEx := by
  induction blocks with
  | nil => exact absurd chained id
  | cons first rest ih =>
    intro newer block before older split
    cases newer with
    | nil =>
      cases split
      exact chained.2.1
    | cons second newer =>
      obtain ⟨rfl, tail⟩ := cons.inj split
      cases rest with
      | nil => simp at tail
      | cons third rest => exact ih chained.2.2 newer block before older tail

/-- In every run of accepted blocks since extension blocks are enforced the balances form a chain
and no peg-in is left, if blocks that are connected without the check of BIP30 create no output
that is there already. -/
theorem hogExChain_of_active (free : crypto.TransactionInj) {start : Tip T}
    {steps : List (Tip T × CBlock T)} (run : Active crypto params start steps tip)
    (unrepeated : ∀ step ∈ steps, checksBIP30 params step.1.chain = false →
      Unrepeated crypto step.1.view step.2) : HogExChain crypto (steps.map Prod.snd) tip.view := by
  have standing := run.standing free unrepeated
  refine ⟨?_, standing.spentOnce, ?_, ?_, ?_⟩
  · intro newer block before older split
    obtain ⟨hogEx, integrates⟩ := standing.chained.linked newer block before older split
    exact ⟨hogEx, integrates.last, by rw [integrates.inputs]; rfl⟩
  · intro block member
    obtain ⟨-, previous, hogEx, integrates⟩ := standing.chained.integrates block member
    refine ⟨hogEx, integrates.last, fun outpoint listed => ?_⟩
    rw [integrates.inputs]
    exact mem_append_right _ listed
  · intro newer block older split
    rw [← present_eq_one]
    cases newer with
    | nil => exact iff_of_true (standing.newest block older split) rfl
    | cons first newer =>
      have absent := standing.waiting.older block (by rw [split]; simp)
      simp [absent]
  · intro block member outpoint listed
    exact present_eq_zero.mp (standing.waiting.pegins block member outpoint listed)

end Runs

end MooncoinFormal.Mweb

namespace MooncoinFormal.Primitives.Numeric

open Coins Validation Mweb List

/-! ## The first block with an extension block -/

def activationKernel : Kernel types := peginKernel 20 (5, 0)

def activationMweb : Block types :=
  { peginBlock with header := { peginBlock.header with height := 8, stealthOffset := (2 : Int) } }

def chainCrypto : BlockCrypto types := namingCrypto activationMweb.header [activationKernel]

/-- Extension blocks are enforced from height eight on. -/
def activationParams : Params types :=
  { params with mwebEnabled := fun chain => decide (8 ≤ chain.length) }

def activationConnection : Connection types :=
  { connectionAt 8 (by decide) activationParams with crypto := chainCrypto }

def activationPegin : CTransaction types := kernelPegin chainCrypto 20 activationKernel

def activationHogEx : CTransaction types :=
  committingHogEx chainCrypto [⟨activationPegin.getHash chainCrypto, 0⟩] 20 activationMweb.header

def activationBlock : CBlock types :=
  extendedBlock chainCrypto [0x58, 0x00] [activationPegin, activationHogEx] activationMweb

variable (repeated : Bool)

/-- The coin that is pegged in and, if the peg-in was mined before, its output of that time. -/
def activationView : CCoinsViewCache types :=
  viewOf ((⟨(7 : Nat), 0⟩, ⟨⟨20, [0x51]⟩, false, 1, false⟩) ::
    if repeated then
      [(⟨activationPegin.getHash chainCrypto, 0⟩,
        ⟨activationPegin.vout.headD ⟨0, []⟩, false, 1, false⟩)]
    else []) (by
    cases repeated with
    | false => exact forall_mem_singleton.mpr ⟨rfl, rfl, by decide⟩
    | true =>
      exact forall_mem_cons.mpr ⟨⟨rfl, rfl, by decide⟩,
        forall_mem_singleton.mpr ⟨by decide +kernel, by decide +kernel, by decide⟩⟩)

def soundEntry (view : CCoinsViewCache types) (outpoint : COutPoint types) : Bool :=
  match view.cacheCoins outpoint with
  | none => true
  | some entry =>
    (!entry.fresh || decide (view.base.getCoin outpoint = none)) &&
      (entry.dirty || decide (entry.coin = view.base.getCoin outpoint)) &&
      (match entry.coin with
        | none => true
        | some coin => !coin.isSpent && !coin.out.scriptPubKey.isUnspendable &&
          decide (coin.nHeight ≠ 0))

theorem coherent_of_soundEntry {view : CCoinsViewCache types} {touched : List (COutPoint types)}
    (elsewhere : ∀ outpoint, outpoint ∉ touched → view.cacheCoins outpoint = none)
    (sound : ∀ outpoint ∈ touched, soundEntry view outpoint = true) : view.Coherent := by
  have entries : ∀ outpoint entry, view.cacheCoins outpoint = some entry →
      (entry.fresh = true → view.base.getCoin outpoint = none) ∧
        (entry.dirty = false → entry.coin = view.base.getCoin outpoint) ∧
        ∀ coin, entry.coin = some coin → coin.Valid := by
    intro outpoint entry cached
    have inside : outpoint ∈ touched := by
      by_contra outside
      rw [elsewhere outpoint outside] at cached
      cases cached
    have holds := sound outpoint inside
    simp only [soundEntry, cached, Bool.and_eq_true, Bool.or_eq_true, Bool.not_eq_true',
      decide_eq_true_eq] at holds
    obtain ⟨⟨fresh, clean⟩, valid⟩ := holds
    refine ⟨fun flag => fresh.resolve_left ?_, fun flag => clean.resolve_left ?_, ?_⟩
    · rw [flag]
      rintro ⟨⟩
    · rw [flag]
      rintro ⟨⟩
    · intro coin isCoin
      simp only [isCoin, Bool.and_eq_true, Bool.not_eq_true', decide_eq_true_eq] at valid
      exact ⟨valid.1.1, valid.1.2, valid.2⟩
  exact ⟨fun outpoint entry cached => (entries outpoint entry cached).1,
    fun outpoint entry cached => (entries outpoint entry cached).2.1,
    fun outpoint entry coin cached => (entries outpoint entry cached).2.2 coin⟩

def activationTip : Tip types :=
  ⟨activationConnection.chain, activationView repeated⟩

def activationOutPoint : COutPoint types := ⟨activationPegin.getHash chainCrypto, 0⟩

def touchedOutPoints : List (COutPoint types) :=
  spentIn activationBlock.vtx ++ createdIn chainCrypto activationBlock.vtx

/-- Whether the block leaves sound entries, and the coin that was there before. -/
def activationSound : Bool :=
  match activationConnection.connectBlock (activationView repeated) activationBlock with
  | .ok (some _, after) => (touchedOutPoints.all (soundEntry after)) &&
      decide ((after.getCoin activationOutPoint).isSome = repeated)
  | _ => false

theorem activationBlock_accepted : ∃ next,
    Active chainCrypto activationParams (activationTip repeated)
      [(activationTip repeated, activationBlock)] next ∧
      (next.view.getCoin activationOutPoint).isSome = repeated := by
  have succeeds : ∀ repeated, (contextualCheckBlock chainCrypto activationParams
        activationConnection.chain activationBlock).isOk = true ∧
      activationSound repeated = true := by
    decide +kernel
  obtain ⟨⟨⟩, contextual⟩ := Library.Checks.exists_of_isOk (succeeds repeated).1
  have result := (succeeds repeated).2
  unfold activationSound at result
  split at result
  · rename_i undo after connected
    rw [Bool.and_eq_true, all_eq_true, decide_eq_true_eq] at result
    obtain ⟨sound, kept⟩ := result
    have coherent : after.Coherent := by
      refine @coherent_of_soundEntry after touchedOutPoints (fun outpoint outside => ?_) sound
      obtain ⟨checked, -, -, from_⟩ := Connection.connectBlock_eq_ok.mp connected
      obtain ⟨vtxundo, progress, mwundo, mwebView, parts, -, rfl⟩ :=
        Connection.connectFrom_eq_ok.mp from_
      rw [touchedOutPoints, mem_append, not_or] at outside
      have kept : progress.view.cacheCoins outpoint =
          (activationView repeated).cacheCoins outpoint := by
        refine (connectTxs_frame checked.plain parts.txs).2 _ fun tx member =>
          ⟨fun spent => ?_, fun created => ?_⟩
        · exact outside.1 (mem_spentIn member spent)
        · exact outside.2 (mem_flatMap.mpr ⟨tx, member, created⟩)
      exact kept
    let index : CBlockIndex types :=
      ⟨activationBlock.header, activationBlock.getHash chainCrypto,
        activationHogEx.getHash chainCrypto, 20, by decide⟩
    have enabled : activationParams.mwebEnabled activationConnection.chain = true := by decide
    have first : activationParams.mwebEnabled activationConnection.chain.tail = false := by decide
    have start : (activationTip repeated).view.Coherent :=
      ⟨by rintro _ _ ⟨⟩, by rintro _ _ ⟨⟩, by rintro _ _ _ ⟨⟩⟩
    refine ⟨⟨index :: activationConnection.chain, after⟩, .activate start enabled first
      ⟨⟨activationConnection, undo, after, rfl, rfl, rfl, contextual, connected, fun _ => rfl⟩,
        coherent, index, rfl, fun _ => ⟨rfl, rfl, activationHogEx, _, _, rfl, rfl, rfl, rfl⟩⟩, kept⟩
  · cases result

/-- A first block that creates nothing that is there already. -/
theorem hogExChain_activationBlock : ∃ tip,
    Active chainCrypto activationParams (activationTip false)
      [(activationTip false, activationBlock)] tip ∧
      HogExChain chainCrypto [activationBlock] tip.view := by
  obtain ⟨tip, run, -⟩ := activationBlock_accepted false
  refine ⟨tip, run, hogExChain_of_active (ideal_collisionFree _).transaction_inj run ?_⟩
  refine forall_mem_singleton.mpr fun _ => ?_
  unfold Unrepeated
  decide +kernel

/-- A peg-in that was mined before and whose output is unspent: the HogEx spends the new output,
and the old one is there again. -/
theorem repeatedPegin_stays : ∃ tip,
    Active chainCrypto activationParams (activationTip true)
      [(activationTip true, activationBlock)] tip ∧
      ¬ HogExChain chainCrypto [activationBlock] tip.view := by
  obtain ⟨tip, run, kept⟩ := activationBlock_accepted true
  refine ⟨tip, run, fun holds => ?_⟩
  have listed : activationOutPoint ∈ blockPeginsOf chainCrypto activationBlock := by decide +kernel
  rw [holds.noPegins activationBlock mem_cons_self activationOutPoint listed] at kept
  cases kept

end MooncoinFormal.Primitives.Numeric
