import MooncoinFormal.Mweb.ExactSums
import MooncoinFormal.Validation.Extended
import MooncoinFormal.Validation.FlaggedRuns

/-!
# Blocks that take the place of another

A node stores the first block with a given hash that passes `CheckBlock` and
`ContextualCheckBlock`. Two such blocks can differ in their flags, and in the outputs
and inputs of their extension blocks, which are compared with the header only when the
block is connected. Whether a stored block can be connected where another with its hash
can is decided by these.
-/

namespace MooncoinFormal.Validation

open Primitives Coins Mweb Library Library.Checks CTransaction Connection List

variable {T : CryptoTypes}

/-! ## The extension block -/

section Extension

variable {crypto : BlockCrypto T} {params : Params T} {chain : Chain T} {block other : CBlock T}

theorem peginOutputs_eq (same : block.vtx.map stripped = other.vtx.map stripped) :
    peginOutputs block = peginOutputs other := by
  have outputs : block.vtx.map vout = other.vtx.map vout :=
    map_eq_map_iff_forall₂.mpr
      ((map_eq_map_iff_forall₂.mp same).imp fun _ _ here => vout_eq here)
  have read : ∀ some_block : CBlock T, peginOutputs some_block =
      ((some_block.vtx.map vout).dropLast.drop 1).flatMap fun vout => vout.filter isPegin := by
    intro some_block
    rw [← map_dropLast, ← map_drop, flatMap_map]
    rfl
  rw [read, read, outputs]

theorem checkHogExInput_stripped (chain : Chain T) (hogEx : CTransaction T) :
    Node.checkHogExInput chain hogEx.stripped = Node.checkHogExInput chain hogEx := by
  unfold Node.checkHogExInput stripped
  cases hogEx.vin with
  | nil => rfl
  | cons txin rest => cases chain <;> rfl

variable {mwebBlock mwebBlock' : Block T} {hogEx hogEx' : CTransaction T}

theorem amounts_of_alike {body body' : TxBody T}
    (alike : List.Forall₂ Kernel.Alike body.kernels body'.kernels)
    (nonneg : body.Nonnegative) (nonneg' : body'.Nonnegative)
    (pegouts : body.getPegOuts.Perm body'.getPegOuts) :
    body.getTotalFee = body'.getTotalFee ∧ body.getSupplyChange = body'.getSupplyChange := by
  obtain ⟨length, alike⟩ := forall₂_iff_get.mp alike
  have fees : body.kernels.map Kernel.getFee = body'.kernels.map Kernel.getFee :=
    map_eq_map_iff_forall₂.mpr <| forall₂_iff_get.mpr ⟨length, fun i inside inside' =>
      (alike i inside inside').fee (nonneg.fees _ (get_mem _ _)) (nonneg'.fees _ (get_mem _ _))⟩
  have pegins : body.kernels.map Kernel.getPegIn = body'.kernels.map Kernel.getPegIn :=
    map_eq_map_iff_forall₂.mpr <| forall₂_iff_get.mpr ⟨length, fun i inside inside' =>
      (alike i inside inside').pegin
        ((forall₂_iff_get.mp (map_eq_map_iff_forall₂.mp fees)).2 i inside inside')
        (nonneg.pegins _ (get_mem _ _)) (nonneg'.pegins _ (get_mem _ _))⟩
  refine ⟨congrArg accumulate fees, ?_⟩
  have total : ∀ some_body : TxBody T, some_body.flow =
      ((some_body.kernels.map Kernel.getPegIn).map Int64.toInt).sum - some_body.pegoutTotal -
        ((some_body.kernels.map Kernel.getFee).map Int64.toInt).sum := by
    intro some_body
    rw [map_map, map_map]
    rfl
  rw [TxBody.getSupplyChange_eq_flow, TxBody.getSupplyChange_eq_flow, total, total, fees, pegins,
    TxBody.pegoutTotal, (pegouts.map _).sum_eq]
  rfl

theorem checkConnect_of_same (same : block.vtx.map stripped = other.vtx.map stripped)
    (stripped : hogEx.stripped = hogEx'.stripped)
    (fees : mwebBlock.body.getTotalFee = mwebBlock'.body.getTotalFee)
    (supply : mwebBlock.body.getSupplyChange = mwebBlock'.body.getSupplyChange)
    (checked : Node.checkConnect params chain block hogEx mwebBlock) :
    Node.checkConnect params chain other hogEx' mwebBlock' := by
  have vout := vout_eq stripped
  obtain ⟨input, amounts⟩ := checked
  refine ⟨fun later => ?_, ?_⟩
  · rw [← checkHogExInput_stripped, ← stripped, checkHogExInput_stripped]
    exact input later
  · rw [Node.checkHogExAmounts, getValueOut] at amounts ⊢
    rw [← peginOutputs_eq same, ← vout, ← fees, ← supply]
    exact amounts

theorem header_eq_of_hogEx (free : crypto.CollisionFree)
    (stripped : hogEx.stripped = hogEx'.stripped)
    (valid : Node.ValidHogEx crypto params chain block mwebBlock hogEx)
    (valid' : Node.ValidHogEx crypto params chain other mwebBlock' hogEx') :
    mwebBlock.header = mwebBlock'.header := by
  obtain ⟨hogAddr, pegouts, mwebHash, outputs, program, hash⟩ := valid.committed
  obtain ⟨hogAddr', pegouts', mwebHash', outputs', program', hash'⟩ := valid'.committed
  rw [← vout_eq stripped, outputs] at outputs'
  cases outputs'
  rw [program] at program'
  cases program'
  exact free.header_inj (valid.height.trans valid'.height.symm) (hash.symm.trans hash')

theorem mweb_connects_iff (free : crypto.CollisionFree)
    (same : block.vtx.map stripped = other.vtx.map stripped)
    (contextual : Node.contextualCheckBlock crypto params chain block = .ok ())
    (contextual' : Node.contextualCheckBlock crypto params chain other = .ok ())
    {base : ICoinsView T} {top last : CoinsViewCache T} {undo : Option (BlockUndo T)}
    (consistent : Consistent crypto.toCrypto (.cache base top))
    (connected : Node.connectBlock crypto params chain block base top = .ok (undo, last))
    (read : ∀ mwebBlock, block.mwebBlock = some mwebBlock → mwebBlock.body.Nonnegative)
    (read' : ∀ mwebBlock, other.mwebBlock = some mwebBlock → mwebBlock.body.Nonnegative) :
    (∃ result, Node.connectBlock crypto params chain other base top = .ok result) ↔
      ∀ mwebBlock mwebBlock', block.mwebBlock = some mwebBlock → other.mwebBlock = some mwebBlock' →
        SameEffect mwebBlock.body mwebBlock'.body := by
  cases attached' : other.mwebBlock with
  | none =>
    refine iff_of_true ⟨(none, top), ?_⟩ nofun
    rw [Node.connectBlock, attached']
  | some mwebBlock' =>
    obtain ⟨enabled, hogEx', valid'⟩ := (Node.contextualCheckBlock_eq_ok attached').mp contextual'
    obtain ⟨mwebBlock, hogEx, attached, valid⟩ := Node.exists_validHogEx enabled contextual
    have stripped : hogEx.stripped = hogEx'.stripped := by
      have last := congrArg getLast? same
      rw [getLast?_map, getLast?_map, valid.last, valid'.last] at last
      exact Option.some.inj last
    have header := header_eq_of_hogEx free stripped valid valid'
    have passes := valid.validated
    have passes' := valid'.validated
    simp only [validateBlock, bind_eq_ok] at passes passes'
    obtain ⟨⟨⟩, passes, -⟩ := passes
    obtain ⟨⟨⟩, passes', -⟩ := passes'
    obtain ⟨checked, mwundo, applied, -⟩ :=
      (Node.connectBlock_eq_ok attached valid.last).mp connected
    have alike := Block.kernels_alike free header passes passes'
    have pegouts : mwebBlock.body.getPegOuts.Perm mwebBlock'.body.getPegOuts := by
      refine (hogexPegouts_perm valid.validated).symm.trans ?_
      rw [hogexPegouts, vout_eq stripped]
      exact hogexPegouts_perm valid'.validated
    obtain ⟨fees, supply⟩ := amounts_of_alike alike (read _ attached) (read' _ attached') pegouts
    have commits : mwebBlock'.body.getKernelCommits = mwebBlock.body.getKernelCommits :=
      (map_eq_map_iff_forall₂.mpr (alike.imp fun _ _ here => here.excess)).symm
    have checked' := checkConnect_of_same same stripped fees supply checked
    obtain ⟨state, rep⟩ := consistent
    have applies_iff := applyBlock_iff_sameEffect free rep.toRepresentsSet header passes passes'
      commits supply.symm applied
    constructor
    · rintro ⟨⟨undo', last'⟩, connected'⟩ _ _ here ⟨⟩
      cases attached.symm.trans here
      obtain ⟨-, mwundo', applied', -⟩ :=
        (Node.connectBlock_eq_ok attached' valid'.last).mp connected'
      exact applies_iff.mp ⟨mwundo', last', applied'⟩
    · intro effect
      obtain ⟨mwundo', last', applied'⟩ := applies_iff.mpr (effect _ _ attached rfl)
      exact ⟨(some mwundo', last'), (Node.connectBlock_eq_ok attached' valid'.last).mpr
        ⟨checked', mwundo', applied', rfl⟩⟩

end Extension

/-! ## The whole block -/

section Blocks

variable {connection : Connection T} {view after : CCoinsViewCache T} {block other : CBlock T}
  {undo : Option (CBlockUndo T)}

theorem agreed_of_hash (free : connection.crypto.CollisionFree)
    (checked : CheckedBlock connection.crypto connection.params block)
    (checked' : CheckedBlock connection.crypto connection.params other)
    (count : block.vtx.length = other.vtx.length)
    (same : block.getHash connection.crypto = other.getHash connection.crypto)
    (witness : checkWitness connection.crypto connection.params connection.chain block = .ok ())
    (witness' : checkWitness connection.crypto connection.params connection.chain other = .ok ()) :
    List.Forall₂ (Agreed connection) block.vtx other.vtx := by
  have committed := sameCommitted_of_hash free checked checked' count same
  refine forall₂_iff_get.mpr ⟨committed.length_eq, fun i inside inside' => ?_⟩
  refine ⟨(forall₂_iff_get.mp committed).2 i inside inside', fun enabled => ?_⟩
  have stripped := stripped_eq_of_hash free checked checked' count same
  exact (forall₂_iff_get.mp (map_eq_map_iff_forall₂.mp
    (withoutMweb_eq_of_witness free checked checked' stripped enabled witness witness'))).2 i
      inside inside'

theorem checkBIP30_of_agreed (agreed : List.Forall₂ (Agreed connection) block.vtx other.vtx)
    (checked : connection.checkBIP30 view block = .ok ()) :
    connection.checkBIP30 view other = .ok () := by
  rw [checkBIP30, ensure_eq_ok] at checked ⊢
  intro enforced
  refine forall_of_forall₂ agreed (fun tx tx' here unknown o inside => ?_) (checked enforced)
  rw [← vout_eq here.stripped] at inside
  rw [← getHash_eq_of_stripped connection.crypto here.stripped here.canonical]
  exact unknown o inside

theorem checkReward_of_same (header : block.header = other.header)
    (same : block.vtx.map stripped = other.vtx.map stripped) {nFees : CAmount}
    (checked : connection.checkReward block nFees = .ok ()) :
    connection.checkReward other nFees = .ok () := by
  have value : ∀ some_block : CBlock T, some_block.vtx.head?.bind getValueOut =
      (some_block.vtx.head?.map stripped).bind getValueOut := by
    intro some_block
    rw [Option.bind_map]
    rfl
  rw [checkReward, value, ← header, ← head?_stripped same, ← value]
  exact checked

/-- A block that passes the checks before it is stored connects where another with its hash and as
many transactions does exactly when it spends none of the peg-outs that its flags mark and its
extension block has the effect of the other. -/
theorem connects_iff_sameEffect (free : connection.crypto.CollisionFree)
    (consistent : Consistent connection.crypto.toCrypto (.cache view.base.mwebView view.mwebView))
    (same : block.getHash connection.crypto = other.getHash connection.crypto)
    (count : block.vtx.length = other.vtx.length)
    (read : ∀ mwebBlock, block.mwebBlock = some mwebBlock → mwebBlock.body.Nonnegative)
    (read' : ∀ mwebBlock, other.mwebBlock = some mwebBlock → mwebBlock.body.Nonnegative)
    (contextual : contextualCheckBlock connection.crypto connection.params connection.chain
      block = .ok ())
    (connected : connection.connectBlock view block = .ok (undo, after))
    (check' : checkBlock connection.crypto connection.params other = .ok ())
    (contextual' : contextualCheckBlock connection.crypto connection.params connection.chain
      other = .ok ()) :
    (∃ result, connection.connectBlock view other = .ok result) ↔
      other.getHash connection.crypto = connection.params.hashGenesisBlock ∨
        SparesMarks connection.crypto other.vtx ∧
          ∀ mwebBlock mwebBlock', block.mwebBlock = some mwebBlock →
            other.mwebBlock = some mwebBlock' →
            SameEffect mwebBlock.body mwebBlock'.body := by
  have checked' := checkBlock_eq_ok.mp check'
  obtain ⟨checked, tip, result⟩ := connectBlock_cases connected
  have stripped := stripped_eq_of_hash free checked checked' count same
  rcases result with ⟨genesis, -, -⟩ | ⟨regular, done, -, from_⟩
  · rw [same] at genesis
    refine iff_of_true ⟨(none, { view with hashBlock := other.getHash connection.crypto }), ?_⟩
      (Or.inl genesis)
    simp only [connectBlock, bind_eq_ok, recheck_eq_ok, ensure_eq_ok, genesis, if_true]
    exact ⟨(), checked', (), tip, trivial⟩
  · rw [same] at regular
    rw [or_iff_right regular]
    simp only [contextualCheckBlock, bind_eq_ok] at contextual contextual'
    obtain ⟨⟨⟩, -, ⟨⟩, -, ⟨⟩, witness, ⟨⟩, -, contextual⟩ := contextual
    obtain ⟨⟨⟩, -, ⟨⟩, -, ⟨⟩, witness', ⟨⟩, -, contextual'⟩ := contextual'
    have agreed := agreed_of_hash free checked checked' count same witness witness'
    obtain ⟨vtxundo, progress, mwundo, mwebView, parts, -, -⟩ := connectFrom_eq_ok.mp from_
    have below := (connectTxs_frame checked.plain parts.txs).1
    have extension := mweb_connects_iff free stripped contextual contextual'
      (by rw [below.base, below.mwebView]; exact consistent) parts.mweb read read'
    have reaches : (∃ result, connection.connectBlock view other = .ok result) ↔
        ∃ result, connection.connectFrom view other = .ok result := by
      constructor
      · rintro ⟨⟨undo', after'⟩, connected'⟩
        obtain ⟨-, -, ⟨genesis, -⟩ | ⟨-, done', -, from_'⟩⟩ := connectBlock_cases connected'
        · exact absurd genesis regular
        · exact ⟨_, from_'⟩
      · rintro ⟨⟨done', after'⟩, from_'⟩
        exact ⟨_, connectBlock_eq_ok.mpr ⟨checked', tip, regular, from_'⟩⟩
    rw [reaches, ← extension]
    constructor
    · rintro ⟨⟨done', after'⟩, from_'⟩
      obtain ⟨vtxundo', progress', mwundo', mwebView', parts', -, -⟩ :=
        connectFrom_eq_ok.mp from_'
      obtain ⟨coinbase, rest, vtx, -, others⟩ := checked'.coinbase
      have below' := (connectTxs_frame checked'.plain parts'.txs).1
      refine ⟨sparesMarks_of_connectTxs checked'.plain
        (fun tx member => (lengths_of_checkTransaction _ _ (checked'.txs tx member)).2)
        (by rw [vtx]; exact others) parts'.txs, (mwundo', mwebView'), ?_⟩
      rw [below.base, below.mwebView, ← below'.base, ← below'.mwebView]
      exact parts'.mweb
    · rintro ⟨spares, ⟨mwundo', mwebView'⟩, mweb'⟩
      obtain ⟨marked, vtxundo', progress', run', alike⟩ := connectTxs_of_alike agreed
        ⟨Alike.refl ∅ view, rfl, rfl⟩ (fun _ _ _ _ => Set.notMem_empty _) spares parts.txs
      refine ⟨_, connectFrom_eq_ok.mpr ⟨vtxundo', progress', mwundo', mwebView',
        ⟨parts.chain, checkBIP30_of_agreed agreed parts.bip30, run', ?_, ?_⟩, rfl, rfl⟩⟩
      · rw [alike.nFees]
        exact checkReward_of_same (header_eq_of_hash free same) stripped parts.reward
      · rw [alike.view.base, alike.view.mwebView]
        exact mweb'

end Blocks

end MooncoinFormal.Validation

namespace MooncoinFormal.Primitives.Numeric

open Coins Validation Mweb Library.Checks

/-- A flag on a transaction whose outputs are not spent in the block changes nothing for the
connection. -/
theorem flaggedCopy_connects :
    (∃ result, idealConnection.connectBlock (paidView false) (twoOutputs false) = .ok result) ∧
      ∃ result, idealConnection.connectBlock (paidView false) (twoOutputs true) = .ok result := by
  have succeeds : ∀ hogEx,
      (checkBlock idealConnection.crypto idealConnection.params (twoOutputs hogEx)).isOk = true ∧
      (contextualCheckBlock idealConnection.crypto idealConnection.params idealConnection.chain
        (twoOutputs hogEx)).isOk = true := by
    decide +kernel
  have connects : (idealConnection.connectBlock (paidView false)
      (twoOutputs false)).isOk = true := by
    decide +kernel
  obtain ⟨⟨⟩, contextual⟩ := exists_of_isOk (succeeds false).2
  obtain ⟨⟨⟩, check'⟩ := exists_of_isOk (succeeds true).1
  obtain ⟨⟨⟩, contextual'⟩ := exists_of_isOk (succeeds true).2
  obtain ⟨⟨undo, after⟩, connected⟩ := exists_of_isOk connects
  refine ⟨⟨_, connected⟩, (connects_iff_sameEffect (ideal_collisionFree [])
    ⟨_, unstarted_represents _⟩ (by decide +kernel) (by rfl) (by rintro _ ⟨⟩)
      (by rintro _ ⟨⟩) contextual
    connected check' contextual').mpr (Or.inr ⟨by decide +kernel, nofun⟩)⟩

/-! ## A body with another commitment of an input -/

variable (commitment : Int × Int)

/-- One output is kept and one is spent in its own block, by an input that carries the given
commitment. -/
def relayedBody : TxBody types where
  inputs := [
    { spendOutput passedOutput with
      outputID := idealMweb.hashOutput passedOutput
      commitment := commitment
      signature := sign passedOutput.receiverPubKey
        (crypto.inputMessage 0 (idealMweb.hashOutput passedOutput) none) }]
  outputs := [passedOutput, keptOutput]
  kernels := [peginKernel 20 (5, 0)]

def relayedMweb : Block types :=
  ⟨firstHeader 1 (relayedBody commitment) (fun i => decide (i = 1)) 0, relayedBody commitment⟩

def relayCrypto : BlockCrypto types :=
  namingCrypto (relayedMweb passedOutput.commitment).header [peginKernel 20 (5, 0)]

/-- The first block with an extension block, after the genesis block. -/
def relayConnection : Connection types :=
  { connectionAt 1 one_lt_height params with crypto := relayCrypto }

def relayedBlock : CBlock types :=
  let pegin := kernelPegin relayCrypto 20 (peginKernel 20 (5, 0))
  extendedBlock relayCrypto [0x51, 0x00]
    [pegin, committingHogEx relayCrypto [⟨pegin.getHash relayCrypto, 0⟩] 20
      (relayedMweb commitment).header] (relayedMweb commitment)

/-- With another commitment in its input the block has the same hash and passes the checks before
it is stored, but its sums do not balance. -/
theorem changedCommitment_fails :
    relayCrypto.CollisionFree ∧
      Mweb.Consistent relayCrypto.toCrypto (.cache fundedView.base.mwebView fundedView.mwebView) ∧
      (relayedBlock (3, 10)).getHash relayCrypto = (relayedBlock (4, 10)).getHash relayCrypto ∧
      (∀ commitment ∈ [((3, 10) : Int × Int), (4, 10)],
        checkBlock relayCrypto relayConnection.params (relayedBlock commitment) = .ok () ∧
          contextualCheckBlock relayCrypto relayConnection.params relayConnection.chain
            (relayedBlock commitment) = .ok ()) ∧
      (∃ result, relayConnection.connectBlock fundedView (relayedBlock (3, 10)) = .ok result) ∧
      relayConnection.connectBlock fundedView (relayedBlock (4, 10)) =
        .error (Node.connectFailure (.validation .blockSums)) := by
  have checks : ∀ commitment ∈ [((3, 10) : Int × Int), (4, 10)],
      (checkBlock relayCrypto relayConnection.params (relayedBlock commitment)).isOk = true ∧
        (contextualCheckBlock relayCrypto relayConnection.params relayConnection.chain
          (relayedBlock commitment)).isOk = true := by
    decide +kernel
  have connects : (relayConnection.connectBlock fundedView (relayedBlock (3, 10))).isOk = true := by
    decide +kernel
  have fails : (match relayConnection.connectBlock fundedView (relayedBlock (4, 10)) with
      | .error invalid => decide (invalid = Node.connectFailure (.validation .blockSums))
      | .ok _ => false) = true := by
    decide +kernel
  refine ⟨ideal_collisionFree _, ⟨_, unstarted_represents _⟩, by decide +kernel, ?_,
    exists_of_isOk connects, ?_⟩
  · intro commitment member
    obtain ⟨checked, contextual⟩ := checks commitment member
    obtain ⟨⟨⟩, checked⟩ := exists_of_isOk checked
    obtain ⟨⟨⟩, contextual⟩ := exists_of_isOk contextual
    exact ⟨checked, contextual⟩
  · split at fails
    · rename_i invalid failed
      rw [failed, of_decide_eq_true fails]
    · cases fails

end MooncoinFormal.Primitives.Numeric
