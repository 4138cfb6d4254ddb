import MooncoinFormal.Validation.CheckBlock

/-!
# What a block hash commits to

Two blocks with one hash that pass `CheckBlock` have the same header and, if they
list equally many transactions, the same ones up to witnesses and HogEx flags. The
numbers differ only where a transaction has the hash of two nodes of a Merkle tree.
Where witness rules are enforced, the commitment of the coinbase determines the
witnesses as well. The flags are in no hash.
-/

namespace MooncoinFormal.Library

open List

theorem map_eq_map_iff_forall₂ {α β : Type} {f : α → β} {items others : List α} :
    items.map f = others.map f ↔ List.Forall₂ (fun a b => f a = f b) items others := by
  rw [← forall₂_eq_eq_eq, forall₂_map_left_iff, forall₂_map_right_iff]

theorem forall_of_forall₂ {α β : Type} {R : α → β → Prop} {P : α → Prop} {Q : β → Prop}
    {items : List α} {others : List β} (related : List.Forall₂ R items others)
    (carry : ∀ a b, R a b → P a → Q b) (all : ∀ a ∈ items, P a) : ∀ b ∈ others, Q b := by
  induction related with
  | nil => exact nofun
  | cons here _ ih =>
    rw [forall_mem_cons] at all
    exact forall_mem_cons.mpr ⟨carry _ _ here all.1, ih all.2⟩

end MooncoinFormal.Library

namespace MooncoinFormal.Primitives.CTransaction

open List

variable {T : CryptoTypes} {tx other : CTransaction T}

theorem withoutMweb_eq_stripped (bare : tx.hasWitness = false) : tx.withoutMweb = tx.stripped := by
  have empty : ∀ txin ∈ tx.vin, { txin with scriptWitness := [] } = txin := by
    intro txin member
    have none : txin.scriptWitness = [] := by
      simpa [hasWitness] using any_eq_false.mp bare txin member
    rw [← none]
  rw [stripped, map_congr_left empty, map_id']
  rfl

section

variable (same : tx.stripped = other.stripped)
include same

theorem withoutMweb_eq_of_stripped
    (witnesses : tx.vin.map CTxIn.scriptWitness = other.vin.map CTxIn.scriptWitness) :
    tx.withoutMweb = other.withoutMweb := by
  have rebuild : ∀ vin : List (CTxIn T),
      zipWith (fun bare stack => { bare with scriptWitness := stack })
        (vin.map fun txin => { txin with scriptWitness := [] })
          (vin.map CTxIn.scriptWitness) = vin := by
    intro vin
    simp [zipWith_map, zipWith_self]
  have inputs : tx.vin = other.vin := by
    have bare : tx.stripped.vin = other.stripped.vin := congrArg vin same
    simp only [stripped] at bare
    rw [← rebuild tx.vin, bare, witnesses, rebuild]
  cases tx
  cases other
  simp only [stripped, withoutMweb, mk.injEq] at same inputs ⊢
  exact ⟨inputs, same.2⟩

/-- What only reads stripped inputs is the same for both transactions. -/
theorem map_vin_eq {β : Type} (read : CTxIn T → β)
    (ignores : ∀ txin : CTxIn T, read { txin with scriptWitness := [] } = read txin) :
    tx.vin.map read = other.vin.map read := by
  rw [← tx.map_stripped_vin read ignores, ← other.map_stripped_vin read ignores, same]

theorem vout_eq : tx.vout = other.vout := by
  rw [← stripped_vout, same, stripped_vout]

theorem isCoinBase_eq : tx.isCoinBase = other.isCoinBase := by
  rw [← isCoinBase_stripped, same, isCoinBase_stripped]

end

theorem getWitnessHash_eq (crypto : BlockCrypto T) (canonical : tx.vin ≠ []) :
    tx.getWitnessHash crypto = crypto.hashTransaction tx.withoutMweb := by
  rw [getWitnessHash]
  cases witnesses : tx.hasWitness with
  | true => rfl
  | false => rw [withoutMweb_eq_stripped witnesses, getHash_eq crypto canonical]; rfl

end MooncoinFormal.Primitives.CTransaction

namespace MooncoinFormal.Validation

open Primitives Library Library.Checks Library.MerkleTree CTransaction List

variable {T : CryptoTypes} {crypto : BlockCrypto T} {params : Params T} {block other : CBlock T}

/-! ## Transactions -/

section

variable (checked : CheckedBlock crypto params block)
include checked

theorem CheckedBlock.vin_ne_nil {tx : CTransaction T} (member : tx ∈ block.vtx) : tx.vin ≠ [] := by
  have passes := checked.txs tx member
  simp only [checkTransaction, bind_eq_ok, ensure_eq_ok, isMwebOnly,
    hasMwebTx, checked.plain tx member] at passes
  obtain ⟨⟨⟩, inputs, -⟩ := passes
  exact inputs.resolve_left (by simp)

theorem CheckedBlock.vtx_ne_nil : block.vtx ≠ [] := by
  obtain ⟨coinbase, rest, vtx, -⟩ := checked.coinbase
  rw [vtx]
  exact cons_ne_nil _ _

theorem CheckedBlock.map_getHash :
    block.vtx.map (getHash crypto) = block.vtx.map fun tx => crypto.hashTransaction tx.stripped :=
  map_congr_left fun _ member => getHash_eq crypto (checked.vin_ne_nil member)

end

section

variable (free : crypto.CollisionFree)
include free

theorem map_eq_of_hashes {read : CTransaction T → CTransaction T}
    (reads : ∀ tx, tx.vin ≠ [] → (read tx).vin ≠ []) {txs others : List (CTransaction T)}
    (canonical : ∀ tx ∈ txs, tx.vin ≠ []) (canonical' : ∀ tx ∈ others, tx.vin ≠ [])
    (hashes : txs.map (fun tx => crypto.hashTransaction (read tx)) =
      others.map fun tx => crypto.hashTransaction (read tx)) :
    txs.map (fun tx => (read tx).withoutMweb) = others.map fun tx => (read tx).withoutMweb := by
  rw [map_eq_map_iff_forall₂, forall₂_iff_get] at hashes ⊢
  refine ⟨hashes.1, fun i inside inside' => ?_⟩
  exact free.transaction_inj (reads _ (canonical _ (get_mem _ _)))
    (reads _ (canonical' _ (get_mem _ _))) (hashes.2 i inside inside')

section

variable (checked : CheckedBlock crypto params block) (checked' : CheckedBlock crypto params other)
include checked checked'

theorem stripped_eq_of_txids
    (txids : block.vtx.map (getHash crypto) = other.vtx.map (getHash crypto)) :
    block.vtx.map stripped = other.vtx.map stripped := by
  rw [checked.map_getHash, checked'.map_getHash] at txids
  exact map_eq_of_hashes free (fun tx inputs => by simpa [stripped] using inputs)
    (fun _ => checked.vin_ne_nil) (fun _ => checked'.vin_ne_nil) txids

section

variable (root : block.header.hashMerkleRoot = other.header.hashMerkleRoot)
include root

theorem txids_eq_of_root (count : block.vtx.length = other.vtx.length) :
    block.vtx.map (getHash crypto) = other.vtx.map (getHash crypto) :=
  eq_of_computeRoot_eq_of_length (fun _ _ _ _ same => free.pair_inj same) (by simpa using count)
    (checked.root.symm.trans (root.trans checked'.root))

theorem count_eq_of_root
    (leaves : ∀ txid ∈ block.vtx.map (getHash crypto), ∀ a b, txid ≠ crypto.hashPair a b)
    (leaves' : ∀ txid ∈ other.vtx.map (getHash crypto), ∀ a b, txid ≠ crypto.hashPair a b) :
    block.vtx.length = other.vtx.length := by
  have txids := eq_of_computeRoot_eq (fun _ _ _ _ same => free.pair_inj same)
    (by simpa using checked.vtx_ne_nil) (by simpa using checked'.vtx_ne_nil) checked.unrepeated
    checked'.unrepeated leaves leaves' (checked.root.symm.trans (root.trans checked'.root))
  simpa using congrArg length txids

end

end

theorem header_eq_of_hash (same : block.getHash crypto = other.getHash crypto) :
    block.header = other.header :=
  free.blockHeader_inj same

/-- A block hash commits to the transactions, but for witnesses and flags. -/
theorem stripped_eq_of_hash (checked : CheckedBlock crypto params block)
    (checked' : CheckedBlock crypto params other) (count : block.vtx.length = other.vtx.length)
    (same : block.getHash crypto = other.getHash crypto) :
    block.vtx.map stripped = other.vtx.map stripped :=
  stripped_eq_of_txids free checked checked'
    (txids_eq_of_root free checked checked' (by rw [header_eq_of_hash free same]) count)

end

/-! ## Witnesses -/

theorem head?_stripped (same : block.vtx.map stripped = other.vtx.map stripped) :
    block.vtx.head?.map stripped = other.vtx.head?.map stripped := by
  rw [← head?_map, same, head?_map]

theorem witnessCommitment_eq (same : block.vtx.map stripped = other.vtx.map stripped) :
    witnessCommitment block = witnessCommitment other := by
  have outputs : block.vtx.head?.map vout = other.vtx.head?.map vout := by
    have read : vout ∘ stripped = (vout (T := T)) := rfl
    rw [← read, ← Option.map_map, ← Option.map_map, head?_stripped same]
  rw [witnessCommitment, witnessCommitment, outputs]

/-- Where witness rules are enforced, blocks that pass `ContextualCheckBlock` have the same
witnesses too. -/
theorem withoutMweb_eq_of_witness (free : crypto.CollisionFree)
    (checked : CheckedBlock crypto params block) (checked' : CheckedBlock crypto params other)
    (same : block.vtx.map stripped = other.vtx.map stripped)
    {chain : Chain T} (enabled : isWitnessEnabled params chain = true)
    (witness : checkWitness crypto params chain block = .ok ())
    (witness' : checkWitness crypto params chain other = .ok ()) :
    block.vtx.map withoutMweb = other.vtx.map withoutMweb := by
  simp only [checkWitness, enabled, if_true, ← witnessCommitment_eq same] at witness witness'
  cases commitment : witnessCommitment block with
  | none =>
    -- no commitment, no witnesses
    simp only [commitment, ensureAll_eq_ok, ensure_eq_ok] at witness witness'
    rw [map_congr_left fun tx member => withoutMweb_eq_stripped (witness tx member), same]
    exact map_congr_left fun tx member =>
      (withoutMweb_eq_stripped (witness' tx member)).symm
  | some digest =>
    simp only [commitment, checkCommitment, bind_eq_ok, ensure_eq_ok] at witness witness'
    obtain ⟨⟨⟩, ⟨single, -⟩, committed⟩ := witness
    obtain ⟨⟨⟩, ⟨single', -⟩, committed'⟩ := witness'
    obtain ⟨roots, reserved⟩ := free.witnessCommitment_inj (committed.symm.trans committed')
    obtain ⟨coinbase, rest, vtx, isCoinbase, -⟩ := checked.coinbase
    obtain ⟨coinbase', rest', vtx', isCoinbase', -⟩ := checked'.coinbase
    rw [vtx, vtx', map_cons, map_cons] at same ⊢
    obtain ⟨first, others⟩ := cons.inj same
    congr 1
    · -- the witness of the coinbase is the reserved value
      refine withoutMweb_eq_of_stripped first ?_
      have stack : ∀ {cb : CTransaction T} {b : CBlock T} {txs : List (CTransaction T)},
          b.vtx = cb :: txs → cb.isCoinBase = true → (coinbaseWitness b).length = 1 →
          cb.vin.map CTxIn.scriptWitness = [[(coinbaseWitness b).headD []]] := by
        intro cb b txs list is_cb one
        rw [isCoinBase] at is_cb
        split at is_cb
        · rename_i txin input
          have stack : coinbaseWitness b = txin.scriptWitness := by
            simp [coinbaseWitness, list, input]
          rw [stack] at one ⊢
          obtain ⟨value, stack⟩ := length_eq_one_iff.mp one
          simp [input, stack]
        · cases is_cb
      rw [stack vtx isCoinbase single, stack vtx' isCoinbase' single', reserved]
    · simp only [blockWitnessMerkleRoot, vtx, vtx', drop_succ_cons, drop_zero] at roots
      have length : rest.length = rest'.length := by simpa using congrArg length others
      have leaves := eq_of_computeRoot_eq_of_length (fun _ _ _ _ pairs => free.pair_inj pairs)
        (by simp [length]) roots
      have hashes := (cons.inj leaves).2
      have inputs : ∀ {cb : CTransaction T} {b : CBlock T} {txs : List (CTransaction T)},
          b.vtx = cb :: txs → CheckedBlock crypto params b → ∀ tx ∈ txs, tx.vin ≠ [] :=
        fun list passed _ member => passed.vin_ne_nil (list ▸ mem_cons_of_mem _ member)
      rw [map_congr_left fun tx member => getWitnessHash_eq crypto (inputs vtx checked tx member),
        map_congr_left fun tx member => getWitnessHash_eq crypto (inputs vtx' checked' tx member)]
        at hashes
      exact @map_eq_of_hashes _ _ free withoutMweb (fun _ => id) _ _ (inputs vtx checked)
        (inputs vtx' checked') hashes

end MooncoinFormal.Validation
