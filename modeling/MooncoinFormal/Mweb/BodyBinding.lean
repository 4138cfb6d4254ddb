import Mathlib
import MooncoinFormal.Mweb.Refinement
import MooncoinFormal.Mweb.RootBinding
import MooncoinFormal.Primitives.Hashing

/-!
# What an extension header commits to

Before an extension block is stored, the bytes of its kernels are compared with the
header. The header also commits to the output range and to the leafset after the
block, and so to the outputs and to the coins that are spent, but these roots are
compared only when the block is applied. The commitment that an input repeats from the
coin it spends is committed to by nothing.
-/

namespace MooncoinFormal.Mweb

open Primitives Library.Checks Mmr LeafSet List

variable {T : CryptoTypes}

theorem isChain_of_isSorted {α : Type} {less : α → α → Bool} {items : List α}
    (sorted : isSorted less items = true) : items.IsChain fun a b => less b a = false := by
  induction items with
  | nil => exact .nil
  | cons first rest ih =>
    cases rest with
    | nil => exact .singleton _
    | cons second rest =>
      rw [isSorted, Bool.and_eq_true, Bool.not_eq_true'] at sorted
      exact .cons_cons sorted.1 (ih sorted.2)

theorem TxBody.pairwise_getSpentIDs {body : TxBody T}
    (sorted : isSorted inputSort body.inputs = true) :
    body.getSpentIDs.Pairwise (· ≤ ·) := by
  rw [TxBody.getSpentIDs, pairwise_map, ← isChain_iff_pairwise]
  refine (isChain_of_isSorted sorted).imp fun a b inOrder => ?_
  simpa [inputSort] using inOrder

theorem TxBody.getSpentIDs_eq {body other : TxBody T} {crypto : Crypto T}
    (valid : body.validate crypto = .ok ()) (valid' : other.validate crypto = .ok ())
    (members : ∀ id, id ∈ body.getSpentIDs ↔ id ∈ other.getSpentIDs) :
    body.getSpentIDs = other.getSpentIDs := by
  simp only [TxBody.validate, bind_eq_ok, ensure_eq_ok] at valid valid'
  obtain ⟨⟨⟩, -, ⟨⟩, ⟨sorted, -⟩, ⟨⟩, nodup, -⟩ := valid
  obtain ⟨⟨⟩, -, ⟨⟩, ⟨sorted', -⟩, ⟨⟩, nodup', -⟩ := valid'
  exact List.Perm.eq_of_pairwise' (TxBody.pairwise_getSpentIDs sorted)
    (TxBody.pairwise_getSpentIDs sorted') ((perm_ext_iff_of_nodup nodup nodup').mpr members)

theorem kernelRoot_eq (crypto : Crypto T) (kernels : List (Kernel T)) :
    kernelRoot crypto kernels = some (rootOf crypto.kernelMmr T.zeroHash kernels) := by
  obtain ⟨mmr, added, root⟩ :=
    @MemMMR.root_foldlM_add T.Hash (Kernel T) crypto.kernelMmr T.zeroHash _ kernels
  rw [kernelRoot, added]
  exact root

variable {crypto : BlockCrypto T} {block other : Block T}

/-- The checks before a block is stored bind the bytes of its kernels to the header. -/
theorem Block.kernels_alike (free : crypto.CollisionFree)
    (header : block.header = other.header) (valid : block.validate crypto.toCrypto = .ok ())
    (valid' : other.validate crypto.toCrypto = .ok ()) :
    List.Forall₂ Kernel.Alike block.body.kernels other.body.kernels := by
  simp only [Block.validate, bind_eq_ok, ensure_eq_ok, kernelRoot_eq, Option.some.injEq]
    at valid valid'
  obtain ⟨⟨⟩, count, ⟨⟩, -, ⟨⟩, -, root⟩ := valid
  obtain ⟨⟨⟩, count', ⟨⟩, -, ⟨⟩, -, root'⟩ := valid'
  refine forall₂_of_rootOf free.kernelMmr ?_ ?_
  · rw [← count, ← count', header]
  · rw [root, root', header]

section Effect

variable {crypto : BlockCrypto T} {set after after' : CoinSet crypto.toCrypto}
  {outputs outputs' : List (Output T)} {ids ids' : List T.Hash} {spent spent' : List (UTXO T)}
  {height : Int32} {header : Header T}

theorem bits_eq_of_rootBytes {bits bits' : Nat → Bool} {numLeaves : Nat}
    (same : rootBytes (packBits bits) numLeaves = rootBytes (packBits bits') numLeaves) {i : Nat}
    (inside : i < numLeaves) : bits i = bits' i := by
  have byte := map_inj_left.mp same (i / 8) (mem_range.mpr (by omega))
  rw [← containsIn_packBits bits, ← containsIn_packBits bits', containsIn, containsIn, byte]

variable (free : crypto.CollisionFree)
  (applied : set.applyBody height outputs ids = some (spent, after))
include free applied

theorem outputs_eq_of_matches
    (applied' : set.applyBody height outputs' ids' = some (spent', after'))
    (fits : after.Matches header) (fits' : after'.Matches header) : outputs = outputs' := by
  obtain ⟨added, adds, spends⟩ := Option.bind_eq_some_iff.mp applied
  obtain ⟨added', adds', spends'⟩ := Option.bind_eq_some_iff.mp applied'
  have leaves := (CoinSet.spendInputs_spec spends).1.trans (CoinSet.addOutputs_spec adds).1
  have leaves' := (CoinSet.spendInputs_spec spends').1.trans (CoinSet.addOutputs_spec adds').1
  have same := rootOf_inj free.outputMmr (fits.2.1.symm.trans fits'.2.1) (fits.1.symm.trans fits'.1)
  rw [leaves, leaves', append_cancel_left_eq] at same
  exact map_injective_iff.mpr free.output_inj same

theorem spent_of_matches (applied' : set.applyBody height outputs ids' = some (spent', after'))
    (fits : after.Matches header) (fits' : after'.Matches header) {id : T.Hash}
    (member : id ∈ ids) :
    id ∈ ids' := by
  obtain ⟨added, adds, spends⟩ := Option.bind_eq_some_iff.mp applied
  obtain ⟨added', adds', spends'⟩ := Option.bind_eq_some_iff.mp applied'
  rw [adds, Option.some.injEq] at adds'
  subst adds'
  obtain ⟨leaves, -, hashes, held, -, bits⟩ := CoinSet.spendInputs_spec spends
  obtain ⟨leaves', -, hashes', held', -, bits'⟩ := CoinSet.spendInputs_spec spends'
  rw [← hashes, mem_map] at member
  obtain ⟨utxo, isSpent, rfl⟩ := member
  have found := held utxo isSpent
  have inside : utxo.leafIndex < after.leaves.length := leaves ▸ added.leafIndex_lt found
  -- its leaf is spent after the one body, and so after the other
  have bytes := free.leafset_inj (fits.2.2.symm.trans fits'.2.2)
  rw [leaves', ← leaves] at bytes
  have gone := bits_eq_of_rootBytes bytes inside
  rw [bits, bits', (added.coin_leaf _ _ found).2.1, decide_eq_true (mem_map_of_mem isSpent)] at gone
  have member : utxo.leafIndex ∈ spent'.map UTXO.leafIndex := by simpa using gone
  obtain ⟨utxo', isSpent', place⟩ := mem_map.mp member
  rw [← added.eq_of_leafIndex (held' utxo' isSpent') found place, ← hashes']
  exact mem_map_of_mem isSpent'

end Effect

/-! ## Applying another body under the same header -/

/-- The bodies add the same outputs, spend the same coins, and give the same sum for what the
outputs hold beyond the inputs. -/
structure SameEffect (body other : TxBody T) : Prop where
  outputs : other.outputs = body.outputs
  spentIDs : other.getSpentIDs = body.getSpentIDs
  sum : addCommitments other.getOutputCommits other.getInputCommits =
    addCommitments body.getOutputCommits body.getInputCommits

section Sums

variable {crypto : Crypto T} {inputs inputs' outputs outputs' kernels : List T.Point}
  {offset : T.Scalar} {coinsAdded : CAmount}

theorem validateSums_iff_of_ok
    (valid : validateSums crypto inputs outputs kernels offset coinsAdded = .ok ()) :
    validateSums crypto inputs' outputs' kernels offset coinsAdded = .ok () ↔
      addCommitments outputs' inputs' = addCommitments outputs inputs := by
  constructor
  · intro valid'
    have balance := (validateSums_balance valid).2.trans (validateSums_balance valid').2.symm
    simp only [netCommitment, sub_left_inj] at balance
    simp only [validateSums, bind_eq_ok] at valid valid'
    obtain ⟨sumUtxo, utxo, -⟩ := valid
    obtain ⟨sumUtxo', utxo', -⟩ := valid'
    rw [utxo, utxo', addCommitments_ok utxo, addCommitments_ok utxo', balance]
  · intro same
    rw [validateSums, same]
    exact valid

end Sums

/-- Another body whose kernels have the same sum and change the supply by the same amount can be
applied under the header exactly when it has the same effect. -/
theorem applyBlock_iff_sameEffect (free : crypto.CollisionFree)
    {base : ICoinsView T} {top top' : CoinsViewCache T} {set : CoinSet crypto.toCrypto}
    (rep : RepresentsSet crypto.toCrypto (.cache base top) set)
    (header : block.header = other.header) (valid : block.validate crypto.toCrypto = .ok ())
    (valid' : other.validate crypto.toCrypto = .ok ())
    (commits : other.body.getKernelCommits = block.body.getKernelCommits)
    (coins : other.body.getSupplyChange = block.body.getSupplyChange) {undo : BlockUndo T}
    (applied : top.applyBlock crypto.toCrypto base block = .ok (undo, top')) :
    (∃ undo' last, top.applyBlock crypto.toCrypto base other = .ok (undo', last)) ↔
      SameEffect block.body other.body := by
  obtain ⟨sums, spent, after, applies, fits, -, -, -⟩ := applyBlock_represents rep applied
  have sums_iff : validateForBlock crypto.toCrypto other.body other.header.kernelOffset
      (CoinsViewCache.prevOffset top.header) = .ok () ↔
        addCommitments other.body.getOutputCommits other.body.getInputCommits =
          addCommitments block.body.getOutputCommits block.body.getInputCommits := by
    rw [← validateSums_iff_of_ok sums, validateForBlock, coins, commits, ← header]
  constructor
  · rintro ⟨undo', last, applied'⟩
    obtain ⟨sums', spent', after', applies', fits', -, -, -⟩ := applyBlock_represents rep applied'
    rw [← header] at applies' fits'
    have outputs := outputs_eq_of_matches free applies' applies fits' fits
    rw [outputs] at applies'
    simp only [Block.validate, bind_eq_ok] at valid valid'
    obtain ⟨⟨⟩, -, ⟨⟩, bodyValid, -⟩ := valid
    obtain ⟨⟨⟩, -, ⟨⟩, bodyValid', -⟩ := valid'
    refine ⟨outputs, TxBody.getSpentIDs_eq bodyValid' bodyValid fun id => ⟨?_, ?_⟩,
      sums_iff.mp sums'⟩
    · exact spent_of_matches free applies' applies fits' fits
    · exact spent_of_matches free applies applies' fits fits'
  · intro same
    exact ⟨undo, _, CoinsViewCache.applyBlock_congr applied (sums_iff.mpr same.sum) (by rw [header])
      same.outputs same.spentIDs (by rw [header]) (by rw [header]) (by rw [header])⟩

end MooncoinFormal.Mweb
