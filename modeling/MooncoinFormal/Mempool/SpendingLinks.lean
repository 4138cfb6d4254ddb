import MooncoinFormal.Mempool.Statistics

/-!
# Links and spending

Which entries are linked after a transaction joins, after entries leave and after
children are linked to a transaction that came back, and which transactions spend
from which. The sets of ancestors and descendants that the pool collects are the
closures of the links.
-/

namespace MooncoinFormal.Mempool

open Primitives Relation Library.Worklist List

variable {T : CryptoTypes}

variable {child hash parent : T.Hash} {children : List T.Hash} {tx : CTransaction T}

variable (crypto : BlockCrypto T)

namespace CTxMemPool

variable (pool : CTxMemPool T)

def hashes : Finset T.Hash :=
  (pool.txs.map (CTransaction.getHash crypto)).toFinset

/-- The entry of the second hash is a child of that of the first. -/
def Linked (parent child : T.Hash) : Prop :=
  child ∈ pool.getMemPoolChildren crypto parent

/-- Two transactions of the pool, the second of which spends an output of the first. -/
def Spends (parent child : T.Hash) : Prop :=
  ∃ creator ∈ pool.txs, creator.getHash crypto = parent ∧
    ∃ spender ∈ pool.txs, spender.getHash crypto = child ∧
      ∃ input ∈ spender.getInputs, input ∈ creator.getOutputs crypto

variable {crypto : BlockCrypto T} {pool : CTxMemPool T}

theorem mem_hashes : hash ∈ pool.hashes crypto ↔ ∃ tx ∈ pool.txs, tx.getHash crypto = hash := by
  rw [hashes, mem_toFinset, mem_map]

theorem mem_hashes_of_mem (present : tx ∈ pool.txs) :
    tx.getHash crypto ∈ pool.hashes crypto := mem_hashes.mpr ⟨tx, present, rfl⟩

theorem mem_hashes_iff :
    hash ∈ pool.hashes crypto ↔ ∃ entry ∈ pool.mapTx, entry.tx.getHash crypto = hash := by
  simp [hashes, txs]

theorem find_eq_none_iff : pool.find crypto hash = none ↔ hash ∉ pool.hashes crypto := by
  rw [find_eq_none, mem_hashes]
  exact ⟨fun absent ⟨tx, present, same⟩ => absent tx present same,
    fun absent tx present same => absent ⟨tx, present, same⟩⟩

theorem find_isSome_iff : (pool.find crypto hash).isSome = true ↔ hash ∈ pool.hashes crypto := by
  rw [Option.isSome_iff_ne_none, ne_eq, find_eq_none_iff, not_not]

theorem inside_of_mem_parentsInPool (listed : hash ∈ pool.parentsInPool crypto tx) :
    hash ∈ pool.hashes crypto :=
  find_isSome_iff.mp (Option.isSome_iff_ne_none.mpr (find_of_mem_parentsInPool listed))

theorem linked_iff (consistent : pool.MapsConsistent crypto) :
    pool.Linked crypto parent child ↔
      ∃ entry ∈ pool.mapTx, entry.tx.getHash crypto = parent ∧ child ∈ entry.children :=
  mem_getMemPoolChildren consistent

section

variable (consistent : pool.Consistent crypto)
include consistent

/-- Links lead from entries to entries. -/
theorem Linked.inside (linked : pool.Linked crypto parent child) :
    parent ∈ pool.hashes crypto ∧ child ∈ pool.hashes crypto := by
  obtain ⟨entry, member, rfl, -⟩ := (linked_iff consistent.maps).mp linked
  exact ⟨mem_hashes_of_mem (mem_map_of_mem member),
    mem_toFinset.mpr (children_inside consistent _ linked)⟩

theorem mem_getMemPoolParents :
    parent ∈ pool.getMemPoolParents crypto child ↔ pool.Linked crypto parent child := by
  rw [linked_iff consistent.maps, getMemPoolParents]
  constructor
  · intro listed
    cases found : pool.find crypto child with
    | none =>
      rw [found] at listed
      cases listed
    | some entry =>
      rw [found] at listed
      obtain ⟨member, rfl⟩ := (find_eq_some consistent.maps).mp found
      obtain ⟨other, there, rfl⟩ := consistent.links.parents entry member parent listed
      exact ⟨other, there, rfl, (consistent.links.children other there _).mpr
        ⟨entry, member, rfl, listed⟩⟩
  · rintro ⟨entry, member, rfl, linked⟩
    obtain ⟨other, there, rfl, back⟩ := (consistent.links.children entry member child).mp linked
    rw [(find_eq_some consistent.maps).mpr ⟨there, rfl⟩]
    exact back

/-! ## Ancestors and descendants -/

/-- The loop of `CalculateMemPoolAncestors` finds the entries that the stage descends
from. -/
theorem close_parents {staged : List T.Hash}
    (nodup : staged.Nodup) (inside : ∀ hash ∈ staged, hash ∈ pool.hashes crypto) :
    (close (pool.getMemPoolParents crypto) pool.mapTx.length staged []).Nodup ∧
      ∀ hash, hash ∈ close (pool.getMemPoolParents crypto) pool.mapTx.length
          staged [] ↔ ∃ start ∈ staged, ReflTransGen (pool.Linked crypto) hash start := by
  obtain ⟨unique, found⟩ := Library.Worklist.close_spec ⟨nodup, fun _ _ => not_mem_nil⟩
    nodup_nil (fun hash listed => mem_toFinset.mp (inside hash listed)) (nil_subset _)
    nofun (fun item _ parent listed => mem_toFinset.mp
      (((mem_getMemPoolParents consistent).mp listed).inside consistent).1)
    (show _ ≤ pool.mapTx.length + _ by simp [txs])
  refine ⟨unique, fun hash => ?_⟩
  rw [found]
  have upward : (fun child parent => parent ∈ pool.getMemPoolParents crypto child) =
      Function.swap (pool.Linked crypto) := by
    funext child parent
    exact propext (mem_getMemPoolParents consistent)
  simp only [nil_append, upward]
  exact exists_congr fun start => and_congr_right fun _ => reflTransGen_swap

end

structure LinkSets (pool : CTxMemPool T) : Prop where
  parents : ∀ entry ∈ pool.mapTx, entry.parents.Nodup
  children : ∀ entry ∈ pool.mapTx, entry.children.Nodup

theorem LinkSets.of_entries
    (each : ∀ entry ∈ pool.mapTx, entry.parents.Nodup ∧ entry.children.Nodup) : pool.LinkSets :=
  ⟨fun entry member => (each entry member).1, fun entry member => (each entry member).2⟩

theorem LinkSets.nodup_parents (sets : pool.LinkSets) (hash : T.Hash) :
    (pool.getMemPoolParents crypto hash).Nodup := by
  rw [getMemPoolParents]
  cases found : pool.find crypto hash with
  | none => exact nodup_nil
  | some entry => exact sets.parents entry (mem_of_find?_eq_some found)

theorem LinkSets.nodup_children (sets : pool.LinkSets) (hash : T.Hash) :
    (pool.getMemPoolChildren crypto hash).Nodup := by
  rw [getMemPoolChildren]
  cases found : pool.find crypto hash with
  | none => exact nodup_nil
  | some entry => exact sets.children entry (mem_of_find?_eq_some found)

theorem mem_calculateMemPoolAncestors (consistent : pool.Consistent crypto) (sets : pool.LinkSets)
    {ancestor : T.Hash} :
    ancestor ∈ pool.calculateMemPoolAncestors crypto hash ↔
      TransGen (pool.Linked crypto) ancestor hash := by
  have inside : ∀ parent ∈ pool.getMemPoolParents crypto hash, parent ∈ pool.hashes crypto :=
    fun parent listed => (((mem_getMemPoolParents consistent).mp listed).inside consistent).1
  rw [calculateMemPoolAncestors,
    (close_parents consistent (sets.nodup_parents hash) inside).2 ancestor, TransGen.tail'_iff]
  exact exists_congr fun parent => by
    rw [mem_getMemPoolParents consistent, and_comm]

theorem mem_descendants_erase (consistent : pool.Consistent crypto) {target : T.Hash}
    (present : hash ∈ pool.hashes crypto) :
    target ∈ (pool.calculateDescendants crypto [] hash).erase hash ↔
      target ≠ hash ∧ ReflTransGen (pool.Linked crypto) hash target := by
  obtain ⟨set, mem⟩ :=
    closedSet_nil.calculateDescendants consistent (mem_toFinset.mp present)
  rw [set.nodup.mem_erase_iff, mem]
  simp only [not_mem_nil, false_or]
  rfl

/-! ## A transaction joins -/

theorem hashes_addUnchecked (tx : CTransaction T) :
    (pool.addUnchecked crypto tx).hashes crypto = insert (tx.getHash crypto)
    (pool.hashes crypto) := by
  ext hash
  rw [Finset.mem_insert, mem_hashes, mem_hashes, txs_addUnchecked]
  constructor
  · rintro ⟨other, there, rfl⟩
    obtain old | last := mem_append.mp there
    · exact .inr ⟨other, old, rfl⟩
    · exact .inl (by rw [mem_singleton.mp last])
  · rintro (rfl | ⟨other, there, rfl⟩)
    · exact ⟨tx, by simp, rfl⟩
    · exact ⟨other, mem_append_left _ there, rfl⟩

theorem linked_addUnchecked (consistent : pool.Consistent crypto) {tx : CTransaction T}
    (new : pool.find crypto (tx.getHash crypto) = none)
    (unspent : ∀ input ∈ tx.getInputs, pool.mapNextTx.lookup input = none) {parent child : T.Hash} :
    (pool.addUnchecked crypto tx).Linked crypto parent child ↔
      pool.Linked crypto parent child ∨
        (child = tx.getHash crypto ∧ parent ∈ pool.parentsInPool crypto tx) := by
  have joined := addUnchecked_consistent consistent new unspent
  rw [linked_iff joined.maps, linked_iff consistent.maps, addUnchecked]
  simp only [mem_append, mem_map, mem_singleton]
  constructor
  · rintro ⟨-, ⟨entry, member, rfl⟩ | rfl, same, linked⟩
    · rw [(adopted_tx _ _ entry).1] at same
      obtain old | ⟨rfl, listed⟩ := mem_adopted_children.mp linked
      · exact .inl ⟨entry, member, same, old⟩
      · exact .inr ⟨rfl, same ▸ listed⟩
    · cases linked
  · rintro (⟨entry, member, rfl, linked⟩ | ⟨rfl, listed⟩)
    · exact ⟨_, .inl ⟨entry, member, rfl⟩, by rw [(adopted_tx _ _ entry).1],
        mem_adopted_children.mpr (.inl linked)⟩
    · obtain ⟨entry, found⟩ := Option.ne_none_iff_exists'.mp (find_of_mem_parentsInPool listed)
      obtain ⟨member, rfl⟩ := (find_eq_some consistent.maps).mp found
      exact ⟨_, .inl ⟨entry, member, rfl⟩, by rw [(adopted_tx _ _ entry).1],
        mem_adopted_children.mpr (.inr ⟨rfl, listed⟩)⟩

theorem LinkSets.addUnchecked (sets : pool.LinkSets) (tx : CTransaction T) :
    (pool.addUnchecked crypto tx).LinkSets := by
  refine .of_entries fun entry' member' => ?_
  obtain old | last := mem_append.mp member'
  · obtain ⟨entry, member, rfl⟩ := mem_map.mp old
    rw [(adopted_tx _ _ entry).2]
    refine ⟨sets.parents entry member, ?_⟩
    unfold adopted
    split
    · exact List.Nodup.insert (sets.children entry member)
    · exact sets.children entry member
  · rw [mem_singleton.mp last]
    exact ⟨nodup_dedup _, nodup_nil⟩

/-- The inputs from transactions of the pool name outputs that these have. -/
def InputsExist (crypto : BlockCrypto T) (pool : CTxMemPool T) (tx : CTransaction T) : Prop :=
  ∀ prevout, .inl prevout ∈ tx.getInputs → ∀ creator ∈ pool.txs,
    creator.getHash crypto = prevout.hash → .inl prevout ∈ creator.getOutputs crypto

/-- The parents that `addUnchecked` links are those the transaction spends from. -/
theorem mem_parentsInPool (owned : pool.OutputsOwned crypto)
    (existing : pool.InputsExist crypto tx) :
    parent ∈ pool.parentsInPool crypto tx ↔
      ∃ creator ∈ pool.txs, creator.getHash crypto = parent ∧
        ∃ input ∈ tx.getInputs, input ∈ creator.getOutputs crypto := by
  rw [parentsInPool, mem_dedup, mem_filter, find_isSome_iff,
    parentTransactions, mem_filterMap]
  constructor
  · rintro ⟨⟨input, spent, names⟩, present⟩
    cases input with
    | inl prevout =>
      obtain ⟨creator, there, same⟩ := mem_hashes.mp present
      have named : prevout.hash = parent := Option.some.inj names
      exact ⟨creator, there, same, _, spent,
        existing prevout spent creator there (same.trans named.symm)⟩
    | inr outputId =>
      obtain ⟨creator, held, same⟩ := Option.map_eq_some_iff.mp names
      obtain ⟨there, created⟩ := (owned outputId creator).mp held
      exact ⟨creator, there, same, _, spent, mem_append_right _ (mem_map_of_mem created)⟩
  · rintro ⟨creator, there, rfl, input, spent, created⟩
    refine ⟨⟨input, spent, ?_⟩, mem_hashes_of_mem there⟩
    obtain old | new := mem_append.mp created
    · obtain ⟨_, -, rfl⟩ := mem_map.mp old
      rfl
    · obtain ⟨outputId, listed, rfl⟩ := mem_map.mp new
      show (pool.mapTxOutputsMweb.lookup outputId).map _ = _
      rw [(owned outputId creator).mpr ⟨there, listed⟩]
      rfl

theorem spends_addUnchecked (apart : ∀ input ∈ tx.getInputs, input ∉ tx.getOutputs crypto) :
    (pool.addUnchecked crypto tx).Spends crypto parent child ↔
      pool.Spends crypto parent child ∨
        (child = tx.getHash crypto ∧ ∃ creator ∈ pool.txs, creator.getHash crypto = parent ∧
          ∃ input ∈ tx.getInputs, input ∈ creator.getOutputs crypto) ∨
        (parent = tx.getHash crypto ∧ ∃ spender ∈ pool.txs, spender.getHash crypto = child ∧
          ∃ input ∈ spender.getInputs, input ∈ tx.getOutputs crypto) := by
  simp only [Spends, txs_addUnchecked, mem_append, mem_singleton]
  constructor
  · rintro ⟨creator, here | rfl, rfl, spender, there | rfl, rfl, input, spent, created⟩
    · exact .inl ⟨creator, here, rfl, spender, there, rfl, input, spent, created⟩
    · exact .inr (.inl ⟨rfl, creator, here, rfl, input, spent, created⟩)
    · exact .inr (.inr ⟨rfl, spender, there, rfl, input, spent, created⟩)
    · exact absurd created (apart input spent)
  · rintro (⟨creator, here, rfl, spender, there, rfl, pair⟩ | ⟨rfl, creator, here, rfl, pair⟩ |
      ⟨rfl, spender, there, rfl, pair⟩)
    · exact ⟨creator, .inl here, rfl, spender, .inl there, rfl, pair⟩
    · exact ⟨creator, .inl here, rfl, tx, .inr rfl, rfl, pair⟩
    · exact ⟨tx, .inr rfl, rfl, spender, .inl there, rfl, pair⟩

theorem hashes_removeStaged (consistent : pool.Consistent crypto) (stage : List T.Hash) :
    (pool.removeStaged crypto stage).hashes crypto = pool.hashes crypto \ stage.toFinset := by
  ext hash
  have removed := removeStaged_spec consistent stage
  rw [Finset.mem_sdiff, mem_toFinset, mem_hashes, mem_hashes]
  constructor
  · rintro ⟨tx, present, rfl⟩
    obtain ⟨there, stays⟩ := (removed.mem_txs tx).mp present
    exact ⟨⟨tx, there, rfl⟩, stays⟩
  · rintro ⟨⟨tx, there, rfl⟩, stays⟩
    exact ⟨tx, (removed.mem_txs tx).mpr ⟨there, stays⟩, rfl⟩

theorem linked_removeStaged (consistent : pool.Consistent crypto) (stage : List T.Hash)
    {parent child : T.Hash} :
    (pool.removeStaged crypto stage).Linked crypto parent child ↔
      pool.Linked crypto parent child ∧ parent ∉ stage ∧ child ∉ stage := by
  have removed := removeStaged_spec consistent stage
  constructor
  · exact removed.linked
  · rintro ⟨linked, parentStays, childStays⟩
    exact (removed.mem_children parent child parentStays).mpr ⟨linked, childStays⟩

theorem LinkSets.removeStaged (sets : pool.LinkSets) (consistent : pool.Consistent crypto)
    (stage : List T.Hash) : (pool.removeStaged crypto stage).LinkSets := by
  have sameTxs := @txs_updateForRemoveFromMempool T crypto pool stage
  have left := (foldl_removeUnchecked_maps (consistent.maps.congr sameTxs rfl) stage).2
  refine .of_entries fun entry' member' => ?_
  rw [CTxMemPool.removeStaged, left] at member'
  obtain ⟨entry, member, rfl⟩ := mem_map.mp (mem_filter.mp member').1
  exact ⟨(sets.parents entry member).filter _, (sets.children entry member).filter _⟩

theorem spends_removeStaged (consistent : pool.Consistent crypto) (stage : List T.Hash) :
    (pool.removeStaged crypto stage).Spends crypto parent child ↔
      pool.Spends crypto parent child ∧ parent ∉ stage ∧ child ∉ stage := by
  have removed := removeStaged_spec consistent stage
  simp only [Spends, removed.mem_txs]
  constructor
  · rintro ⟨creator, ⟨here, stays⟩, rfl, spender, ⟨there, stays'⟩, rfl, pair⟩
    exact ⟨⟨creator, here, rfl, spender, there, rfl, pair⟩, stays, stays'⟩
  · rintro ⟨⟨creator, here, rfl, spender, there, rfl, pair⟩, stays, stays'⟩
    exact ⟨creator, ⟨here, stays⟩, rfl, spender, ⟨there, stays'⟩, rfl, pair⟩

/-! ## Children are linked -/

theorem txs_linkChildren (parent : T.Hash) (children : List T.Hash) :
    (pool.linkChildren crypto parent children).txs = pool.txs := by
  simp only [txs, linkChildren, List.map_map]
  rfl

theorem hashes_linkChildren (parent : T.Hash) (children : List T.Hash) :
    (pool.linkChildren crypto parent children).hashes crypto = pool.hashes crypto := by
  rw [hashes, hashes, txs_linkChildren]

theorem spends_linkChildren (parent : T.Hash) (children : List T.Hash) :
    (pool.linkChildren crypto parent children).Spends crypto = pool.Spends crypto := by
  unfold Spends
  rw [txs_linkChildren]

theorem maps_linkChildren (consistent : pool.MapsConsistent crypto) (parent : T.Hash)
    (children : List T.Hash) : (pool.linkChildren crypto parent children).MapsConsistent crypto :=
  consistent.congr (txs_linkChildren parent children) rfl

variable {entry : CTxMemPoolEntry T}

theorem mem_withLinks_children :
    hash ∈ (withLinks crypto parent children entry).children ↔
      hash ∈ entry.children ∨ (entry.tx.getHash crypto = parent ∧ hash ∈ children) := by
  unfold withLinks
  by_cases same : entry.tx.getHash crypto = parent
  · rw [if_pos same, mem_foldl_insert, and_iff_right same]
  · rw [if_neg same]
    exact ⟨.inl, fun either => either.resolve_right fun new => same new.1⟩

theorem mem_withLinks_parents :
    hash ∈ (withLinks crypto parent children entry).parents ↔
      hash ∈ entry.parents ∨ (hash = parent ∧ entry.tx.getHash crypto ∈ children) := by
  unfold withLinks
  split
  · next listed => rw [mem_insert_iff, and_iff_left listed, or_comm]
  · next unlisted => exact ⟨.inl, fun either => either.resolve_right fun new => unlisted new.2⟩

theorem mem_linkChildren {entry' : CTxMemPoolEntry T} :
    entry' ∈ (pool.linkChildren crypto parent children).mapTx ↔
      ∃ entry ∈ pool.mapTx, withLinks crypto parent children entry = entry' := mem_map

section

variable (consistent : pool.Consistent crypto) (present : parent ∈ pool.hashes crypto)
include consistent present

theorem linked_linkChildren {first last : T.Hash} :
    (pool.linkChildren crypto parent children).Linked crypto first last ↔
      pool.Linked crypto first last ∨ (first = parent ∧ last ∈ children) := by
  rw [linked_iff (maps_linkChildren consistent.maps parent children), linked_iff consistent.maps]
  simp only [mem_linkChildren]
  constructor
  · rintro ⟨_, ⟨entry, member, rfl⟩, rfl, linked⟩
    obtain old | ⟨same, listed⟩ := mem_withLinks_children.mp linked
    · exact .inl ⟨entry, member, rfl, old⟩
    · exact .inr ⟨same, listed⟩
  · rintro (⟨entry, member, rfl, linked⟩ | ⟨rfl, listed⟩)
    · exact ⟨_, ⟨entry, member, rfl⟩, rfl, mem_withLinks_children.mpr (.inl linked)⟩
    · obtain ⟨entry, member, rfl⟩ := mem_hashes_iff.mp present
      exact ⟨_, ⟨entry, member, rfl⟩, rfl, mem_withLinks_children.mpr (.inr ⟨rfl, listed⟩)⟩

theorem linkChildren_consistent (inside : ∀ child ∈ children, child ∈ pool.hashes crypto) :
    (pool.linkChildren crypto parent children).Consistent crypto := by
  refine ⟨maps_linkChildren consistent.maps parent children, ?_, ?_⟩
  · intro entry' member' hash
    obtain ⟨entry, member, rfl⟩ := mem_linkChildren.mp member'
    rw [mem_withLinks_children, consistent.links.children entry member]
    constructor
    · rintro (⟨child, there, same, back⟩ | ⟨same, listed⟩)
      · exact ⟨_, mem_linkChildren.mpr ⟨child, there, rfl⟩, same,
          mem_withLinks_parents.mpr (.inl back)⟩
      · obtain ⟨child, there, rfl⟩ := mem_hashes_iff.mp (inside hash listed)
        exact ⟨_, mem_linkChildren.mpr ⟨child, there, rfl⟩, rfl,
          mem_withLinks_parents.mpr (.inr ⟨same, listed⟩)⟩
    · rintro ⟨child', there', same, back⟩
      obtain ⟨child, there, rfl⟩ := mem_linkChildren.mp there'
      obtain old | ⟨isParent, listed⟩ := mem_withLinks_parents.mp back
      · exact .inl ⟨child, there, same, old⟩
      · exact .inr ⟨isParent, same ▸ listed⟩
  · intro entry' member' hash linked
    obtain ⟨entry, member, rfl⟩ := mem_linkChildren.mp member'
    have inPool : hash ∈ pool.hashes crypto := by
      obtain old | ⟨rfl, -⟩ := mem_withLinks_parents.mp linked
      · obtain ⟨other, there, rfl⟩ := consistent.links.parents entry member hash old
        exact mem_hashes_of_mem (mem_map_of_mem there)
      · exact present
    obtain ⟨other, there, rfl⟩ := mem_hashes_iff.mp inPool
    exact ⟨_, mem_linkChildren.mpr ⟨other, there, rfl⟩, rfl⟩

end

theorem LinkSets.linkChildren (sets : pool.LinkSets) (parent : T.Hash) (children : List T.Hash) :
    (pool.linkChildren crypto parent children).LinkSets := by
  refine .of_entries fun entry' member' => ?_
  obtain ⟨entry, member, rfl⟩ := mem_linkChildren.mp member'
  unfold withLinks
  constructor
  · split
    · exact List.Nodup.insert (sets.parents entry member)
    · exact sets.parents entry member
  · by_cases same : entry.tx.getHash crypto = parent
    · rw [if_pos same]
      exact nodup_foldl_insert (sets.children entry member)
    · rw [if_neg same]
      exact sets.children entry member

/-- The children that `UpdateTransactionsFromBlock` finds are the spenders that are not
listed. -/
theorem mem_spendersExcept (consistent : pool.MapsConsistent crypto) {listed : List T.Hash}
    (present : tx ∈ pool.txs) :
    child ∈ pool.spendersExcept crypto listed tx ↔
      pool.Spends crypto (tx.getHash crypto) child ∧ child ∉ listed := by
  rw [spendersExcept, mem_filter, mem_dedup, mem_map, decide_eq_true_eq]
  refine and_congr_left fun _ => ?_
  simp only [mem_filterMap, consistent.next, Spends]
  constructor
  · rintro ⟨spender, ⟨output, created, there, spent⟩, rfl⟩
    exact ⟨tx, present, rfl, spender, there, rfl, output, spent, created⟩
  · rintro ⟨creator, here, same, spender, there, rfl, input, spent, created⟩
    cases consistent.hash_inj here present same
    exact ⟨spender, ⟨input, created, there, spent⟩, rfl⟩

end CTxMemPool

end MooncoinFormal.Mempool
