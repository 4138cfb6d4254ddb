import MooncoinFormal.Mempool.PackageSums

/-!
# Transactions come back

In a reorganisation transactions of disconnected blocks come back under entries that
spend their outputs. `addUnchecked` does not link them to these; in the meantime the
links leave out the spending that leads from a transaction that came back to one that
was there all along. `UpdateTransactionsFromBlock` goes through the transactions that
came back from the last to the first, adds the links that are missing, and lets the
figures follow. Descendants that it has collected once it takes from a cache.
-/

namespace MooncoinFormal.Mempool

open Primitives Relation Library.Paths List CTxMemPool

variable {T : CryptoTypes} {crypto : BlockCrypto T} {hash : T.Hash} {tx : CTransaction T}

namespace CTxMemPool

/-- Transactions that came back, in the order of the blocks: what they spend from came
back too, and before them. -/
structure CameBack (crypto : BlockCrypto T) (pool : CTxMemPool T)
    (readded : List T.Hash) : Prop where
  above : ∀ parent child, pool.Spends crypto parent child → child ∈ readded → parent ∈ readded
  nodup : readded.Nodup
  ordered : readded.Pairwise fun earlier later => ¬ pool.Spends crypto later earlier

variable {pool pool' : CTxMemPool T} {readded todo processed : List T.Hash}

theorem cameBack_nil : pool.CameBack crypto [] := ⟨nofun, nodup_nil, .nil⟩

section

variable (back : pool.CameBack crypto readded)
include back

theorem CameBack.mono
    (fewer : ∀ parent child, pool'.Spends crypto parent child → pool.Spends crypto parent child) :
    pool'.CameBack crypto readded :=
  ⟨fun parent child spends => back.above parent child (fewer parent child spends), back.nodup,
    back.ordered.imp fun unspent spends => unspent (fewer _ _ spends)⟩

variable
  (spends : ∀ parent child, pool.Linked crypto parent child → pool.Spends crypto parent child)
include spends

variable {first last : T.Hash}

theorem CameBack.path_above (path : ReflTransGen (pool.Linked crypto) first last)
    (listed : last ∈ readded) : first ∈ readded := by
  induction path using ReflTransGen.head_induction_on with
  | refl => exact listed
  | @head parent child linked _ ih => exact back.above parent child (spends parent child linked) ih

theorem CameBack.path_later (split : readded = todo ++ processed)
    (path : ReflTransGen (pool.Linked crypto) first last) (starts : first ∈ processed)
    (listed : last ∈ readded) : last ∈ processed := by
  induction path with
  | refl => exact starts
  | @tail parent child _ linked ih =>
    have spent := spends parent child linked
    have later := ih (back.above parent child spent listed)
    have ordered := back.ordered
    rw [split] at listed ordered
    obtain earlier | here := mem_append.mp listed
    · exact absurd spent ((pairwise_append.mp ordered).2.2 child earlier parent later)
    · exact here

end

/-- The links that one round of `UpdateTransactionsFromBlock` adds. -/
def linkSpenders (crypto : BlockCrypto T) (pool : CTxMemPool T) (readded : List T.Hash)
    (tx : CTransaction T) : CTxMemPool T :=
  pool.linkChildren crypto (tx.getHash crypto) (pool.spendersExcept crypto readded tx)

theorem linked_linkSpenders (consistent : pool.Consistent crypto)
    (present : tx ∈ pool.txs) (readded : List T.Hash) (parent child : T.Hash) :
    (pool.linkSpenders crypto readded tx).Linked crypto parent child ↔
      pool.Linked crypto parent child ∨ (parent = tx.getHash crypto ∧
        pool.Spends crypto (tx.getHash crypto) child ∧ child ∉ readded) := by
  rw [linkSpenders, linked_linkChildren consistent (mem_hashes_of_mem present),
    mem_spendersExcept consistent.maps present]

theorem linkSpenders_consistent (consistent : pool.Consistent crypto)
    (present : tx ∈ pool.txs) (readded : List T.Hash) :
    (pool.linkSpenders crypto readded tx).Consistent crypto := by
  refine linkChildren_consistent consistent (mem_hashes_of_mem present) fun child listed => ?_
  obtain ⟨⟨_, _, _, spender, there, rfl, _⟩, _⟩ :=
    (mem_spendersExcept consistent.maps present).mp listed
  exact mem_hashes_of_mem there

theorem OutputsOwned.linkSpenders (owned : pool.OutputsOwned crypto) (readded : List T.Hash)
    (tx : CTransaction T) : (pool.linkSpenders crypto readded tx).OutputsOwned crypto := by
  intro id creator
  rw [CTxMemPool.linkSpenders, txs_linkChildren]
  exact owned id creator

theorem mem_closeKnown_children (consistent : pool.Consistent crypto) (sets : pool.LinkSets)
    (listed : hash ∈ readded) {cached : T.Hash → List T.Hash}
    (right : ∀ key, cached key ≠ [] → ∀ target, target ∈ cached key ↔
      target ∉ readded ∧ ReflTransGen (pool.Linked crypto) key target) :
    let outside := (Library.Worklist.closeKnown (pool.getMemPoolChildren crypto) cached
      pool.mapTx.length (pool.getMemPoolChildren crypto hash) []).filter (· ∉ readded)
    outside.Nodup ∧ ∀ target, target ∈ outside ↔
      target ∉ readded ∧ ReflTransGen (pool.Linked crypto) hash target := by
  have pending : Library.Worklist.PendingKnown (pool.getMemPoolChildren crypto) (· ∉ readded)
      (pool.txs.map (CTransaction.getHash crypto)) (pool.getMemPoolChildren crypto hash) []
      (pool.getMemPoolChildren crypto hash) [] :=
    ⟨sets.nodup_children hash, nodup_nil, nodup_nil,
      fun child linked => mem_toFinset.mp (Linked.inside consistent linked).2,
      nil_subset _, fun _ _ => not_mem_nil, nil_subset _, fun _ => .inr,
      fun child found => ⟨child, found.resolve_left not_mem_nil, .refl⟩, nofun, nofun⟩
  have closed : ∀ item ∈ pool.txs.map (CTransaction.getHash crypto),
      pool.getMemPoolChildren crypto item ⊆ pool.txs.map (CTransaction.getHash crypto) :=
    fun item _ child linked => mem_toFinset.mp (Linked.inside consistent linked).2
  have enough : (pool.txs.map (CTransaction.getHash crypto)).length ≤
      pool.mapTx.length + ([] : List T.Hash).length := by simp [txs]
  obtain ⟨nodup, found⟩ := Library.Worklist.closeKnown_spec pending closed right enough
  refine ⟨nodup.filter _, fun target => ?_⟩
  rw [mem_filter, decide_eq_true_eq, and_comm]
  refine and_congr_right fun keep => ?_
  have differs : hash ≠ target := fun same => keep (same ▸ listed)
  rw [found target keep, ← transGen_iff_of_ne differs, TransGen.head'_iff]
  rfl

end CTxMemPool

variable {state : TrackedPool T × (T.Hash → List T.Hash)}

namespace TrackedPool

variable {tracked : TrackedPool T} {readded todo processed : List T.Hash}
  {cached : T.Hash → List T.Hash}

/-- The state between two rounds of `UpdateTransactionsFromBlock`. What still has to be
processed is linked to transactions that came back alone, and counts these alone. -/
structure Updating (crypto : BlockCrypto T) (tracked : TrackedPool T)
    (readded todo processed : List T.Hash) (cached : T.Hash → List T.Hash) : Prop where
  split : readded = todo ++ processed
  consistent : tracked.pool.Consistent crypto
  sets : tracked.pool.LinkSets
  owned : tracked.pool.OutputsOwned crypto
  acyclic : Acyclic (tracked.pool.Linked crypto)
  deltas : ∀ hash ∈ tracked.pool.hashes crypto,
    (tracked.stats hash).feeDelta = tracked.mapDeltas hash
  back : tracked.pool.CameBack crypto readded
  links : ∀ parent child, tracked.pool.Linked crypto parent child ↔
    tracked.pool.Spends crypto parent child ∧ (parent ∈ todo → child ∈ readded)
  sums : Sums tracked.stats (tracked.pool.hashes crypto) fun first last =>
    ReflTransGen (tracked.pool.Linked crypto) first last ∧ (first ∈ todo → last ∈ readded)
  keys : ∀ key, cached key ≠ [] → key ∈ processed
  cache : ∀ key, cached key ≠ [] → ∀ target, target ∈ cached key ↔
    target ∉ readded ∧ ReflTransGen (tracked.pool.Linked crypto) key target

theorem Updating.spends (updating : tracked.Updating crypto readded todo processed cached)
    (parent child : T.Hash) (linked : tracked.pool.Linked crypto parent child) :
    tracked.pool.Spends crypto parent child := ((updating.links parent child).mp linked).1

/-! ### The links of one round -/

namespace Updating

variable {hash : T.Hash}
  (updating : tracked.Updating crypto readded (todo ++ [hash]) processed cached)

include updating

theorem next : readded = todo ++ hash :: processed := by
  rw [updating.split, append_assoc, singleton_append]

theorem listed : hash ∈ readded := by
  rw [updating.next]
  exact mem_append_right _ mem_cons_self

theorem fresh : hash ∉ todo ∧ hash ∉ processed := by
  have nodup := updating.back.nodup
  rw [updating.next, nodup_middle, nodup_cons, mem_append, not_or] at nodup
  exact nodup.1

/-- A transaction that has left the pool again needs nothing. -/
theorem skip (absent : hash ∉ tracked.pool.hashes crypto) :
    tracked.Updating crypto readded todo (hash :: processed) cached := by
  have early : ∀ other ∈ tracked.pool.hashes crypto, other ∈ todo ++ [hash] ↔ other ∈ todo := by
    intro other present
    have differs : other ≠ hash := fun same => absent (same ▸ present)
    simp [differs]
  refine { updating with
    split := updating.next, links := ?_, sums := ?_,
    keys := fun key some => mem_cons_of_mem _ (updating.keys key some) }
  · intro parent child
    rw [updating.links]
    refine and_congr_right fun spends => ?_
    obtain ⟨creator, there, rfl, -⟩ := spends
    rw [early _ (mem_hashes_of_mem there)]
  · refine updating.sums.congr fun first present last _ => ?_
    rw [early first present]

variable {pool : CTxMemPool T}
  (grown : ∀ parent child, pool.Linked crypto parent child ↔
    tracked.pool.Linked crypto parent child ∨
      (parent = hash ∧ tracked.pool.Spends crypto hash child ∧ child ∉ readded))

theorem away {child : T.Hash} (unlisted : child ∉ readded) :
    ¬ ReflTransGen (tracked.pool.Linked crypto) child hash :=
  fun path => unlisted (updating.back.path_above updating.spends path updating.listed)

include grown

theorem paths (first last : T.Hash) :
    ReflTransGen (pool.Linked crypto) first last ↔
      ReflTransGen (tracked.pool.Linked crypto) first last ∨
        (ReflTransGen (tracked.pool.Linked crypto) first hash ∧
          ∃ target, (tracked.pool.Spends crypto hash target ∧ target ∉ readded) ∧
            ReflTransGen (tracked.pool.Linked crypto) target last) :=
  reflTransGen_attached grown fun _ target => updating.away target.2

theorem paths_processed {key : T.Hash} (listed : key ∈ processed) (target : T.Hash) :
    ReflTransGen (pool.Linked crypto) key target ↔
      ReflTransGen (tracked.pool.Linked crypto) key target := by
  refine (updating.paths grown key target).trans (or_iff_left ?_)
  rintro ⟨path, -⟩
  exact updating.fresh.2
    (updating.back.path_later updating.spends updating.split path listed updating.listed)

theorem links_round (parent child : T.Hash) :
    pool.Linked crypto parent child ↔
      tracked.pool.Spends crypto parent child ∧ (parent ∈ todo → child ∈ readded) := by
  rw [grown, updating.links]
  constructor
  · rintro (⟨spends, listed⟩ | ⟨rfl, spends, -⟩)
    · exact ⟨spends, fun early => listed (mem_append_left _ early)⟩
    · exact ⟨spends, fun early => absurd early updating.fresh.1⟩
  · rintro ⟨spends, listed⟩
    by_cases inside : child ∈ readded
    · exact .inl ⟨spends, fun _ => inside⟩
    · by_cases same : parent = hash
      · exact .inr ⟨same, same ▸ spends, inside⟩
      · refine .inl ⟨spends, fun early => listed ?_⟩
        exact (mem_append.mp early).resolve_right fun last => same (mem_singleton.mp last)

theorem counts_round (first last : T.Hash) :
    (ReflTransGen (pool.Linked crypto) first last ∧ (first ∈ todo → last ∈ readded)) ↔
      (ReflTransGen (tracked.pool.Linked crypto) first last ∧
          (first ∈ todo ++ [hash] → last ∈ readded)) ∨
        (first = hash ∧ last ∉ readded ∧ ReflTransGen (pool.Linked crypto) hash last) := by
  constructor
  · rintro ⟨path, listed⟩
    by_cases inside : last ∈ readded
    · -- A path that ends in the list does not take a new link.
      obtain old | ⟨-, target, ⟨-, unlisted⟩, rest⟩ := (updating.paths grown first last).mp path
      · exact .inl ⟨old, fun _ => inside⟩
      · exact absurd (updating.back.path_above updating.spends rest inside) unlisted
    · by_cases same : first = hash
      · exact .inr ⟨same, inside, same ▸ path⟩
      · have late : first ∉ todo ++ [hash] := by
          rw [mem_append, mem_singleton, not_or]
          exact ⟨fun early => inside (listed early), same⟩
        obtain old | ⟨before, -⟩ := (updating.paths grown first last).mp path
        · exact .inl ⟨old, fun early => absurd early late⟩
        · -- What leads to the transaction is in the list, and not among the processed ones.
          have above := updating.back.path_above updating.spends before updating.listed
          rw [updating.split] at above
          have after := (mem_append.mp above).resolve_left late
          exact absurd (updating.back.path_later updating.spends updating.split before after
            updating.listed) updating.fresh.2
  · rintro (⟨path, listed⟩ | ⟨rfl, -, path⟩)
    · exact ⟨(updating.paths grown first last).mpr (.inl path),
        fun early => listed (mem_append_left _ early)⟩
    · exact ⟨path, fun early => absurd early updating.fresh.1⟩

end Updating

/-! ### One round -/

theorem updateForDescendants_spec (consistent : tracked.pool.Consistent crypto)
    (sets : tracked.pool.LinkSets) (listed : hash ∈ readded)
    (right : ∀ key, cached key ≠ [] → ∀ target, target ∈ cached key ↔ target ∉ readded ∧
      ReflTransGen (tracked.pool.Linked crypto) key target)
    (updated : tracked.updateForDescendants crypto hash cached readded = state) :
    ∃ outside : List T.Hash, outside.Nodup ∧
      (∀ target, target ∈ outside ↔
        target ∉ readded ∧ ReflTransGen (tracked.pool.Linked crypto) hash target) ∧
      state.1.pool = tracked.pool ∧ state.1.mapDeltas = tracked.mapDeltas ∧
      Adjusted tracked.stats state.1.stats
        (fun other => if other ∈ [hash] then
          (outside.map fun descendant => (tracked.stats descendant).descendantFigures).sum else 0)
        (fun other => if other ∈ outside then (tracked.stats hash).ancestorFigures else 0) ∧
      (∀ target, target ∈ state.2 hash ↔ target ∈ cached hash ∨ target ∈ outside) ∧
      ∀ key, key ≠ hash → state.2 key = cached key := by
  subst updated
  obtain ⟨nodup, collected⟩ := mem_closeKnown_children consistent sets listed right
  refine ⟨_, nodup, collected, rfl, rfl, ?_, ?_, fun key differs => if_neg differs⟩
  · refine ((adjusted_updateAncestorState _ _).trans
      (adjusted_updateDescendantState [hash] _)).of_eq (fun other => ?_) fun other => ?_
    · exact zero_add _
    · exact add_zero _
  · intro target
    unfold updateForDescendants
    dsimp only
    rw [if_pos rfl, Library.Worklist.mem_foldl_insert]

/-- One round: the links that are missing are added, and the descendants outside the list
are told. -/
theorem Updating.round
    (updating : tracked.Updating crypto readded (todo ++ [hash]) processed cached)
    {entry : CTxMemPoolEntry T} (found : tracked.pool.find crypto hash = some entry)
    (updated : updateFromBlock crypto readded (tracked, cached) hash = state) :
    state.1.Updating crypto readded todo (hash :: processed) state.2 := by
  obtain ⟨member, rfl⟩ := (find_eq_some updating.consistent.maps).mp found
  have present : entry.tx ∈ tracked.pool.txs := mem_map_of_mem member
  simp only [updateFromBlock, found] at updated
  rw [← linkSpenders] at updated
  have grown := linked_linkSpenders updating.consistent present readded
  have consistent := linkSpenders_consistent updating.consistent present readded
  have sets : (tracked.pool.linkSpenders crypto readded entry.tx).LinkSets :=
    updating.sets.linkChildren _ _
  obtain ⟨outside, nodup, collected, samePool, sameDeltas, adjusted, cachedNew, cachedOld⟩ :=
    updateForDescendants_spec consistent sets updating.listed (fun key some target => by
      rw [updating.paths_processed grown (updating.keys key some), updating.cache key some]) updated
  dsimp only at collected samePool sameDeltas adjusted
  rw [← samePool] at consistent sets collected grown
  have uncached : cached (entry.tx.getHash crypto) = [] :=
    not_not.mp fun some => updating.fresh.2 (updating.keys _ some)
  have hashes : state.1.pool.hashes crypto = tracked.pool.hashes crypto := by
    rw [samePool]
    exact hashes_linkChildren _ _
  have spends : state.1.pool.Spends crypto = tracked.pool.Spends crypto := by
    rw [samePool]
    exact spends_linkChildren _ _
  have inside : ∀ hash ∈ outside, hash ∈ tracked.pool.hashes crypto := by
    intro hash listed
    rw [← hashes]
    exact path_inside consistent (hashes ▸ mem_hashes_of_mem present)
      ((collected hash).mp listed).2
  refine ⟨updating.next, consistent, sets, samePool ▸ updating.owned.linkSpenders _ _,
    updating.acyclic.attached grown fun _ target => updating.away target.2, ?_, ?_, ?_, ?_, ?_, ?_⟩
  · intro hash there
    rw [adjusted.feeDelta, sameDeltas]
    exact updating.deltas hash (hashes ▸ there)
  · exact updating.back.mono fun parent child => by rw [spends]; exact id
  · intro parent child
    rw [spends]
    exact updating.links_round grown parent child
  · rw [hashes]
    refine updating.sums.gain (mem_hashes_of_mem present) nodup inside ?_ ?_ adjusted
    · intro first last
      rw [collected, updating.counts_round grown]
    · intro hash listed counted
      exact ((collected hash).mp listed).1 (counted.2 (by simp))
  · intro key some
    by_cases same : key = entry.tx.getHash crypto
    · exact mem_cons.mpr (.inl same)
    · rw [cachedOld key same] at some
      exact mem_cons_of_mem _ (updating.keys key some)
  · intro key some target
    by_cases same : key = entry.tx.getHash crypto
    · rw [same, cachedNew, uncached, collected]
      simp only [not_mem_nil, false_or]
    · rw [cachedOld key same] at some ⊢
      rw [updating.paths_processed grown (updating.keys key some), updating.cache key some]

/-- All rounds, from the last transaction to the first. -/
theorem Updating.rounds (updating : tracked.Updating crypto readded todo processed cached) :
    ∃ cached', (todo.reverse.foldl (updateFromBlock crypto readded) (tracked, cached)).1.Updating
      crypto readded [] readded cached' := by
  induction todo using List.reverseRecOn generalizing tracked processed cached with
  | nil =>
    have split := updating.split
    subst split
    exact ⟨cached, updating⟩
  | append_singleton todo hash ih =>
    rw [reverse_append, reverse_singleton, singleton_append, foldl_cons]
    generalize updated : updateFromBlock crypto readded (tracked, cached) hash = state
    have after : state.1.Updating crypto readded todo (hash :: processed) state.2 := by
      cases found : tracked.pool.find crypto hash with
      | none =>
        simp only [updateFromBlock, found] at updated
        subst updated
        exact updating.skip (find_eq_none_iff.mp found)
      | some entry => exact updating.round found updated
    exact ih after

end TrackedPool

end MooncoinFormal.Mempool
