import MooncoinFormal.Library.Paths
import MooncoinFormal.Library.RelationSums
import MooncoinFormal.Mempool.SpendingLinks

/-!
# The figures are sums

The figures of an entry with its descendants are the sum over the entries that can be
reached by links to children, and those with its ancestors the sum over the entries
it can be reached from. A transaction that joins, entries that leave and a fee that
is adjusted change the figures by what has to be added or taken away.
-/

namespace MooncoinFormal.Mempool

open Primitives Relation Library.Paths Library.RelationSums CTxMemPool EntryStats List Function

variable {T : CryptoTypes}

/-! ## Differences -/

/-- The figures of two states of the pool differ by these amounts, and what the entries
contribute is the same. -/
structure Adjusted (stats stats' : T.Hash → EntryStats) (down : T.Hash → DescendantFigure → Word)
    (up : T.Hash → AncestorFigure → Word) : Prop where
  descendants : ∀ hash, (stats' hash).withDescendants = (stats hash).withDescendants + down hash
  ancestors : ∀ hash, (stats' hash).withAncestors = (stats hash).withAncestors + up hash
  descendantFigures : ∀ hash, (stats' hash).descendantFigures = (stats hash).descendantFigures
  ancestorFigures : ∀ hash, (stats' hash).ancestorFigures = (stats hash).ancestorFigures
  feeDelta : ∀ hash, (stats' hash).feeDelta = (stats hash).feeDelta

variable {stats stats' stats'' : T.Hash → EntryStats}

theorem adjusted_refl : Adjusted stats stats 0 0 :=
  ⟨fun _ => (add_zero _).symm, fun _ => (add_zero _).symm, fun _ => rfl, fun _ => rfl, fun _ => rfl⟩

variable {down down' : T.Hash → DescendantFigure → Word} {up up' : T.Hash → AncestorFigure → Word}
  {setAncestors stage : List T.Hash} {entry : NewEntry T} {hash : T.Hash}

theorem Adjusted.trans (first : Adjusted stats stats' down up)
    (second : Adjusted stats' stats'' down' up') :
    Adjusted stats stats'' (down + down') (up + up') where
  descendants hash := by
    rw [second.descendants, first.descendants, add_assoc, Pi.add_apply]
  ancestors hash := by
    rw [second.ancestors, first.ancestors, add_assoc, Pi.add_apply]
  descendantFigures hash := (second.descendantFigures hash).trans (first.descendantFigures hash)
  ancestorFigures hash := (second.ancestorFigures hash).trans (first.ancestorFigures hash)
  feeDelta hash := (second.feeDelta hash).trans (first.feeDelta hash)

theorem Adjusted.of_eq (adjusted : Adjusted stats stats' down up)
    (downEq : ∀ hash, down hash = down' hash) (upEq : ∀ hash, up hash = up' hash) :
    Adjusted stats stats' down' up' := by
  rw [← funext downEq, ← funext upEq]
  exact adjusted

theorem adjusted_updateDescendantState (hashes : List T.Hash) (modify : DescendantFigure → Word) :
    Adjusted stats (modifyEach hashes (fun entry => entry.updateDescendantState modify) stats)
      (fun hash => if hash ∈ hashes then modify else 0) 0 := by
  refine ⟨fun hash => ?_, fun hash => ?_, fun hash => ?_, fun hash => ?_, fun hash => ?_⟩ <;>
    unfold modifyEach <;> split
  · rfl
  · exact (add_zero _).symm
  · exact (add_zero _).symm
  · exact (add_zero _).symm
  all_goals rfl

theorem adjusted_updateAncestorState (hashes : List T.Hash) (modify : AncestorFigure → Word) :
    Adjusted stats (modifyEach hashes (fun entry => entry.updateAncestorState modify) stats) 0
      (fun hash => if hash ∈ hashes then modify else 0) := by
  refine ⟨fun hash => ?_, fun hash => ?_, fun hash => ?_, fun hash => ?_, fun hash => ?_⟩ <;>
    unfold modifyEach <;> split
  · exact (add_zero _).symm
  · exact (add_zero _).symm
  · rfl
  · exact (add_zero _).symm
  all_goals rfl

/-! ## Sums over a relation -/

/-- The figures with descendants are the sums over the entries that an entry counts, and
the figures with ancestors the sums over those by which it is counted. -/
structure Sums (stats : T.Hash → EntryStats) (nodes : Finset T.Hash)
    (counts : T.Hash → T.Hash → Prop) : Prop where
  descendants : ∀ hash ∈ nodes, (stats hash).withDescendants =
    relSum nodes counts (fun other => (stats other).descendantFigures) hash
  ancestors : ∀ hash ∈ nodes, (stats hash).withAncestors =
    relSum nodes (swap counts) (fun other => (stats other).ancestorFigures) hash

variable {nodes : Finset T.Hash} {counts counts' : T.Hash → T.Hash → Prop}

section

variable (sums : Sums stats nodes counts)
include sums

theorem Sums.congr
    (same : ∀ first ∈ nodes, ∀ last ∈ nodes, counts' first last ↔ counts first last) :
    Sums stats nodes counts' := by
  constructor
  · intro hash present
    rw [sums.descendants hash present]
    exact relSum_congr (fun last there => (same hash present last there).symm) fun _ _ => rfl
  · intro hash present
    rw [sums.ancestors hash present]
    exact relSum_congr (fun first there => (same first there hash present).symm) fun _ _ => rfl

/-- An entry joins that counts no other. -/
theorem Sums.insert {new : T.Hash} (fresh : new ∉ nodes)
    {inserted : T.Hash → EntryStats} (alike : ∀ hash ∈ nodes, inserted hash = stats hash)
    (alone : (inserted new).withDescendants = (inserted new).descendantFigures ∧
      (inserted new).withAncestors = (inserted new).ancestorFigures)
    (old : ∀ first ∈ nodes, ∀ last ∈ nodes, counts' first last ↔ counts first last)
    (self : counts' new new) (childless : ∀ other ∈ nodes, ¬ counts' new other)
    (nodup : setAncestors.Nodup)
    (collected : ∀ hash, hash ∈ setAncestors ↔ hash ∈ nodes ∧ counts' hash new)
    (adjusted : Adjusted inserted stats'
      (fun hash => if hash ∈ setAncestors then (inserted new).descendantFigures else 0)
      (fun hash => if hash ∈ [new] then
        (setAncestors.map fun ancestor => (inserted ancestor).ancestorFigures).sum else 0)) :
    Sums stats' (insert new nodes) counts' := by
  have ownDown : ∀ hash ∈ nodes, (stats' hash).descendantFigures = (stats hash).descendantFigures :=
    fun hash inside => by rw [adjusted.descendantFigures, alike hash inside]
  have ownUp : ∀ hash ∈ nodes, (stats' hash).ancestorFigures = (stats hash).ancestorFigures :=
    fun hash inside => by rw [adjusted.ancestorFigures, alike hash inside]
  constructor
  · intro hash inside
    rw [adjusted.descendants]
    obtain rfl | inside := Finset.mem_insert.mp inside
    · -- The new entry counts itself alone.
      have outside : hash ∉ setAncestors := fun listed => fresh ((collected hash).mp listed).1
      rw [if_neg outside, add_zero, relSum_insert fresh self, relSum_eq_zero childless, zero_add,
        alone.1, adjusted.descendantFigures]
    · have before := relSum_congr (old hash inside) ownDown
      rw [alike hash inside, sums.descendants hash inside]
      by_cases counted : counts' hash new
      · rw [if_pos ((collected hash).mpr ⟨inside, counted⟩), relSum_insert fresh counted, before,
          adjusted.descendantFigures]
      · rw [if_neg fun listed => counted ((collected hash).mp listed).2, add_zero,
          relSum_insert_of_not fresh counted, before]
  · intro hash inside
    rw [adjusted.ancestors]
    obtain rfl | inside := Finset.mem_insert.mp inside
    · have above : relSum nodes (swap counts')
          (fun other => (stats' other).ancestorFigures) hash =
            (setAncestors.map fun ancestor => (inserted ancestor).ancestorFigures).sum := by
        rw [relSum_eq_sum nodup collected]
        congr 1
        exact map_congr_left fun ancestor _ => adjusted.ancestorFigures ancestor
      have selfAbove : swap counts' hash hash := self
      rw [if_pos (mem_singleton_self _), relSum_insert fresh selfAbove, above, alone.2,
        adjusted.ancestorFigures, add_comm]
    · have differs : hash ∉ [new] := fun same => fresh (mem_singleton.mp same ▸ inside)
      have unrelated : ¬ swap counts' hash new := childless hash inside
      rw [if_neg differs, add_zero, alike hash inside, sums.ancestors hash inside,
        relSum_insert_of_not fresh unrelated]
      exact (relSum_congr (fun other there => old other there hash inside) ownUp).symm

/-- Entries leave, and the others lose what they counted of them. -/
theorem Sums.remove {gone : Finset T.Hash} (inside : gone ⊆ nodes)
    (kept : ∀ first ∈ nodes \ gone, ∀ last ∈ nodes \ gone, counts' first last ↔ counts first last)
    (adjusted : Adjusted stats stats' down up)
    (lost : ∀ hash ∈ nodes \ gone, down hash =
      -relSum gone counts (fun other => (stats other).descendantFigures) hash)
    (lostAbove : ∀ hash ∈ nodes \ gone, up hash =
      -relSum gone (swap counts) (fun other => (stats other).ancestorFigures) hash) :
    Sums stats' (nodes \ gone) counts' := by
  constructor
  · intro hash stays
    rw [adjusted.descendants, sums.descendants hash (Finset.sdiff_subset stays), lost hash stays,
      ← sub_eq_add_neg, ← relSum_sdiff inside]
    exact relSum_congr (fun other there => (kept hash stays other there).symm)
      fun other _ => (adjusted.descendantFigures other).symm
  · intro hash stays
    rw [adjusted.ancestors, sums.ancestors hash (Finset.sdiff_subset stays), lostAbove hash stays,
      ← sub_eq_add_neg, ← relSum_sdiff inside]
    exact relSum_congr (fun other there => (kept other there hash stays).symm)
      fun other _ => (adjusted.ancestorFigures other).symm

variable {changed : T.Hash} (present : changed ∈ nodes)
include present

theorem Sums.gain
    {outside : List T.Hash} (nodup : outside.Nodup) (inside : ∀ hash ∈ outside, hash ∈ nodes)
    (either : ∀ first last, counts' first last ↔
      counts first last ∨ (first = changed ∧ last ∈ outside))
    (apart : ∀ hash ∈ outside, ¬ counts changed hash) (adjusted : Adjusted stats stats'
      (fun hash => if hash ∈ [changed] then
        (outside.map fun other => (stats other).descendantFigures).sum else 0)
      (fun hash => if hash ∈ outside then (stats changed).ancestorFigures else 0)) :
    Sums stats' nodes counts' := by
  constructor
  · intro hash there
    have gained := @relSum_gain _ _ _ nodes counts counts' (fun first last =>
      first = changed ∧ last ∈ outside) (fun other => (stats other).descendantFigures) hash
      (fun last _ => either hash last) fun last _ counted ⟨same, listed⟩ =>
        apart last listed (same ▸ counted)
    rw [adjusted.descendants, sums.descendants hash there,
      relSum_weights fun other _ => adjusted.descendantFigures other, gained]
    congr 1
    by_cases same : hash = changed
    · rw [if_pos (mem_singleton.mpr same)]
      refine (relSum_eq_sum nodup fun other => ?_).symm
      exact ⟨fun listed => ⟨inside other listed, same, listed⟩, fun new => new.2.2⟩
    · rw [if_neg fun listed => same (mem_singleton.mp listed)]
      exact (relSum_eq_zero fun other _ new => same new.1).symm
  · intro hash there
    have gained := @relSum_gain _ _ _ nodes (swap counts) (swap counts')
      (fun last first => first = changed ∧ last ∈ outside)
      (fun other => (stats other).ancestorFigures) hash (fun first _ => either first hash)
      fun first _ counted ⟨same, listed⟩ => apart hash listed (same ▸ counted)
    rw [adjusted.ancestors, sums.ancestors hash there,
      relSum_weights fun other _ => adjusted.ancestorFigures other, gained]
    congr 1
    by_cases listed : hash ∈ outside
    · rw [if_pos listed, relSum_eq_sum (nodup_singleton changed) fun other => ?_]
      · exact sum_singleton.symm
      · rw [mem_singleton]
        exact ⟨fun same => ⟨same ▸ present, same, listed⟩, fun new => new.2.1⟩
    · rw [if_neg listed]
      exact (relSum_eq_zero fun other _ new => listed new.2).symm

end

/-! ## The pool -/

namespace TrackedPool

/-- The links and maps agree with the entries, and the figures are the sums over the
closure of the links. -/
structure Figured (crypto : BlockCrypto T) (tracked : TrackedPool T) : Prop where
  consistent : tracked.pool.Consistent crypto
  sets : tracked.pool.LinkSets
  owned : tracked.pool.OutputsOwned crypto
  acyclic : Acyclic (tracked.pool.Linked crypto)
  sums : Sums tracked.stats (tracked.pool.hashes crypto) (ReflTransGen (tracked.pool.Linked crypto))
  deltas : ∀ hash ∈ tracked.pool.hashes crypto,
    (tracked.stats hash).feeDelta = tracked.mapDeltas hash

variable {crypto : BlockCrypto T} {tracked : TrackedPool T} {first last : T.Hash}

theorem path_inside (consistent : tracked.pool.Consistent crypto)
    (present : first ∈ tracked.pool.hashes crypto)
    (path : ReflTransGen (tracked.pool.Linked crypto) first last) :
    last ∈ tracked.pool.hashes crypto :=
  mem_toFinset.mpr
    (CTxMemPool.Descends.inside consistent (mem_toFinset.mp present) path)

theorem closed_path
    (closed : ∀ parent child, tracked.pool.Linked crypto parent child → parent ∈ stage → child ∈
      stage) (starts : first ∈ stage)
    (path : ReflTransGen (tracked.pool.Linked crypto) first last) : last ∈ stage := by
  induction path with
  | refl => exact starts
  | @tail parent child _ link ih => exact closed parent child link ih

/-! ### A transaction joins -/

theorem searchAncestors_eq_ok (consistent : tracked.pool.Consistent crypto) {limits : Limits}
    (searched : tracked.searchAncestors crypto limits entry = .ok setAncestors) :
    setAncestors.Nodup ∧ ∀ hash, hash ∈ setAncestors ↔
      ∃ parent ∈ tracked.pool.parentsInPool crypto entry.tx,
        ReflTransGen (tracked.pool.Linked crypto) hash parent := by
  obtain ⟨_, -, closed⟩ := Library.Checks.bind_eq_ok.mp searched
  rw [Library.Worklist.closeChecked_eq_ok closed]
  exact close_parents consistent (nodup_dedup _) fun _ => inside_of_mem_parentsInPool

theorem stats_alone (entry : NewEntry T) (delta : Word) :
    (entry.stats.updateFeeDelta delta).withDescendants =
        (entry.stats.updateFeeDelta delta).descendantFigures ∧
      (entry.stats.updateFeeDelta delta).withAncestors =
        (entry.stats.updateFeeDelta delta).ancestorFigures := by
  constructor
  · funext figure
    cases figure <;> simp [updateFeeDelta, descendantFigures, NewEntry.stats,
      descendantFee, getModifiedFee]
  · funext figure
    cases figure <;> simp [updateFeeDelta, ancestorFigures, NewEntry.stats,
      ancestorFee, getModifiedFee]

theorem insertedStats_self (entry : NewEntry T) :
    tracked.insertedStats crypto entry (entry.tx.getHash crypto) =
      entry.stats.updateFeeDelta (tracked.mapDeltas (entry.tx.getHash crypto)) := if_pos rfl

theorem insertedStats_of_ne (differs : hash ≠ entry.tx.getHash crypto) :
    tracked.insertedStats crypto entry hash = tracked.stats hash := if_neg differs

theorem adjusted_addUnchecked (entry : NewEntry T) (setAncestors : List T.Hash) :
    Adjusted (tracked.insertedStats crypto entry)
      (tracked.addUnchecked crypto entry setAncestors).stats
      (fun hash => if hash ∈ setAncestors then
        (tracked.insertedStats crypto entry (entry.tx.getHash crypto)).descendantFigures else 0)
      (fun hash => if hash ∈ [entry.tx.getHash crypto] then
        (setAncestors.map fun ancestor =>
          (tracked.insertedStats crypto entry ancestor).ancestorFigures).sum else 0) := by
  have counted := @adjusted_updateDescendantState T
    (tracked.insertedStats crypto entry) setAncestors
    (tracked.insertedStats crypto entry (entry.tx.getHash crypto)).descendantFigures
  refine (counted.trans (adjusted_updateAncestorState [entry.tx.getHash crypto] _)).of_eq ?_ ?_
  · intro hash
    rw [Pi.add_apply, Pi.zero_apply, add_zero]
  · intro hash
    rw [Pi.add_apply, Pi.zero_apply, zero_add,
      map_congr_left fun ancestor _ => counted.ancestorFigures ancestor]

theorem Figured.addUnchecked (figured : tracked.Figured crypto) {limits : Limits}
    (new : tracked.pool.find crypto (entry.tx.getHash crypto) = none)
    (unspent : ∀ input ∈ entry.tx.getInputs, tracked.pool.mapNextTx.lookup input = none)
    (apart : ∀ other ∈ tracked.pool.txs, ∀ id ∈ entry.tx.getOutputIDs crypto, id ∉
      other.getOutputIDs crypto)
    (searched : tracked.searchAncestors crypto limits entry = .ok setAncestors) :
    (tracked.addUnchecked crypto entry setAncestors).Figured crypto := by
  have consistent := figured.consistent
  have fresh := find_eq_none_iff.mp new
  have linked := fun parent child =>
    @CTxMemPool.linked_addUnchecked T crypto tracked.pool consistent entry.tx new
      unspent parent child
  have isolated : ∀ other, ¬ tracked.pool.Linked crypto (entry.tx.getHash crypto) other :=
    fun other link => fresh (link.inside consistent).1
  have differs : ¬ entry.tx.getHash crypto ∈ tracked.pool.parentsInPool crypto entry.tx :=
    fun listed => find_of_mem_parentsInPool listed new
  have paths := fun first last => @reflTransGen_sink _ _ _ _ _ linked isolated differs first last
  obtain ⟨nodup, collected⟩ := searchAncestors_eq_ok consistent searched
  have unreached : ∀ hash ∈ tracked.pool.hashes crypto,
      ¬ ReflTransGen (tracked.pool.Linked crypto) hash (entry.tx.getHash crypto) :=
    fun hash present path => fresh (path_inside consistent present path)
  refine ⟨addUnchecked_consistent consistent new unspent, figured.sets.addUnchecked _,
    figured.owned.addUnchecked apart,
    figured.acyclic.sink linked isolated differs, ?_, ?_⟩
  · show Sums _ ((tracked.pool.addUnchecked crypto entry.tx).hashes crypto) _
    rw [hashes_addUnchecked]
    refine figured.sums.insert fresh (fun hash present => insertedStats_of_ne ?_) ?_ ?_
      .refl ?_ nodup ?_
      (adjusted_addUnchecked entry setAncestors)
    · rintro rfl
      exact fresh present
    · rw [insertedStats_self]
      exact stats_alone entry _
    · intro first _ last present
      refine (paths first last).trans (or_iff_left ?_)
      rintro ⟨rfl, -⟩
      exact fresh present
    · intro other present path
      obtain path | ⟨rfl, -⟩ := (paths _ other).mp path
      · obtain same | ⟨next, link, -⟩ := ReflTransGen.cases_head path
        · exact fresh (same ▸ present)
        · exact isolated next link
      · exact fresh present
    · intro hash
      rw [collected hash]
      constructor
      · rintro ⟨parent, listed, path⟩
        refine ⟨?_, (paths hash _).mpr (.inr ⟨rfl, parent, listed, path⟩)⟩
        obtain rfl | ⟨next, link, -⟩ := ReflTransGen.cases_head path
        · exact inside_of_mem_parentsInPool listed
        · exact (link.inside consistent).1
      · rintro ⟨present, path⟩
        obtain path | ⟨-, parent, listed, path⟩ := (paths hash _).mp path
        · exact absurd path (unreached hash present)
        · exact ⟨parent, listed, path⟩
  · intro hash present
    refine ((adjusted_addUnchecked entry setAncestors).feeDelta hash).trans ?_
    by_cases same : hash = entry.tx.getHash crypto
    · rw [same, insertedStats_self]
      rfl
    · rw [insertedStats_of_ne same]
      refine figured.deltas hash ?_
      have inserted : hash ∈ (tracked.pool.addUnchecked crypto entry.tx).hashes crypto := present
      rw [hashes_addUnchecked] at inserted
      exact (Finset.mem_insert.mp inserted).resolve_left same

/-! ### Entries leave -/

/-- The first entry is told when the second leaves, as one of its ancestors. -/
def ToldAbove (crypto : BlockCrypto T) (tracked : TrackedPool T) (hash removed : T.Hash) : Prop :=
  hash ∈ tracked.pool.calculateMemPoolAncestors crypto removed

/-- And as one of its descendants. -/
def ToldBelow (crypto : BlockCrypto T) (tracked : TrackedPool T) (hash removed : T.Hash) : Prop :=
  hash ∈ (tracked.pool.calculateDescendants crypto [] removed).erase removed

theorem adjusted_forgetDescendants (nodup : stage.Nodup) :
    Adjusted stats (stage.foldl (tracked.forgetDescendant crypto) stats)
      (fun hash => -relSum stage.toFinset (tracked.ToldAbove crypto)
        (fun removed => (stats removed).descendantFigures) hash) 0 := by
  induction stage generalizing stats with
  | nil =>
    refine adjusted_refl.of_eq (fun hash => ?_) fun _ => rfl
    rw [Pi.zero_apply, toFinset_nil, relSum_eq_zero nofun, neg_zero]
  | cons removed rest ih =>
    obtain ⟨fresh, nodup⟩ := nodup_cons.mp nodup
    have first : Adjusted stats (tracked.forgetDescendant crypto stats removed) _ 0 :=
      adjusted_updateDescendantState _ _
    refine (first.trans (ih nodup)).of_eq (fun hash => ?_) fun _ => add_zero _
    rw [Pi.add_apply, relSum_weights fun other _ => first.descendantFigures other, toFinset_cons]
    have unlisted := mt mem_toFinset.mp fresh
    by_cases told : tracked.ToldAbove crypto hash removed
    · rw [if_pos (by exact told), relSum_insert unlisted told, neg_add_rev]
    · rw [if_neg (by exact told), relSum_insert_of_not unlisted told, zero_add]

theorem adjusted_forgetAncestors (nodup : stage.Nodup) :
    Adjusted stats (stage.foldl (tracked.forgetAncestor crypto) stats) 0
      (fun hash => -relSum stage.toFinset (tracked.ToldBelow crypto)
        (fun removed => (stats removed).ancestorFigures) hash) := by
  induction stage generalizing stats with
  | nil =>
    refine adjusted_refl.of_eq (fun _ => rfl) fun hash => ?_
    rw [Pi.zero_apply, toFinset_nil, relSum_eq_zero nofun, neg_zero]
  | cons removed rest ih =>
    obtain ⟨fresh, nodup⟩ := nodup_cons.mp nodup
    have first : Adjusted stats (tracked.forgetAncestor crypto stats removed) 0 _ :=
      adjusted_updateAncestorState _ _
    rw [lostFigures_eq] at first
    refine (first.trans (ih nodup)).of_eq (fun _ => add_zero _) fun hash => ?_
    rw [Pi.add_apply, relSum_weights fun other _ => first.ancestorFigures other, toFinset_cons]
    have unlisted := mt mem_toFinset.mp fresh
    by_cases told : tracked.ToldBelow crypto hash removed
    · rw [if_pos (by exact told), relSum_insert unlisted told, neg_add_rev]
    · rw [if_neg (by exact told), relSum_insert_of_not unlisted told, zero_add]

/-- Entries may leave with all their descendants, or with all their ancestors when the
descendants are told. -/
def MayLeave (crypto : BlockCrypto T) (tracked : TrackedPool T) (stage : List T.Hash)
    (updateDescendants : Bool) : Prop :=
  (∀ parent child, tracked.pool.Linked crypto parent child → parent ∈ stage → child ∈ stage) ∨
    (updateDescendants = true ∧
      ∀ parent child, tracked.pool.Linked crypto parent child → child ∈ stage → parent ∈ stage)

theorem Figured.removeStaged (figured : tracked.Figured crypto) (nodup : stage.Nodup)
    (inside : ∀ hash ∈ stage, hash ∈ tracked.pool.hashes crypto) {updateDescendants : Bool}
    (safe : tracked.MayLeave crypto stage updateDescendants) :
    (tracked.removeStaged crypto stage updateDescendants).Figured crypto := by
  have consistent := figured.consistent
  have removed := removeStaged_spec consistent stage
  have linked := fun parent child =>
    @CTxMemPool.linked_removeStaged T crypto tracked.pool consistent stage parent child
  have hashes := hashes_removeStaged consistent stage
  have stays : ∀ {hash}, hash ∈ tracked.pool.hashes crypto \ stage.toFinset → hash ∉ stage :=
    fun there staged => (Finset.mem_sdiff.mp there).2 (mem_toFinset.mpr staged)
  have kept : ∀ first ∈ tracked.pool.hashes crypto \ stage.toFinset,
      ∀ last ∈ tracked.pool.hashes crypto \ stage.toFinset,
        ReflTransGen ((tracked.pool.removeStaged crypto stage).Linked crypto) first last ↔
          ReflTransGen (tracked.pool.Linked crypto) first last := by
    intro first firstStays last lastStays
    obtain below | ⟨-, above⟩ := safe
    · exact reflTransGen_kept_forward linked below (stays lastStays)
    · exact reflTransGen_kept_backward linked above (stays firstStays)
  have forgotten : Adjusted tracked.stats
      (if updateDescendants then stage.foldl (tracked.forgetAncestor crypto) tracked.stats
        else tracked.stats) 0
      (fun hash => if updateDescendants then -relSum stage.toFinset (tracked.ToldBelow crypto)
        (fun removed => (tracked.stats removed).ancestorFigures) hash else 0) := by
    cases updateDescendants with
    | false => exact adjusted_refl
    | true => exact adjusted_forgetAncestors nodup
  have adjusted : Adjusted tracked.stats
      (tracked.removeStaged crypto stage updateDescendants).stats _ _ :=
    forgotten.trans (adjusted_forgetDescendants nodup)
  refine ⟨removed.consistent, figured.sets.removeStaged consistent stage,
    figured.owned.removeStaged consistent stage,
    figured.acyclic.mono fun parent child link => ((linked parent child).mp link).1, ?_, ?_⟩
  · show Sums _ ((tracked.pool.removeStaged crypto stage).hashes crypto) _
    rw [hashes]
    refine figured.sums.remove (fun hash listed => inside hash (mem_toFinset.mp listed)) kept
      adjusted ?_ ?_
    · intro hash there
      rw [Pi.add_apply, Pi.zero_apply, zero_add]
      refine congrArg Neg.neg (relSum_congr (fun other gone => ?_) fun other _ =>
        forgotten.descendantFigures other)
      rw [ToldAbove, mem_calculateMemPoolAncestors consistent figured.sets]
      refine transGen_iff_of_ne ?_
      rintro rfl
      exact stays there (mem_toFinset.mp gone)
    · intro hash there
      rw [Pi.add_apply, Pi.zero_apply, add_zero]
      cases updateDescendants with
      | true =>
        refine congrArg Neg.neg (relSum_congr (fun other gone => ?_) fun _ _ => rfl)
        rw [ToldBelow, mem_descendants_erase consistent (inside other (mem_toFinset.mp gone))]
        refine and_iff_right ?_
        rintro rfl
        exact stays there (mem_toFinset.mp gone)
      | false =>
        -- Nothing that stays descends from what leaves.
        obtain below | ⟨untrue, -⟩ := safe
        · have unrelated : ∀ other ∈ stage.toFinset,
              ¬ swap (ReflTransGen (tracked.pool.Linked crypto)) hash other := by
            intro other gone path
            exact stays there (closed_path below (mem_toFinset.mp gone) path)
          rw [relSum_eq_zero unrelated, neg_zero]
          rfl
        · cases untrue
  · intro hash present
    refine (adjusted.feeDelta hash).trans (figured.deltas hash ?_)
    have left : hash ∈ (tracked.pool.removeStaged crypto stage).hashes crypto := present
    rw [hashes] at left
    exact (Finset.mem_sdiff.mp left).1

/-! ### A fee is adjusted -/

theorem modifyEach_updateFeeDelta {delta nFeeDelta : Word}
    (difference : delta - (stats hash).feeDelta = nFeeDelta) (other : T.Hash) :
    let changed := modifyEach [hash] (fun entry => entry.updateFeeDelta delta) stats other
    let down := if other = hash then descendantFee nFeeDelta else 0
    let up := if other = hash then ancestorFee nFeeDelta else 0
    changed.withDescendants = (stats other).withDescendants + down ∧
      changed.descendantFigures = (stats other).descendantFigures + down ∧
      changed.withAncestors = (stats other).withAncestors + up ∧
      changed.ancestorFigures = (stats other).ancestorFigures + up ∧
      changed.feeDelta = if other = hash then delta else (stats other).feeDelta := by
  by_cases same : other = hash
  · subst same difference
    simp only [modifyEach, mem_singleton, if_true]
    refine ⟨rfl, funext fun figure => ?_, rfl, funext fun figure => ?_, rfl⟩ <;>
      cases figure <;> simp [updateFeeDelta, descendantFigures, descendantFee, ancestorFigures,
        ancestorFee, getModifiedFee, add_assoc]
  · simp [modifyEach, same]

variable (figured : tracked.Figured crypto)
include figured

theorem Figured.sums_prioritised
    (present : hash ∈ tracked.pool.hashes crypto) {delta nFeeDelta : Word}
    (difference : delta - (tracked.stats hash).feeDelta = nFeeDelta) :
    Sums (tracked.prioritisedStats crypto hash delta nFeeDelta) (tracked.pool.hashes crypto)
        (ReflTransGen (tracked.pool.Linked crypto)) ∧
      ∀ other, (tracked.prioritisedStats crypto hash delta nFeeDelta other).feeDelta =
        if other = hash then delta else (tracked.stats other).feeDelta := by
  have changed := modifyEach_updateFeeDelta difference
  have adjusted : Adjusted (modifyEach [hash]
    (fun entry => entry.updateFeeDelta delta) tracked.stats)
      (tracked.prioritisedStats crypto hash delta nFeeDelta) _ _ :=
    (adjusted_updateDescendantState (tracked.pool.calculateMemPoolAncestors crypto hash)
      (descendantFee nFeeDelta)).trans (adjusted_updateAncestorState _ (ancestorFee nFeeDelta))
  have above : ∀ other, other ∈ tracked.pool.calculateMemPoolAncestors crypto hash ↔
      other ≠ hash ∧ ReflTransGen (tracked.pool.Linked crypto) other hash := by
    intro other
    rw [mem_calculateMemPoolAncestors figured.consistent figured.sets]
    refine ⟨fun path => ⟨?_, path.to_reflTransGen⟩, fun path =>
      (transGen_iff_of_ne path.1).mpr path.2⟩
    rintro rfl
    exact figured.acyclic other path
  have below : ∀ other, other ∈ (tracked.pool.calculateDescendants crypto [] hash).erase hash ↔
      other ≠ hash ∧ swap (ReflTransGen (tracked.pool.Linked crypto)) other hash := fun other =>
    mem_descendants_erase figured.consistent present
  refine ⟨⟨fun other inside => ?_, fun other inside => ?_⟩, fun other => ?_⟩
  · refine eq_relSum_of_grow (descendantFee nFeeDelta) present .refl above (fun other => ?_)
      (figured.sums.descendants other inside) ?_
    · rw [adjusted.descendantFigures, (changed other).2.1]
    · rw [adjusted.descendants, (changed other).1, Pi.add_apply, Pi.zero_apply, add_zero]
  · refine eq_relSum_of_grow (ancestorFee nFeeDelta) present .refl below (fun other => ?_)
      (figured.sums.ancestors other inside) ?_
    · rw [adjusted.ancestorFigures, (changed other).2.2.2.1]
    · rw [adjusted.ancestors, (changed other).2.2.1, Pi.add_apply, Pi.zero_apply, zero_add]
  · rw [adjusted.feeDelta, (changed other).2.2.2.2]

/-- What is known of the fee of a transaction that is not in the pool may change. -/
theorem Figured.setDelta (absent : hash ∉ tracked.pool.hashes crypto) (delta : Word) :
    ({ tracked with mapDeltas := fun other => if other = hash then delta else
      tracked.mapDeltas other } : TrackedPool T).Figured crypto := by
  refine { figured with deltas := ?_ }
  intro other present
  have differs : other ≠ hash := fun same => absent (same ▸ present)
  exact (figured.deltas other present).trans (if_neg differs).symm

theorem Figured.prioritiseTransaction (hash : T.Hash)
    (nFeeDelta : Word) : (tracked.prioritiseTransaction crypto hash nFeeDelta).Figured crypto := by
  unfold TrackedPool.prioritiseTransaction
  cases found : tracked.pool.find crypto hash with
  | none =>
    exact figured.setDelta (find_eq_none_iff.mp found) _
  | some entry =>
    have present : hash ∈ tracked.pool.hashes crypto := by
      rw [← find_isSome_iff, found]
      rfl
    have difference :
        tracked.mapDeltas hash + nFeeDelta - (tracked.stats hash).feeDelta = nFeeDelta := by
      rw [figured.deltas hash present, add_sub_cancel_left]
    obtain ⟨sums, deltas⟩ := figured.sums_prioritised present difference
    refine { figured with sums := sums, deltas := ?_ }
    intro other inside
    refine (deltas other).trans ?_
    rw [figured.deltas other inside]

end TrackedPool

end MooncoinFormal.Mempool
