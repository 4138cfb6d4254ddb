import Mathlib
import MooncoinFormal.Library.Worklist
import MooncoinFormal.Mweb.Validate
import MooncoinFormal.Primitives.Hashing

/-!
# The pool of unconfirmed transactions

`txmempool.h` and `txmempool.cpp`: the entries with their links to parents and
children, the map from what is spent to the transaction that spends it, and the map
from MWEB outputs to the transaction that creates them. Fees, sizes and the figures
kept for packages are left out. Sets are lists, whose order no function depends on.

The maps and links are redundant. A pool is consistent when they are what its
transactions say, and adding and removing transactions keeps it so.
-/

namespace MooncoinFormal.Primitives

variable {T : CryptoTypes}

/-- `OutputIndex`: an outpoint, or the ID of an MWEB output. -/
abbrev OutputIndex (T : CryptoTypes) := COutPoint T ⊕ T.Hash

namespace CTransaction

variable (crypto : BlockCrypto T) (tx : CTransaction T)

def getSpentIDs : List T.Hash :=
  match tx.mwebTx with
  | none => []
  | some mwebTx => mwebTx.body.getSpentIDs.dedup

def getKernelIDs : List T.Hash :=
  match tx.mwebTx with
  | none => []
  | some mwebTx => (mwebTx.body.getKernelIDs crypto.toCrypto).dedup

def getOutputIDs : List T.Hash :=
  match tx.mwebTx with
  | none => []
  | some mwebTx => mwebTx.body.getOutputIDs crypto.toCrypto

/-- `CTransaction::GetInputs`, by what they spend. -/
def getInputs : List (OutputIndex T) :=
  tx.vin.map (fun txin => .inl txin.prevout) ++ tx.getSpentIDs.map .inr

/-- `CTransaction::GetOutputs`, by their index. -/
def getOutputs : List (OutputIndex T) :=
  (List.range tx.vout.length).map (fun n => .inl ⟨tx.getHash crypto, UInt32.ofNat n⟩) ++
    (tx.getOutputIDs crypto).map .inr

end CTransaction

end MooncoinFormal.Primitives

namespace MooncoinFormal.Mempool

open Primitives CTransaction List

variable {T : CryptoTypes}

/-! ## Entries and maps -/

structure CTxMemPoolEntry (T : CryptoTypes) where
  tx : CTransaction T
  parents : List T.Hash
  children : List T.Hash

open CTxMemPoolEntry

structure CTxMemPool (T : CryptoTypes) where
  mapTx : List (CTxMemPoolEntry T)
  mapNextTx : AList fun _ : OutputIndex T => CTransaction T
  mapTxOutputsMweb : AList fun _ : T.Hash => CTransaction T

/-- `std::map::insert`, which keeps what is there. -/
def insertNew {Key Value : Type} [DecidableEq Key] (value : Value)
    (map : AList fun _ : Key => Value) (key : Key) : AList fun _ : Key => Value :=
  if key ∈ map then map else map.insert key value

namespace CTxMemPool

def empty : CTxMemPool T := ⟨[], ∅, ∅⟩

variable (crypto : BlockCrypto T) (pool : CTxMemPool T)

def txs : List (CTransaction T) := pool.mapTx.map tx

variable (hash : T.Hash)

def find : Option (CTxMemPoolEntry T) :=
  pool.mapTx.find? fun entry => entry.tx.getHash crypto = hash

variable (tx : CTransaction T)

/-- The parents that `addUnchecked` collects, in the pool or not. -/
def parentTransactions : List T.Hash :=
  tx.getInputs.filterMap fun input =>
    match input with
    | .inl prevout => some prevout.hash
    | .inr outputId => (pool.mapTxOutputsMweb.lookup outputId).map (getHash crypto)

def parentsInPool : List T.Hash :=
  ((pool.parentTransactions crypto tx).filter fun parent => (pool.find crypto parent).isSome).dedup

/-- `UpdateChild`, where the entry is among the parents. -/
def adopted (parents : List T.Hash) (child : T.Hash) (entry : CTxMemPoolEntry T) :
    CTxMemPoolEntry T :=
  if entry.tx.getHash crypto ∈ parents then { entry with children := entry.children.insert child }
  else entry

/-- `addUnchecked`, for a transaction that is not in the pool. -/
def addUnchecked : CTxMemPool T :=
  let parents := pool.parentsInPool crypto tx
  { mapTx := pool.mapTx.map (adopted crypto parents (tx.getHash crypto)) ++ [⟨tx, parents, []⟩]
    mapNextTx := tx.getInputs.foldl (insertNew tx) pool.mapNextTx
    mapTxOutputsMweb := (tx.getOutputIDs crypto).foldl (insertNew tx) pool.mapTxOutputsMweb }

def removeUnchecked : CTxMemPool T :=
  match pool.find crypto hash with
  | none => pool
  | some entry =>
    { mapTx := pool.mapTx.filter fun other => other.tx.getHash crypto ≠ hash
      mapNextTx := entry.tx.getInputs.foldl (fun map input => map.erase input) pool.mapNextTx
      mapTxOutputsMweb :=
        (entry.tx.getOutputIDs crypto).foldl (fun map id => map.erase id) pool.mapTxOutputsMweb }

def linksBack (links : CTxMemPoolEntry T → List T.Hash) (entry : CTxMemPoolEntry T)
    (hash : T.Hash) : Bool :=
  pool.mapTx.any fun other =>
    decide (other.tx.getHash crypto = hash) && decide (entry.tx.getHash crypto ∈ links other)

variable (stage : List T.Hash)

/-- The entry without its links to entries that go, as those link back to it. -/
def severed (entry : CTxMemPoolEntry T) : CTxMemPoolEntry T :=
  { entry with
    children := entry.children.filter fun child =>
      !(decide (child ∈ stage) && pool.linksBack crypto parents entry child)
    parents := entry.parents.filter fun parent =>
      !(decide (parent ∈ stage) && pool.linksBack crypto children entry parent) }

/-- `UpdateForRemoveFromMempool`: an entry that goes is taken out of the children of
its parents and out of the parents of its children. -/
def updateForRemoveFromMempool : CTxMemPool T :=
  { pool with mapTx := pool.mapTx.map (pool.severed crypto stage) }

def removeStaged : CTxMemPool T :=
  stage.foldl (removeUnchecked crypto) (pool.updateForRemoveFromMempool crypto stage)

def getMemPoolChildren : List T.Hash :=
  match pool.find crypto hash with
  | none => []
  | some entry => entry.children

/-- `CalculateDescendants`; each entry is visited at most once. -/
def calculateDescendants (setDescendants : List T.Hash) (hash : T.Hash) : List T.Hash :=
  Library.Worklist.close (pool.getMemPoolChildren crypto) pool.mapTx.length
    (if hash ∈ setDescendants then [] else [hash]) setDescendants

def removeRecursive (origTx : CTransaction T) : CTxMemPool T :=
  let txToRemove :=
    match pool.find crypto (origTx.getHash crypto) with
    | some _ => [origTx.getHash crypto]
    | none =>
      -- The children are removed although the transaction is not in the pool.
      (((origTx.getOutputs crypto).filterMap fun output => pool.mapNextTx.lookup output).map
        (getHash crypto)).dedup
  pool.removeStaged crypto (txToRemove.foldl (pool.calculateDescendants crypto) [])

/-- One pass of the loop of `removeConflicts`. -/
def removeConflict (input : OutputIndex T) : CTxMemPool T :=
  match pool.mapNextTx.lookup input with
  | none => pool
  | some txConflict =>
    if txConflict.getHash crypto ≠ tx.getHash crypto then pool.removeRecursive crypto txConflict
    else pool

def removeConflicts : CTxMemPool T :=
  tx.getInputs.foldl (fun pool input => pool.removeConflict crypto tx input) pool

/-- Each transaction is under its own hash, and what it spends is its own. -/
structure MapsConsistent : Prop where
  nodup : (pool.txs.map (getHash crypto)).Nodup
  next : ∀ input tx, pool.mapNextTx.lookup input = some tx ↔ tx ∈ pool.txs ∧ input ∈ tx.getInputs

/-- The links lead to entries of the pool, and each is recorded on both sides. -/
structure LinksConsistent : Prop where
  children : ∀ entry ∈ pool.mapTx, ∀ hash, hash ∈ entry.children ↔
    ∃ child ∈ pool.mapTx, child.tx.getHash crypto = hash ∧
      entry.tx.getHash crypto ∈ child.parents
  parents : ∀ entry ∈ pool.mapTx, ∀ hash ∈ entry.parents,
    ∃ parent ∈ pool.mapTx, parent.tx.getHash crypto = hash

structure Consistent : Prop where
  maps : pool.MapsConsistent crypto
  links : pool.LinksConsistent crypto

end CTxMemPool

section Maps

variable {Key Value : Type} [DecidableEq Key]

theorem lookup_foldl_erase (keys : List Key) (map : AList fun _ : Key => Value) (key : Key) :
    (keys.foldl (fun map key => map.erase key) map).lookup key =
      if key ∈ keys then none else map.lookup key := by
  induction keys generalizing map with
  | nil => rfl
  | cons first rest ih =>
    rw [foldl_cons, ih]
    by_cases later : key ∈ rest
    · rw [if_pos later, if_pos (mem_cons_of_mem _ later)]
    · rw [if_neg later]
      by_cases same : key = first
      · subst same
        rw [AList.lookup_erase, if_pos mem_cons_self]
      · rw [AList.lookup_erase_ne same, if_neg (by simp [same, later])]

theorem lookup_foldl_insertNew (value : Value) (keys : List Key) (map : AList fun _ : Key => Value)
    (fresh : ∀ key ∈ keys, map.lookup key = none ∨ map.lookup key = some value) (key : Key) :
    (keys.foldl (insertNew value) map).lookup key =
      if key ∈ keys then some value else map.lookup key := by
  induction keys generalizing map with
  | nil => rfl
  | cons first rest ih =>
    -- The first key has the value after the insertion, old or new.
    have inserted : ∀ other, (insertNew value map first).lookup other =
        if other = first then some value else map.lookup other := by
      intro other
      rw [insertNew]
      split
      · rename_i known
        split
        · rename_i same
          subst same
          exact (fresh other mem_cons_self).resolve_left fun absent =>
            AList.lookup_eq_none.mp absent known
        · rfl
      · split
        · rename_i same
          subst same
          exact AList.lookup_insert _
        · next differs => exact AList.lookup_insert_ne differs
    rw [foldl_cons, ih]
    · rw [inserted]
      by_cases later : key ∈ rest
      · rw [if_pos later, if_pos (mem_cons_of_mem _ later)]
      · by_cases same : key = first
        · rw [if_neg later, if_pos same, if_pos (by simp [same])]
        · rw [if_neg later, if_neg same, if_neg (by simp [same, later])]
    · intro other later
      rw [inserted]
      split
      · exact .inr rfl
      · exact fresh other (mem_cons_of_mem _ later)

end Maps

variable {entry : CTxMemPoolEntry T} {hash : T.Hash} {tx : CTransaction T}

namespace CTxMemPool

variable {crypto : BlockCrypto T} {pool : CTxMemPool T}

section

variable (consistent : pool.MapsConsistent crypto)
include consistent

theorem MapsConsistent.hash_inj {other : CTransaction T}
    (here : tx ∈ pool.txs) (there : other ∈ pool.txs)
    (same : tx.getHash crypto = other.getHash crypto) : tx = other :=
  inj_on_of_nodup_map consistent.nodup here there same

theorem MapsConsistent.entry_inj
    {other : CTxMemPoolEntry T} (here : entry ∈ pool.mapTx) (there : other ∈ pool.mapTx)
    (same : entry.tx.getHash crypto = other.tx.getHash crypto) : entry = other := by
  have nodup := consistent.nodup
  rw [txs, map_map] at nodup
  exact inj_on_of_nodup_map nodup here there same

theorem find_eq_some :
    pool.find crypto hash = some entry ↔ entry ∈ pool.mapTx ∧ entry.tx.getHash crypto = hash := by
  constructor
  · intro found
    exact ⟨mem_of_find?_eq_some found, by simpa using find?_some found⟩
  · rintro ⟨member, rfl⟩
    cases found : pool.find crypto (entry.tx.getHash crypto) with
    | none =>
      have missing := find?_eq_none.mp found entry member
      simp at missing
    | some other =>
      have there := mem_of_find?_eq_some found
      have same : other.tx.getHash crypto = entry.tx.getHash crypto := by
        simpa using find?_some found
      rw [consistent.entry_inj there member same]

end

theorem find_eq_none :
    pool.find crypto hash = none ↔ ∀ tx ∈ pool.txs, tx.getHash crypto ≠ hash := by
  simp [find, txs]

section

variable (consistent : pool.MapsConsistent crypto)
include consistent

theorem mem_getMemPoolChildren {parent child : T.Hash} :
    child ∈ pool.getMemPoolChildren crypto parent ↔
      ∃ entry ∈ pool.mapTx, entry.tx.getHash crypto = parent ∧ child ∈ entry.children := by
  rw [getMemPoolChildren]
  cases found : pool.find crypto parent with
  | none =>
    have missing := find_eq_none.mp found
    constructor
    · intro untrue
      cases untrue
    · rintro ⟨entry, member, same, -⟩
      exact absurd same (missing entry.tx (mem_map_of_mem member))
  | some entry =>
    obtain ⟨member, hash⟩ := (find_eq_some consistent).mp found
    constructor
    · intro linked
      exact ⟨entry, member, hash, linked⟩
    · rintro ⟨other, there, same, linked⟩
      rwa [consistent.entry_inj member there (hash.trans same.symm)]

/-! ## Removing -/

theorem MapsConsistent.congr {pool' : CTxMemPool T} (txs : pool'.txs = pool.txs)
    (next : pool'.mapNextTx = pool.mapNextTx) : pool'.MapsConsistent crypto :=
  ⟨txs ▸ consistent.nodup, fun input tx => by rw [next, txs, consistent.next]⟩

omit consistent in
theorem mem_txs_filter {pool' : CTxMemPool T} (stays : T.Hash → Bool)
    (left : pool'.mapTx = pool.mapTx.filter fun entry => stays (entry.tx.getHash crypto)) :
    tx ∈ pool'.txs ↔ tx ∈ pool.txs ∧ stays (tx.getHash crypto) = true := by
  have kept : pool'.txs = pool.txs.filter fun tx => stays (tx.getHash crypto) := by
    rw [txs, left, txs, filter_map]
    rfl
  rw [kept, mem_filter]

theorem removeUnchecked_maps (hash : T.Hash) :
    (pool.removeUnchecked crypto hash).MapsConsistent crypto ∧
      (pool.removeUnchecked crypto hash).mapTx =
        pool.mapTx.filter fun entry => entry.tx.getHash crypto ≠ hash := by
  rw [removeUnchecked]
  cases found : pool.find crypto hash with
  | none =>
    refine ⟨consistent, ?_⟩
    have missing := find_eq_none.mp found
    symm
    rw [filter_eq_self]
    intro entry member
    simpa using missing entry.tx (mem_map_of_mem member)
  | some entry =>
    obtain ⟨member, rfl⟩ := (find_eq_some consistent).mp found
    have present : entry.tx ∈ pool.txs := mem_map_of_mem member
    refine ⟨⟨?_, ?_⟩, rfl⟩
    · exact consistent.nodup.sublist ((filter_sublist.map _).map _)
    · intro input tx
      rw [lookup_foldl_erase, mem_txs_filter (· ≠ entry.tx.getHash crypto) rfl, decide_eq_true_eq]
      by_cases spent : input ∈ entry.tx.getInputs
      · -- The input was spent by the removed transaction and by no other.
        rw [if_pos spent]
        constructor
        · intro untrue
          cases untrue
        · rintro ⟨⟨there, differs⟩, spends⟩
          have held := (consistent.next input entry.tx).mpr ⟨present, spent⟩
          rw [(consistent.next input tx).mpr ⟨there, spends⟩, Option.some.injEq] at held
          exact absurd (congrArg _ held) differs
      · rw [if_neg spent, consistent.next]
        constructor
        · rintro ⟨there, spends⟩
          refine ⟨⟨there, fun same => ?_⟩, spends⟩
          exact spent (consistent.hash_inj there present same ▸ spends)
        · rintro ⟨⟨there, -⟩, spends⟩
          exact ⟨there, spends⟩

theorem foldl_removeUnchecked_maps (stage : List T.Hash) :
    (stage.foldl (removeUnchecked crypto) pool).MapsConsistent crypto ∧
      (stage.foldl (removeUnchecked crypto) pool).mapTx =
        pool.mapTx.filter fun entry => entry.tx.getHash crypto ∉ stage := by
  induction stage generalizing pool with
  | nil => simpa using consistent
  | cons hash rest ih =>
    obtain ⟨removed, left⟩ := removeUnchecked_maps consistent hash
    obtain ⟨removedRest, leftRest⟩ := ih removed
    refine ⟨removedRest, ?_⟩
    rw [foldl_cons, leftRest, left, filter_filter]
    refine filter_congr fun entry _ => ?_
    simp [Bool.and_comm]

end

theorem mem_severed (consistent : pool.Consistent crypto) (member : entry ∈ pool.mapTx)
    (stage : List T.Hash) (hash : T.Hash) :
    (hash ∈ (pool.severed crypto stage entry).children ↔ hash ∈ entry.children ∧ hash ∉ stage) ∧
      (hash ∈ (pool.severed crypto stage entry).parents ↔ hash ∈ entry.parents ∧ hash ∉ stage) := by
  have childBack : hash ∈ entry.children → pool.linksBack crypto parents entry hash = true := by
    intro linked
    obtain ⟨other, there, same, back⟩ := (consistent.links.children entry member hash).mp linked
    exact any_eq_true.mpr ⟨other, there, by simp [same, back]⟩
  have parentBack : hash ∈ entry.parents → pool.linksBack crypto children entry hash = true := by
    intro linked
    obtain ⟨other, there, same⟩ := consistent.links.parents entry member hash linked
    have back : entry.tx.getHash crypto ∈ other.children :=
      (consistent.links.children other there _).mpr ⟨entry, member, rfl, same ▸ linked⟩
    exact any_eq_true.mpr ⟨other, there, by simp [same, back]⟩
  constructor
  · rw [severed, mem_filter]
    refine and_congr_right fun linked => ?_
    simp [childBack linked]
  · rw [severed, mem_filter]
    refine and_congr_right fun linked => ?_
    simp [parentBack linked]

structure Removed (crypto : BlockCrypto T) (stage : List T.Hash)
    (pool pool' : CTxMemPool T) : Prop where
  consistent : pool'.Consistent crypto
  mem_txs : ∀ tx, tx ∈ pool'.txs ↔ tx ∈ pool.txs ∧ tx.getHash crypto ∉ stage
  mem_children : ∀ parent child, parent ∉ stage →
    (child ∈ pool'.getMemPoolChildren crypto parent ↔
      child ∈ pool.getMemPoolChildren crypto parent ∧ child ∉ stage)

theorem txs_updateForRemoveFromMempool (stage : List T.Hash) :
    (pool.updateForRemoveFromMempool crypto stage).txs = pool.txs := by
  simp only [txs, updateForRemoveFromMempool, map_map]
  rfl

theorem removeStaged_spec (consistent : pool.Consistent crypto) (stage : List T.Hash) :
    Removed crypto stage pool (pool.removeStaged crypto stage) := by
  have sameTxs := @txs_updateForRemoveFromMempool T crypto pool stage
  obtain ⟨maps, left⟩ := foldl_removeUnchecked_maps (consistent.maps.congr sameTxs rfl) stage
  rw [← removeStaged] at maps left
  have mem_mapTx : ∀ entry', entry' ∈ (pool.removeStaged crypto stage).mapTx ↔
      ∃ entry ∈ pool.mapTx, entry.tx.getHash crypto ∉ stage ∧
        pool.severed crypto stage entry = entry' := by
    intro entry'
    rw [left, updateForRemoveFromMempool, mem_filter, mem_map]
    constructor
    · rintro ⟨⟨entry, member, rfl⟩, stays⟩
      exact ⟨entry, member, of_decide_eq_true stays, rfl⟩
    · rintro ⟨entry, member, stays, rfl⟩
      exact ⟨⟨entry, member, rfl⟩, decide_eq_true stays⟩
  refine ⟨⟨maps, ?_, ?_⟩, ?_, ?_⟩
  · intro entry' member' hash
    obtain ⟨entry, member, stays, rfl⟩ := (mem_mapTx entry').mp member'
    rw [(mem_severed consistent member stage hash).1, consistent.links.children entry member]
    constructor
    · rintro ⟨⟨child, there, rfl, back⟩, goes⟩
      exact ⟨_, (mem_mapTx _).mpr ⟨child, there, goes, rfl⟩, rfl,
        (mem_severed consistent there stage _).2.mpr ⟨back, stays⟩⟩
    · rintro ⟨child', there', same, back⟩
      obtain ⟨child, there, goes, rfl⟩ := (mem_mapTx child').mp there'
      exact ⟨⟨child, there, same, ((mem_severed consistent there stage _).2.mp back).1⟩,
        fun staged => goes (same ▸ staged)⟩
  · intro entry' member' hash linked
    obtain ⟨entry, member, -, rfl⟩ := (mem_mapTx entry').mp member'
    obtain ⟨linked, goes⟩ := (mem_severed consistent member stage hash).2.mp linked
    obtain ⟨parent, there, rfl⟩ := consistent.links.parents entry member hash linked
    exact ⟨_, (mem_mapTx _).mpr ⟨parent, there, goes, rfl⟩, rfl⟩
  · intro tx
    rw [mem_txs_filter (· ∉ stage) left, sameTxs, decide_eq_true_eq]
  · intro parent child stays
    rw [mem_getMemPoolChildren maps, mem_getMemPoolChildren consistent.maps]
    constructor
    · rintro ⟨entry', member', same, linked⟩
      obtain ⟨entry, member, -, rfl⟩ := (mem_mapTx entry').mp member'
      obtain ⟨linked, goes⟩ := (mem_severed consistent member stage child).1.mp linked
      exact ⟨⟨entry, member, same, linked⟩, goes⟩
    · rintro ⟨⟨entry, member, rfl, linked⟩, goes⟩
      exact ⟨_, (mem_mapTx _).mpr ⟨entry, member, stays, rfl⟩, rfl,
        (mem_severed consistent member stage child).1.mpr ⟨linked, goes⟩⟩

/-! ## Adding -/

theorem consistent_empty : (empty : CTxMemPool T).Consistent crypto := by
  refine ⟨⟨nodup_nil, ?_⟩, ?_, ?_⟩
  · intro input tx
    simp [empty, txs]
  · intro entry member
    cases member
  · intro entry member
    cases member

theorem adopted_tx (parents : List T.Hash) (child : T.Hash) (entry : CTxMemPoolEntry T) :
    (adopted crypto parents child entry).tx = entry.tx ∧
      (adopted crypto parents child entry).parents = entry.parents := by
  unfold adopted
  split <;> exact ⟨rfl, rfl⟩

theorem mem_adopted_children {parents : List T.Hash} {child : T.Hash} :
    hash ∈ (adopted crypto parents child entry).children ↔
      hash ∈ entry.children ∨ (hash = child ∧ entry.tx.getHash crypto ∈ parents) := by
  unfold adopted
  split
  · next listed => simp [listed, or_comm]
  · next unlisted => simp [unlisted]

theorem find_of_mem_parentsInPool (listed : hash ∈ pool.parentsInPool crypto tx) :
    pool.find crypto hash ≠ none := by
  rw [parentsInPool, mem_dedup, mem_filter] at listed
  exact Option.ne_none_iff_isSome.mpr listed.2

theorem txs_addUnchecked (tx : CTransaction T) :
    (pool.addUnchecked crypto tx).txs = pool.txs ++ [tx] := by
  simp only [txs, addUnchecked, map_append, map_map]
  congr 1
  exact map_congr_left fun entry _ => (adopted_tx _ _ entry).1

theorem addUnchecked_maps (consistent : pool.MapsConsistent crypto)
    (new : pool.find crypto (tx.getHash crypto) = none)
    (unspent : ∀ input ∈ tx.getInputs, pool.mapNextTx.lookup input = none) :
    (pool.addUnchecked crypto tx).MapsConsistent crypto := by
  refine ⟨?_, ?_⟩
  · rw [txs_addUnchecked, map_append]
    refine consistent.nodup.append (nodup_singleton _) ?_
    intro hash old single
    obtain ⟨other, there, rfl⟩ := mem_map.mp old
    exact find_eq_none.mp new other there (mem_singleton.mp single)
  · intro input other
    rw [txs_addUnchecked, addUnchecked,
      lookup_foldl_insertNew tx _ _ fun input spent => .inl (unspent input spent)]
    by_cases spent : input ∈ tx.getInputs
    · rw [if_pos spent]
      constructor
      · intro same
        cases same
        exact ⟨by simp, spent⟩
      · rintro ⟨there, spends⟩
        obtain old | last := mem_append.mp there
        · have held := (consistent.next input other).mpr ⟨old, spends⟩
          rw [unspent input spent] at held
          cases held
        · rw [mem_singleton.mp last]
    · rw [if_neg spent, consistent.next]
      constructor
      · rintro ⟨there, spends⟩
        exact ⟨mem_append_left _ there, spends⟩
      · rintro ⟨there, spends⟩
        obtain old | last := mem_append.mp there
        · exact ⟨old, spends⟩
        · exact absurd (mem_singleton.mp last ▸ spends) spent

/-- A transaction under a new hash, of which no input is spent in the pool, joins
consistently. -/
theorem addUnchecked_consistent (consistent : pool.Consistent crypto)
    (new : pool.find crypto (tx.getHash crypto) = none)
    (unspent : ∀ input ∈ tx.getInputs, pool.mapNextTx.lookup input = none) :
    (pool.addUnchecked crypto tx).Consistent crypto := by
  have absent := find_eq_none.mp new
  have mem_mapTx : ∀ entry', entry' ∈ (pool.addUnchecked crypto tx).mapTx ↔
      (∃ entry ∈ pool.mapTx,
        adopted crypto (pool.parentsInPool crypto tx) (tx.getHash crypto) entry = entry') ∨
        entry' = ⟨tx, pool.parentsInPool crypto tx, []⟩ := by
    intro entry'
    rw [addUnchecked, mem_append, mem_map, mem_singleton]
  -- No entry has the new transaction among its parents.
  have childless : ∀ entry ∈ pool.mapTx, tx.getHash crypto ∉ entry.parents := by
    intro entry member linked
    obtain ⟨parent, there, same⟩ := consistent.links.parents entry member _ linked
    exact absent parent.tx (mem_map_of_mem there) same
  refine ⟨addUnchecked_maps consistent.maps new unspent, ?_, ?_⟩
  · intro entry' member' hash
    obtain ⟨entry, member, rfl⟩ | rfl := (mem_mapTx entry').mp member'
    · rw [mem_adopted_children, consistent.links.children entry member, (adopted_tx _ _ entry).1]
      constructor
      · rintro (⟨child, there, same, back⟩ | ⟨rfl, listed⟩)
        · refine ⟨_, (mem_mapTx _).mpr (.inl ⟨child, there, rfl⟩), ?_, ?_⟩
          · rwa [(adopted_tx _ _ child).1]
          · rwa [(adopted_tx _ _ child).2]
        · exact ⟨_, (mem_mapTx _).mpr (.inr rfl), rfl, listed⟩
      · rintro ⟨child', there', same, back⟩
        obtain ⟨child, there, rfl⟩ | rfl := (mem_mapTx child').mp there'
        · rw [(adopted_tx _ _ child).1] at same
          rw [(adopted_tx _ _ child).2] at back
          exact .inl ⟨child, there, same, back⟩
        · exact .inr ⟨same.symm, back⟩
    · constructor
      · intro untrue
        cases untrue
      · rintro ⟨child', there', -, back⟩
        obtain ⟨child, there, rfl⟩ | rfl := (mem_mapTx child').mp there'
        · rw [(adopted_tx _ _ child).2] at back
          exact absurd back (childless child there)
        · exact absurd new (find_of_mem_parentsInPool back)
  · intro entry' member' hash linked
    have inPool : ∃ parent ∈ pool.mapTx, parent.tx.getHash crypto = hash := by
      obtain ⟨entry, member, rfl⟩ | rfl := (mem_mapTx entry').mp member'
      · rw [(adopted_tx _ _ entry).2] at linked
        exact consistent.links.parents entry member hash linked
      · obtain ⟨parent, found⟩ := Option.ne_none_iff_exists'.mp (find_of_mem_parentsInPool linked)
        exact ⟨parent, (find_eq_some consistent.maps).mp found⟩
    obtain ⟨parent, there, same⟩ := inPool
    refine ⟨_, (mem_mapTx _).mpr (.inl ⟨parent, there, rfl⟩), ?_⟩
    rwa [(adopted_tx _ _ parent).1]

/-! ## Descendants -/

/-- The entry of the second hash descends from that of the first. -/
def Descends (crypto : BlockCrypto T) (pool : CTxMemPool T) : T.Hash → T.Hash → Prop :=
  Relation.ReflTransGen fun parent child => child ∈ pool.getMemPoolChildren crypto parent

theorem children_inside (consistent : pool.Consistent crypto) (parent : T.Hash) :
    pool.getMemPoolChildren crypto parent ⊆ pool.txs.map (getHash crypto) := by
  intro child linked
  obtain ⟨entry, member, -, linked⟩ := (mem_getMemPoolChildren consistent.maps).mp linked
  obtain ⟨other, there, rfl, -⟩ := (consistent.links.children entry member child).mp linked
  exact mem_map_of_mem (mem_map_of_mem there)

/-- Different hashes of the pool, with all their descendants. -/
structure ClosedSet (crypto : BlockCrypto T) (pool : CTxMemPool T)
    (hashes : List T.Hash) : Prop where
  nodup : hashes.Nodup
  inside : hashes ⊆ pool.txs.map (getHash crypto)
  closed : ∀ hash ∈ hashes, ∀ child ∈ pool.getMemPoolChildren crypto hash, child ∈ hashes

theorem closedSet_nil : ClosedSet crypto pool [] :=
  ⟨nodup_nil, nil_subset _, fun _ untrue => nomatch untrue⟩

variable (consistent : pool.Consistent crypto)
include consistent

theorem Descends.inside {target : T.Hash} (present : hash ∈ pool.txs.map (getHash crypto))
    (path : pool.Descends crypto hash target) : target ∈ pool.txs.map (getHash crypto) := by
  induction path with
  | refl => exact present
  | tail _ linked _ => exact children_inside consistent _ linked

/-- `CalculateDescendants` adds the descendants to a closed set. -/
theorem ClosedSet.calculateDescendants {setDescendants : List T.Hash}
    (set : ClosedSet crypto pool setDescendants) (present : hash ∈ pool.txs.map (getHash crypto)) :
    ClosedSet crypto pool (pool.calculateDescendants crypto setDescendants hash) ∧
      ∀ target, target ∈ pool.calculateDescendants crypto setDescendants hash ↔
        target ∈ setDescendants ∨ pool.Descends crypto hash target := by
  have apart : Library.Worklist.Apart (if hash ∈ setDescendants then [] else [hash])
      setDescendants := by
    split
    · exact ⟨nodup_nil, nofun⟩
    · refine ⟨nodup_singleton _, fun item single => ?_⟩
      rwa [mem_singleton.mp single]
  have stage_inside : (if hash ∈ setDescendants then [] else [hash]) ⊆ pool.txs.map
      (getHash crypto) := by
    split <;> simp [present]
  obtain ⟨nodup, found⟩ := Library.Worklist.close_spec apart set.nodup stage_inside set.inside
    (fun item known child linked => .inl (set.closed item known child linked))
    (fun parent _ => children_inside consistent parent)
    (show _ ≤ pool.mapTx.length + _ by simp [txs])
  have mem : ∀ target, target ∈ pool.calculateDescendants crypto setDescendants hash ↔
      target ∈ setDescendants ∨ pool.Descends crypto hash target := by
    intro target
    rw [CTxMemPool.calculateDescendants, found]
    constructor
    · rintro ⟨start, listed, path⟩
      obtain known | staged := mem_append.mp listed
      · -- What descends from a member of a closed set is a member.
        left
        induction path with
        | refl => exact known
        | tail _ linked ih => exact set.closed _ ih _ linked
      · split at staged
        · cases staged
        · exact .inr (mem_singleton.mp staged ▸ path)
    · rintro (old | path)
      · exact ⟨target, mem_append_left _ old, .refl⟩
      · refine ⟨hash, mem_append.mpr ?_, path⟩
        split
        · exact .inl ‹_›
        · exact .inr (mem_singleton_self _)
  refine ⟨⟨nodup, ?_, ?_⟩, mem⟩
  · intro target listed
    obtain old | path := (mem target).mp listed
    · exact set.inside old
    · exact path.inside consistent present
  · intro item listed child linked
    rw [mem] at listed ⊢
    obtain old | path := listed
    · exact .inl (set.closed item old child linked)
    · exact .inr (path.tail linked)

theorem removeRecursive_spec (present : tx ∈ pool.txs) :
    ∃ stage, Removed crypto stage pool (pool.removeRecursive crypto tx) ∧
      ∀ hash, hash ∈ stage ↔ pool.Descends crypto (tx.getHash crypto) hash := by
  obtain ⟨-, mem⟩ := closedSet_nil.calculateDescendants consistent (mem_map_of_mem present)
  obtain ⟨entry, member, rfl⟩ := mem_map.mp present
  have found := (find_eq_some consistent.maps).mpr ⟨member, rfl⟩
  refine ⟨_, ?_, fun hash => (mem hash).trans (or_iff_right not_mem_nil)⟩
  rw [removeRecursive, found]
  exact removeStaged_spec consistent _

end CTxMemPool

end MooncoinFormal.Mempool
