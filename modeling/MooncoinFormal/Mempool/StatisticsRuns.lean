import MooncoinFormal.Mempool.ReorgSums

/-!
# The figures along a run

Links and figures after any sequence of admissions, removals, adjustments of fees and
reorganisations. Between two events the links are the spending between entries, and
the figures are the sums over the transactions that depend on an entry and over those
it depends on.

A step keeps this when it is orderly. A transaction that joins has outputs that no
entry has or spends yet; in a reorganisation only entries that were there before may
spend them. A transaction that leaves with a block has no parent in the pool. The
last is not so when `removeForBlock` takes the transactions of the extension block
from the pool: it goes through them in the order of a hash table.
-/

namespace MooncoinFormal.Mempool

open Primitives Relation List CTxMemPool

variable {T : CryptoTypes} {crypto : BlockCrypto T}

namespace CTxMemPool

/-- What the admission of a transaction relies on. -/
structure Joins (crypto : BlockCrypto T) (pool : CTxMemPool T) (tx : CTransaction T) : Prop where
  new : pool.find crypto (tx.getHash crypto) = none
  unspent : ∀ input ∈ tx.getInputs, pool.mapNextTx.lookup input = none
  existing : pool.InputsExist crypto tx
  apart : ∀ other ∈ pool.txs, ∀ id ∈ tx.getOutputIDs crypto, id ∉ other.getOutputIDs crypto
  foreign : ∀ input ∈ tx.getInputs, input ∉ tx.getOutputs crypto

def SpendsFrom (crypto : BlockCrypto T) (pool : CTxMemPool T) (tx : CTransaction T)
    (child : T.Hash) : Prop :=
  ∃ spender ∈ pool.txs, spender.getHash crypto = child ∧
    ∃ input ∈ spender.getInputs, input ∈ tx.getOutputs crypto

variable {pool : CTxMemPool T} {tx : CTransaction T}

theorem Joins.spends (joins : pool.Joins crypto tx) (owned : pool.OutputsOwned crypto)
    (parent child : T.Hash) :
    (pool.addUnchecked crypto tx).Spends crypto parent child ↔
      pool.Spends crypto parent child ∨
        (child = tx.getHash crypto ∧ parent ∈ pool.parentsInPool crypto tx) ∨
        (parent = tx.getHash crypto ∧ pool.SpendsFrom crypto tx child) := by
  rw [spends_addUnchecked joins.foreign, mem_parentsInPool owned joins.existing]
  rfl

theorem Spends.inside {parent child : T.Hash} (spends : pool.Spends crypto parent child) :
    parent ∈ pool.hashes crypto ∧ child ∈ pool.hashes crypto := by
  obtain ⟨creator, here, rfl, spender, there, rfl, -⟩ := spends
  exact ⟨mem_hashes_of_mem here, mem_hashes_of_mem there⟩

theorem SpendsFrom.inside {child : T.Hash}
    (spends : pool.SpendsFrom crypto tx child) : child ∈ pool.hashes crypto := by
  obtain ⟨spender, there, rfl, -⟩ := spends
  exact mem_hashes_of_mem there

end CTxMemPool

variable {state : TrackedPool T × List T.Hash}

namespace TrackedPool

variable {tracked : TrackedPool T} {readded : List T.Hash}

/-- The figures are right for the links, and the links are the spending between entries,
but for that from transactions that came back to entries that were there before. -/
structure Exact (crypto : BlockCrypto T) (tracked : TrackedPool T)
    (readded : List T.Hash) : Prop where
  figured : tracked.Figured crypto
  links : ∀ parent child, tracked.pool.Linked crypto parent child ↔
    tracked.pool.Spends crypto parent child ∧ (parent ∈ readded → child ∈ readded)
  back : tracked.pool.CameBack crypto readded

theorem figured_empty : (empty : TrackedPool T).Figured crypto where
  consistent := consistent_empty
  sets := ⟨nofun, nofun⟩
  owned := fun _ _ => ⟨nofun, nofun⟩
  acyclic := by
    intro node cycle
    obtain ⟨_, linked, -⟩ := TransGen.head'_iff.mp cycle
    cases linked
  sums := ⟨nofun, nofun⟩
  deltas := nofun

theorem exact_empty : (empty : TrackedPool T).Exact crypto [] where
  figured := figured_empty
  links := fun _ _ => ⟨nofun, nofun⟩
  back := cameBack_nil

/-- Without transactions that came back the links are the spending. -/
theorem Exact.linked_iff (exact : tracked.Exact crypto []) (parent child : T.Hash) :
    tracked.pool.Linked crypto parent child ↔ tracked.pool.Spends crypto parent child :=
  (exact.links parent child).trans (and_iff_left nofun)

/-! ## Admissions -/

variable {setAncestors : List T.Hash} {entry : NewEntry T}

theorem Exact.addUnchecked (exact : tracked.Exact crypto []) {limits : Limits}
    (joins : tracked.pool.Joins crypto entry.tx)
    (childless : ∀ child, ¬ tracked.pool.SpendsFrom crypto entry.tx child)
    (searched : tracked.searchAncestors crypto limits entry = .ok setAncestors) :
    (tracked.addUnchecked crypto entry setAncestors).Exact crypto [] := by
  have consistent := exact.figured.consistent
  refine ⟨exact.figured.addUnchecked joins.new joins.unspent joins.apart searched, ?_, cameBack_nil⟩
  intro parent child
  refine Iff.trans ?_ (and_iff_left nofun).symm
  refine (linked_addUnchecked consistent joins.new joins.unspent).trans ?_
  refine Iff.trans ?_ (joins.spends exact.figured.owned parent child).symm
  rw [exact.linked_iff]
  refine or_congr_right (or_iff_left ?_).symm
  rintro ⟨-, spends⟩
  exact childless child spends

theorem Exact.comeBack (exact : tracked.Exact crypto readded) {limits : Limits}
    (joins : tracked.pool.Joins crypto entry.tx) (fresh : entry.tx.getHash crypto ∉ readded)
    (parents : ∀ parent ∈ tracked.pool.parentsInPool crypto entry.tx, parent ∈ readded)
    (children : ∀ child, tracked.pool.SpendsFrom crypto entry.tx child → child ∉ readded)
    (searched : tracked.searchAncestors crypto limits entry = .ok setAncestors) :
    (tracked.addUnchecked crypto entry setAncestors).Exact crypto
      (readded ++ [entry.tx.getHash crypto]) := by
  have consistent := exact.figured.consistent
  have absent := find_eq_none_iff.mp joins.new
  have spends := joins.spends exact.figured.owned
  have listed : ∀ {hash : T.Hash}, hash ∈ readded ++ [entry.tx.getHash crypto] ↔
      hash ∈ readded ∨ hash = entry.tx.getHash crypto := fun {hash} => by simp
  have old : ∀ {hash : T.Hash}, hash ∈ tracked.pool.hashes crypto →
      hash ≠ entry.tx.getHash crypto := fun present same => absent (same ▸ present)
  refine ⟨exact.figured.addUnchecked joins.new joins.unspent joins.apart searched, ?_, ?_, ?_, ?_⟩
  · intro parent child
    refine (linked_addUnchecked consistent joins.new joins.unspent).trans ?_
    refine Iff.trans ?_ (and_congr_left' (spends parent child)).symm
    rw [exact.links, listed, listed]
    constructor
    · rintro (⟨spent, inside⟩ | ⟨rfl, bought⟩)
      · have differs := old spent.inside.1
        exact ⟨.inl spent, fun either => .inl (inside (either.resolve_right differs))⟩
      · exact ⟨.inr (.inl ⟨rfl, bought⟩), fun _ => .inr rfl⟩
    · rintro ⟨spent | ⟨rfl, bought⟩ | ⟨rfl, feeds⟩, inside⟩
      · have differs := old spent.inside.2
        exact .inl ⟨spent, fun there => (inside (.inl there)).resolve_right differs⟩
      · exact .inr ⟨rfl, bought⟩
      · obtain there | same := inside (.inr rfl)
        · exact absurd there (children child feeds)
        · exact absurd same (old feeds.inside)
  · intro parent child spent inside
    rw [listed] at inside ⊢
    obtain spent | ⟨rfl, bought⟩ | ⟨rfl, -⟩ := (spends parent child).mp spent
    · have differs := old spent.inside.2
      exact .inl (exact.back.above parent child spent (inside.resolve_right differs))
    · exact .inl (parents parent bought)
    · exact .inr rfl
  · exact nodup_append.mpr ⟨exact.back.nodup, nodup_singleton _, fun hash there other last
      same => fresh (mem_singleton.mp last ▸ same ▸ there)⟩
  · refine pairwise_append.mpr ⟨?_, pairwise_singleton _ _, ?_⟩
    · refine exact.back.ordered.imp_of_mem fun {earlier later} there later' unspent spent => ?_
      obtain spent | ⟨rfl, -⟩ | ⟨rfl, -⟩ := (spends later earlier).mp spent
      · exact unspent spent
      · exact fresh there
      · exact fresh later'
    · intro earlier there later last spent
      rw [mem_singleton.mp last] at spent
      obtain spent | ⟨rfl, -⟩ | ⟨-, feeds⟩ := (spends _ earlier).mp spent
      · exact old spent.inside.1 rfl
      · exact fresh there
      · exact children earlier feeds there

/-! ## Removals -/

theorem Exact.removeStaged (exact : tracked.Exact crypto readded) {stage : List T.Hash}
    (nodup : stage.Nodup) (inside : ∀ hash ∈ stage, hash ∈ tracked.pool.hashes crypto)
    {updateDescendants : Bool} (safe : tracked.MayLeave crypto stage updateDescendants) :
    (tracked.removeStaged crypto stage updateDescendants).Exact crypto readded := by
  have consistent := exact.figured.consistent
  refine ⟨exact.figured.removeStaged nodup inside safe, ?_, ?_⟩
  · intro parent child
    refine (linked_removeStaged consistent stage).trans ?_
    refine Iff.trans ?_ (and_congr_left' (spends_removeStaged consistent stage)).symm
    rw [exact.links]
    tauto
  · exact exact.back.mono fun parent child spends =>
      ((spends_removeStaged consistent stage).mp spends).1

theorem closedSet_withDescendants (consistent : tracked.pool.Consistent crypto)
    (roots : List T.Hash) :
    CTxMemPool.ClosedSet crypto tracked.pool (tracked.withDescendants crypto roots) ∧
      ∀ root ∈ roots, root ∈ tracked.pool.hashes crypto →
        root ∈ tracked.withDescendants crypto roots := by
  obtain ⟨set, mem⟩ := closedSet_nil.foldl_calculateDescendants consistent
    fun hash listed => mem_toFinset.mp (find_isSome_iff.mp (mem_filter.mp listed).2)
  refine ⟨set, fun root listed present => mem.mpr (.inr ⟨root, ?_, .refl⟩)⟩
  exact mem_filter.mpr ⟨listed, find_isSome_iff.mpr present⟩

section

variable (exact : tracked.Exact crypto readded)
include exact

theorem Exact.removeRecursive (roots : List T.Hash) :
    (tracked.removeRecursive crypto roots).Exact crypto readded := by
  have set := (closedSet_withDescendants exact.figured.consistent roots).1
  refine exact.removeStaged set.nodup (fun hash listed => mem_toFinset.mpr (set.inside listed))
    (.inl fun parent child linked listed => ?_)
  exact set.closed parent listed child linked

theorem Exact.clearPrioritisation {hash : T.Hash} (absent : hash ∉ tracked.pool.hashes crypto) :
    (tracked.clearPrioritisation hash).Exact crypto readded :=
  ⟨exact.figured.setDelta absent 0, exact.links, exact.back⟩

theorem Exact.removeConflict (hash : T.Hash) :
    (tracked.removeConflict crypto hash).Exact crypto readded := by
  have consistent := exact.figured.consistent
  refine (exact.removeRecursive [hash]).clearPrioritisation fun present => ?_
  have left : hash ∈ (tracked.pool.removeStaged crypto
      (tracked.withDescendants crypto [hash])).hashes crypto := present
  rw [hashes_removeStaged consistent, Finset.mem_sdiff, mem_toFinset] at left
  exact left.2 ((closedSet_withDescendants consistent [hash]).2 hash mem_cons_self left.1)

theorem Exact.removeForBlock {hash : T.Hash}
    (parentless : tracked.pool.getMemPoolParents crypto hash = []) :
    (tracked.removeForBlock crypto hash).Exact crypto readded := by
  have consistent := exact.figured.consistent
  unfold TrackedPool.removeForBlock
  cases found : tracked.pool.find crypto hash with
  | none => exact exact.clearPrioritisation (find_eq_none_iff.mp found)
  | some entry =>
    have present : hash ∈ tracked.pool.hashes crypto := by
      rw [← find_isSome_iff, found]
      rfl
    have safe : tracked.MayLeave crypto [hash] true := by
      refine .inr ⟨rfl, fun parent child linked listed => ?_⟩
      rw [mem_singleton.mp listed, ← mem_getMemPoolParents consistent, parentless] at linked
      cases linked
    have removed := exact.removeStaged (nodup_singleton hash)
      (fun other listed => mem_singleton.mp listed ▸ present) safe
    refine removed.clearPrioritisation fun left => ?_
    have there : hash ∈ (tracked.pool.removeStaged crypto [hash]).hashes crypto := left
    rw [hashes_removeStaged consistent, Finset.mem_sdiff, mem_toFinset] at there
    exact there.2 (mem_singleton_self hash)

theorem Exact.prioritiseTransaction (hash : T.Hash) (nFeeDelta : Word) :
    (tracked.prioritiseTransaction crypto hash nFeeDelta).Exact crypto readded := by
  have same : (tracked.prioritiseTransaction crypto hash nFeeDelta).pool = tracked.pool := by
    unfold TrackedPool.prioritiseTransaction
    cases tracked.pool.find crypto hash <;> rfl
  exact ⟨exact.figured.prioritiseTransaction hash nFeeDelta, same ▸ exact.links, same ▸ exact.back⟩

/-- `UpdateTransactionsFromBlock` makes up for what was left out. -/
theorem Exact.updateTransactionsFromBlock :
    (tracked.updateTransactionsFromBlock crypto readded).Exact crypto [] := by
  have figured := exact.figured
  have closed : ∀ {first last}, ReflTransGen (tracked.pool.Linked crypto) first last →
      first ∈ readded → last ∈ readded := fun path starts =>
    closed_path (fun parent child linked => ((exact.links parent child).mp linked).2) starts path
  have start : tracked.Updating crypto readded readded [] fun _ => [] :=
    { exact, figured with
      split := (append_nil _).symm
      sums := figured.sums.congr fun _ _ _ _ => and_iff_left_of_imp closed
      keys := fun _ some => absurd rfl some
      cache := fun _ some => absurd rfl some }
  obtain ⟨cached, finish⟩ := start.rounds
  refine ⟨{ finish with sums := ?_ }, ?_, cameBack_nil⟩
  · exact finish.sums.congr fun first _ last _ => (and_iff_left nofun).symm
  · intro parent child
    refine (finish.links parent child).trans ?_
    exact and_congr_right fun _ => ⟨fun _ => nofun, fun _ => nofun⟩

end

/-- A transaction that comes back joins after those it spends from, and what spends from it
was in the pool before. -/
def ReorgStep.Orderly (crypto : BlockCrypto T) (state : TrackedPool T × List T.Hash) :
    ReorgStep T → Prop
  | .accept _ entry =>
    state.1.pool.Joins crypto entry.tx ∧ entry.tx.getHash crypto ∉ state.2 ∧
      (∀ parent ∈ state.1.pool.parentsInPool crypto entry.tx, parent ∈ state.2) ∧
      ∀ child, state.1.pool.SpendsFrom crypto entry.tx child → child ∉ state.2
  | .remove _ => True

def OrderlyReorg (crypto : BlockCrypto T) (state : TrackedPool T × List T.Hash) :
    List (ReorgStep T) → Prop
  | [] => True
  | step :: rest => step.Orderly crypto state ∧
    OrderlyReorg crypto (reorgStep crypto state step) rest

theorem Exact.reorgStep (exact : state.1.Exact crypto state.2) {step : ReorgStep T}
    (orderly : step.Orderly crypto state) :
    (reorgStep crypto state step).1.Exact crypto (reorgStep crypto state step).2 := by
  cases step with
  | remove roots => exact exact.removeRecursive roots
  | accept limits entry =>
    obtain ⟨joins, fresh, parents, children⟩ := orderly
    cases searched : state.1.searchAncestors crypto limits entry with
    | error reason =>
      simp only [TrackedPool.reorgStep, searched]
      exact exact
    | ok setAncestors =>
      simp only [TrackedPool.reorgStep, searched]
      exact exact.comeBack joins fresh parents children searched

theorem Exact.reorgSteps (exact : state.1.Exact crypto state.2) {steps : List (ReorgStep T)}
    (orderly : OrderlyReorg crypto state steps) :
    (steps.foldl (TrackedPool.reorgStep crypto) state).1.Exact crypto
      (steps.foldl (TrackedPool.reorgStep crypto) state).2 := by
  induction steps generalizing state with
  | nil => exact exact
  | cons step rest ih => exact ih (exact.reorgStep orderly.1) orderly.2

/-- The condition on an event, in the state before it. -/
def Event.Orderly (crypto : BlockCrypto T) (tracked : TrackedPool T) : Event T → Prop
  | .add _ entry =>
    tracked.pool.Joins crypto entry.tx ∧
      ∀ child, ¬ tracked.pool.SpendsFrom crypto entry.tx child
  | .removeForBlock hash => tracked.pool.getMemPoolParents crypto hash = []
  | .reorg steps => OrderlyReorg crypto (tracked, []) steps
  | .removeRecursive _ => True
  | .removeConflict _ => True
  | .prioritise _ _ => True

def OrderlyRun (crypto : BlockCrypto T) (tracked : TrackedPool T) : List (Event T) → Prop
  | [] => True
  | event :: rest => event.Orderly crypto tracked ∧
    OrderlyRun crypto (tracked.step crypto event) rest

theorem Exact.step (exact : tracked.Exact crypto []) {event : Event T}
    (orderly : event.Orderly crypto tracked) : (tracked.step crypto event).Exact crypto [] := by
  cases event with
  | add limits entry =>
    obtain ⟨joins, childless⟩ := orderly
    cases searched : tracked.searchAncestors crypto limits entry with
    | error reason =>
      simp only [TrackedPool.step, TrackedPool.add, searched]
      exact exact
    | ok setAncestors =>
      simp only [TrackedPool.step, TrackedPool.add, searched]
      exact exact.addUnchecked joins childless searched
  | removeRecursive roots => exact exact.removeRecursive roots
  | removeConflict hash => exact exact.removeConflict hash
  | removeForBlock hash => exact exact.removeForBlock orderly
  | prioritise hash nFeeDelta => exact exact.prioritiseTransaction hash nFeeDelta
  | reorg steps =>
    have start : (tracked, ([] : List T.Hash)).1.Exact crypto
      (tracked, ([] : List T.Hash)).2 := exact
    exact (start.reorgSteps orderly).updateTransactionsFromBlock

theorem Exact.run (exact : tracked.Exact crypto []) {events : List (Event T)}
    (orderly : OrderlyRun crypto tracked events) : (tracked.run crypto events).Exact crypto [] := by
  induction events generalizing tracked with
  | nil => exact exact
  | cons event rest ih => exact ih (exact.step orderly.1) orderly.2

/-- Parents and children of every entry are those it spends from and those that spend from
it, and its figures are the sums over all that depend on it and over all it depends on. -/
def FiguresExact (crypto : BlockCrypto T) (tracked : TrackedPool T) : Prop :=
  (∀ entry ∈ tracked.pool.mapTx, ∀ hash,
    (hash ∈ entry.children ↔ tracked.pool.Spends crypto (entry.tx.getHash crypto) hash) ∧
      (hash ∈ entry.parents ↔ tracked.pool.Spends crypto hash (entry.tx.getHash crypto))) ∧
    Sums tracked.stats (tracked.pool.hashes crypto) (ReflTransGen (tracked.pool.Spends crypto))

theorem Exact.figuresExact (exact : tracked.Exact crypto []) : tracked.FiguresExact crypto := by
  have consistent := exact.figured.consistent
  have same : tracked.pool.Linked crypto = tracked.pool.Spends crypto :=
    funext fun parent => funext fun child => propext (exact.linked_iff parent child)
  refine ⟨fun entry member hash => ?_, same ▸ exact.figured.sums⟩
  have found := (find_eq_some consistent.maps).mpr ⟨member, rfl⟩
  rw [← same]
  constructor
  · rw [CTxMemPool.Linked, getMemPoolChildren, found]
  · rw [← mem_getMemPoolParents consistent, getMemPoolParents, found]

/-- After every orderly run the links and the figures are exact. -/
theorem run_figuresExact (crypto : BlockCrypto T) (events : List (Event T))
    (orderly : OrderlyRun crypto empty events) : (empty.run crypto events).FiguresExact crypto :=
  (exact_empty.run orderly).figuresExact

end TrackedPool

end MooncoinFormal.Mempool

namespace MooncoinFormal.Primitives.Numeric

open Mweb Mempool List TrackedPool

/-! ## A chain of three transactions -/

def handedOutput : Output types := plainOutput (12, 18) (5, 0) (2, 0)

def lastOutput : Output types := plainOutput (14, 17) (7, 0) (3, 0)

/-- A transaction of the extension block that passes one output on as another. -/
def passingTx (spent created : Output types) (excess : Int × Int) (stealthOffset : Int) :
    CTransaction types where
  vin := []
  vout := []
  nVersion := 2
  nLockTime := 0
  mwebTx := some
    { kernelOffset := (0 : Int)
      stealthOffset := stealthOffset
      body := ⟨[spendOutput spent], [created], [feeKernel 1 excess]⟩ }
  hogEx := false

def handingTx : CTransaction types := passingTx sharedOutput handedOutput (3, 0) 4

def lastTx : CTransaction types := passingTx handedOutput lastOutput (2, 0) 5

def defaultLimits : Limits := ⟨25, 101000, 25, 101000⟩

def admitted (tx : CTransaction types) : NewEntry types := ⟨tx, 1, 0, 0, 20, Nat.zero_le _⟩

/-- A transaction and two that depend on it are admitted. A block has the kernels of the
first two, and the second one leaves the pool before the first. -/
def childLeavesFirst : List (TrackedPool.Event types) :=
  [.add defaultLimits (admitted payingFromKept), .add defaultLimits (admitted handingTx),
    .add defaultLimits (admitted lastTx), .removeForBlock (handingTx.getHash crypto),
    .removeForBlock (payingFromKept.getHash crypto)]

/-- The first of two transactions is confirmed and comes back. -/
def parentComesBack : List (TrackedPool.Event types) :=
  [.add defaultLimits (admitted payingFromKept), .add defaultLimits (admitted handingTx),
    .prioritise (payingFromKept.getHash crypto) 5,
    .removeForBlock (payingFromKept.getHash crypto),
    .reorg [.accept defaultLimits (admitted payingFromKept)]]

theorem apart_of_plain {tx spender : CTransaction types} (plain : tx.vout = [])
    (apart : ∀ id ∈ spender.getSpentIDs, id ∉ tx.getOutputIDs crypto) :
    ∀ input ∈ spender.getInputs, input ∉ tx.getOutputs crypto := by
  intro input spent created
  simp only [CTransaction.getOutputs, plain, length_nil, range_zero, map_nil,
    nil_append, mem_map] at created
  obtain ⟨id, listed, rfl⟩ := created
  simp only [CTransaction.getInputs, mem_append, mem_map, reduceCtorEq, and_false,
    exists_false, false_or, Sum.inr.injEq, exists_eq_right] at spent
  exact apart id spent listed

theorem joins_of_plain {pool : CTxMemPool types} {tx : CTransaction types}
    (plain : tx.vin = [] ∧ tx.vout = []) (new : pool.find crypto (tx.getHash crypto) = none)
    (unspent : ∀ input ∈ tx.getInputs, pool.mapNextTx.lookup input = none)
    (apart : ∀ other ∈ pool.txs, ∀ id ∈ tx.getOutputIDs crypto, id ∉ other.getOutputIDs crypto)
    (foreign : ∀ id ∈ tx.getSpentIDs, id ∉ tx.getOutputIDs crypto) : pool.Joins crypto tx := by
  refine ⟨new, unspent, fun prevout spent => ?_, apart, apart_of_plain plain.2 foreign⟩
  simp [CTransaction.getInputs, plain.1] at spent

theorem parentComesBack_figuresExact :
    TrackedPool.OrderlyRun crypto .empty parentComesBack ∧
      (empty.run crypto parentComesBack).FiguresExact crypto := by
  have orderly : TrackedPool.OrderlyRun crypto .empty parentComesBack := by
    refine ⟨⟨?_, ?_⟩, ⟨?_, ?_⟩, trivial, ?_, ⟨⟨?_, not_mem_nil, ?_, ?_⟩, trivial⟩, trivial⟩
    · exact joins_of_plain ⟨rfl, rfl⟩ rfl (by decide +kernel) nofun (by decide +kernel)
    · rintro child ⟨spender, untrue, -⟩
      cases untrue
    · exact joins_of_plain ⟨rfl, rfl⟩ (by decide +kernel) (by decide +kernel) (by decide +kernel)
        (by decide +kernel)
    · rintro child ⟨spender, there, -, input, spent, created⟩
      have apart : ∀ spender ∈ ((empty : TrackedPool types).add crypto defaultLimits
          (admitted payingFromKept)).pool.txs, ∀ id ∈ spender.getSpentIDs,
            id ∉ handingTx.getOutputIDs crypto := by decide +kernel
      exact apart_of_plain rfl (apart spender there) input spent created
    · show CTxMemPool.getMemPoolParents _ _ _ = []
      decide +kernel
    · exact joins_of_plain ⟨rfl, rfl⟩ (by decide +kernel) (by decide +kernel) (by decide +kernel)
        (by decide +kernel)
    · decide +kernel
    · exact fun _ _ => not_mem_nil
  exact ⟨orderly, run_figuresExact crypto parentComesBack orderly⟩

/-- The last transaction is alone in the pool, and counts an ancestor. -/
theorem childLeavesFirst_not_figuresExact :
    (empty.run crypto childLeavesFirst).pool.txs = [lastTx] ∧
      ((empty.run crypto childLeavesFirst).stats (lastTx.getHash crypto)).withAncestors .count = 2 ∧
      ¬ (empty.run crypto childLeavesFirst).FiguresExact crypto := by
  have alone : (empty.run crypto childLeavesFirst).pool.txs = [lastTx] := by
    decide +kernel
  have counted : ((empty.run crypto childLeavesFirst).stats
      (lastTx.getHash crypto)).withAncestors .count = 2 := by decide +kernel
  refine ⟨alone, counted, fun ⟨_, sums⟩ => ?_⟩
  have single : (empty.run crypto childLeavesFirst).pool.hashes crypto =
      {lastTx.getHash crypto} := by
    rfl
  have own := congrFun (sums.ancestors (lastTx.getHash crypto)
    (by rw [single]; exact Finset.mem_singleton_self _)) .count
  have self : Function.swap (Relation.ReflTransGen ((empty.run crypto
      childLeavesFirst).pool.Spends crypto)) (lastTx.getHash crypto)
        (lastTx.getHash crypto) := .refl
  rw [counted, single, Library.RelationSums.relSum, Finset.sum_singleton, if_pos self] at own
  exact absurd own (by decide)

end MooncoinFormal.Primitives.Numeric
