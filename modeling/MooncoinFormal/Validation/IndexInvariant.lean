import MooncoinFormal.Validation.BlockIndex

/-!
# What the block index keeps true

The invariant behind `CheckBlockIndex`, in four parts: the shape of the tree,
the transaction counts with the blocks that wait for a parent, the validity
levels, and the failure flags. A fifth part ties the candidates to the tip. The
counts are stated with a queue, so that they also describe the index in the
middle of `ReceivedBlockTransactions`; outside it the queue is empty.
-/

namespace MooncoinFormal.Validation

open List Function

variable {ι : Type}

/-! ## Entries and their ancestors -/

namespace IndexEntry

section

variable {ancestor entry : List ι} (above : ancestor <:+ entry) (different : ancestor ≠ entry)
include above different

/-- An ancestor is the entry itself or an ancestor of its parent. -/
theorem suffix_tail : ancestor <:+ entry.tail := by
  cases entry with
  | nil => exact absurd (suffix_nil.mp above) different
  | cons id parent => exact (suffix_cons_iff.mp above).resolve_left different

theorem exists_child : ∃ id, id :: ancestor <:+ entry := by
  induction entry with
  | nil => exact absurd (suffix_nil.mp above) different
  | cons id parent ih =>
    have below := suffix_tail above different
    by_cases same : ancestor = parent
    · subst same
      exact ⟨id, suffix_rfl⟩
    · obtain ⟨child, between⟩ := ih below same
      exact ⟨child, between.trans (suffix_cons _ _)⟩

end

/-- The sum of a count over an entry and its ancestors. -/
def total (count : List ι → Nat) : List ι → Nat
  | [] => 0
  | id :: parent => total count parent + count (id :: parent)

variable {count : List ι → Nat} {entry other : List ι}

theorem total_update_of_not_suffix [DecidableEq ι] {value : Nat}
    (apart : ¬ entry <:+ other) : total (update count entry value) other = total count other := by
  induction other with
  | nil => rfl
  | cons id parent ih =>
    have different : id :: parent ≠ entry := fun same => apart (same ▸ suffix_rfl)
    have below : ¬ entry <:+ parent := fun inside => apart (inside.trans (suffix_cons _ _))
    rw [total, total, ih below, update_of_ne different]

theorem total_update_of_suffix [DecidableEq ι] {value : Nat}
    (inside : entry <:+ other) (nonempty : entry ≠ []) (unset : count entry = 0) :
    total (update count entry value) other = total count other + value := by
  induction other with
  | nil => exact absurd (suffix_nil.mp inside) nonempty
  | cons id parent ih =>
    rw [total, total]
    by_cases same : entry = id :: parent
    · subst same
      rw [total_update_of_not_suffix (ChainState.not_cons_suffix _ _), update_self, unset]
      omega
    · rw [ih (suffix_tail inside same), update_of_ne (Ne.symm same)]
      omega

end IndexEntry

variable {blockIndex queue : List (IndexEntry ι)} {entry : IndexEntry ι} {node' : NodeIndex ι}

namespace NodeIndex

open IndexEntry SkipList

section Order

variable {params : IndexParams ι} {node : NodeIndex ι} {pa pb pc : IndexEntry ι}

theorem worse_iff : node.worse params pa pb = true ↔
    params.nChainWork pa < params.nChainWork pb ∨
      (params.nChainWork pa = params.nChainWork pb ∧
        (node.nSequenceId pb < node.nSequenceId pa ∨
          (node.nSequenceId pa = node.nSequenceId pb ∧ params.address pb < params.address pa))) :=
  BlockTree.workComparator_iff (node.tree params) pa pb

theorem not_worse_iff : node.worse params pa pb = false ↔
    params.nChainWork pb < params.nChainWork pa ∨
      (params.nChainWork pa = params.nChainWork pb ∧
        (node.nSequenceId pa < node.nSequenceId pb ∨
          (node.nSequenceId pa = node.nSequenceId pb ∧ params.address pa ≤ params.address pb))) :=
  BlockTree.workComparator_eq_false

theorem not_worse_trans (first : node.worse params pa pb = false)
    (second : node.worse params pb pc = false) : node.worse params pa pc = false :=
  BlockTree.workComparator_trans first second

theorem not_worse_of_worse (first : node.worse params pa pb = true) :
    node.worse params pb pa = false :=
  BlockTree.workComparator_asymm first

theorem eq_of_not_worse (first : node.worse params pa pb = false)
    (second : node.worse params pb pa = false) : pa = pb :=
  BlockTree.workComparator_total first second

theorem not_worse_self (entry : IndexEntry ι) : node.worse params entry entry = false :=
  BlockTree.workComparator_irrefl _ entry

theorem not_worse_ancestor (above : pa <:+ pb) : node.worse params pb pa = false :=
  BlockTree.workComparator_ancestor above

end Order

/-! ## The invariant -/

variable (params : IndexParams ι)

/-- The ancestors of an entry are in the index, down to the genesis block. -/
structure Shape (blockIndex : List (IndexEntry ι)) : Prop where
  nodup : blockIndex.Nodup
  rooted : [params.hashGenesisBlock] ∈ blockIndex
  noNull : [] ∉ blockIndex
  closed : ∀ id parent, id :: parent ∈ blockIndex →
    (parent = [] ∧ id = params.hashGenesisBlock) ∨ parent ∈ blockIndex

variable (node : NodeIndex ι)

/-- The transactions of the entry and of all its ancestors were received. -/
def Complete (entry : IndexEntry ι) : Prop :=
  ∀ ancestor, ancestor <:+ entry → ancestor ≠ [] → 0 < node.nTx ancestor

/-- The transaction counts, and the blocks waiting for a parent, where the
entries of a queue are still to be linked. -/
structure Counts (queue : List (IndexEntry ι)) : Prop where
  fresh : ∀ entry, entry ∉ node.blockIndex → node.nTx entry = 0 ∧ node.nChainTx entry = 0
  data : ∀ entry, node.chain.haveData entry = decide (0 < node.nTx entry)
  sequence : ∀ entry, node.nChainTx entry = 0 → node.nSequenceId entry ≤ 0
  sound : ∀ entry, node.nChainTx entry ≠ 0 → node.Complete entry
  parentLinked : ∀ id parent, node.nChainTx (id :: parent) ≠ 0 → parent ≠ [] →
    node.nChainTx parent ≠ 0
  reach : ∀ entry, entry ≠ [] → node.Complete entry →
    node.nChainTx entry ≠ 0 ∨ ∃ waiting ∈ queue, waiting <:+ entry
  total : ∀ entry, node.nChainTx entry ≠ 0 → node.nChainTx entry = total node.nTx entry
  bounded : ∀ entry ∈ node.blockIndex, IndexEntry.total node.nTx entry < 2 ^ 32
  queueNodup : queue.Nodup
  queued : ∀ entry ∈ queue, ∃ id parent, entry = id :: parent ∧
    (parent = [] ∨ node.nChainTx parent ≠ 0) ∧ node.nChainTx entry = 0 ∧ 0 < node.nTx entry
  unlinkedNodup : node.blocksUnlinked.Nodup
  unlinked : ∀ parent entry, (parent, entry) ∈ node.blocksUnlinked →
    parent ≠ [] ∧ node.nChainTx parent = 0 ∧ 0 < node.nTx entry ∧ ∃ id, entry = id :: parent
  waiting : ∀ id parent, parent ≠ [] → 0 < node.nTx (id :: parent) →
    node.nChainTx (id :: parent) = 0 →
    (parent, id :: parent) ∈ node.blocksUnlinked ∨ id :: parent ∈ queue

variable (outcomes : Outcomes ι)

/-- The validity levels. What was connected once connects again. -/
structure Levels (node : NodeIndex ι) : Prop where
  tree : ∀ entry ∈ node.blockIndex, 2 ≤ (node.validity entry).rank
  transactions : ∀ entry, 3 ≤ (node.validity entry).rank ↔ 0 < node.nTx entry
  scripts : ∀ entry, 4 ≤ (node.validity entry).rank → ∀ ancestor, ancestor <:+ entry →
    ancestor.tail ≠ [] → 5 ≤ (node.validity ancestor).rank ∧ outcomes ancestor = none
  undo : ∀ entry, node.haveUndo entry = true → 0 < node.nTx entry

/-- The failure flags: each one has its cause. -/
structure Flags : Prop where
  fresh : ∀ entry, entry ∉ node.blockIndex → node.flagged entry = false
  cause : ∀ entry, node.flagged entry = true →
    ∃ ancestor, ancestor <:+ entry ∧ node.chain.failedValid ancestor = true
  failedBlocks : ∀ entry ∈ node.failedBlocks, node.chain.failedValid entry = true

/-- An entry that the active chain can run through: nothing on its way has
failed or is missing. -/
structure Clean (entry : IndexEntry ι) : Prop where
  linked : node.nChainTx entry ≠ 0
  unflagged : ∀ ancestor, ancestor <:+ entry → node.flagged ancestor = false

def Validated (entry : IndexEntry ι) : Prop :=
  ∀ ancestor, ancestor <:+ entry → ancestor.tail ≠ [] → 5 ≤ (node.validity ancestor).rank

/-- The candidates are linked and no worse than the bound; what is linked,
unflagged and no worse than the bound is a candidate. -/
structure Listed (node : NodeIndex ι) (bound : IndexEntry ι) : Prop where
  inside : ∀ entry ∈ node.chain.candidates,
    node.nChainTx entry ≠ 0 ∧ node.worse params entry bound = false
  offered : ∀ entry, node.flagged entry = false → node.nChainTx entry ≠ 0 →
    node.worse params entry bound = false → entry ∈ node.chain.candidates

/-- Everything but the tip and the candidates. -/
structure Indexed (node : NodeIndex ι) : Prop where
  shape : Shape params node.blockIndex
  counts : node.Counts []
  levels : node.Levels outcomes
  flags : node.Flags

structure Consistent (node : NodeIndex ι) : Prop extends Indexed params outcomes node where
  clean : node.Clean node.chain.tip
  validated : node.Validated node.chain.tip
  listed : node.Listed params node.chain.tip

/-! ## First consequences -/

section Consequences

variable {params : IndexParams ι} {outcomes : Outcomes ι} {node : NodeIndex ι}

section

variable (shape : Shape params blockIndex)
include shape

theorem Shape.ne_nil (inside : entry ∈ blockIndex) : entry ≠ [] :=
  fun null => shape.noNull (null ▸ inside)

theorem Shape.ancestor {ancestor : IndexEntry ι}
    (inside : entry ∈ blockIndex) (above : ancestor <:+ entry) (nonempty : ancestor ≠ []) :
    ancestor ∈ blockIndex := by
  induction entry with
  | nil => exact absurd (suffix_nil.mp above) nonempty
  | cons id parent ih =>
    rcases suffix_cons_iff.mp above with same | deeper
    · exact same ▸ inside
    · rcases shape.closed id parent inside with ⟨null, -⟩ | member
      · subst null
        exact absurd (suffix_nil.mp deeper) nonempty
      · exact ih member deeper

/-- Every entry descends from the genesis block. -/
theorem Shape.genesis_suffix (inside : entry ∈ blockIndex) :
    [params.hashGenesisBlock] <:+ entry := by
  induction entry with
  | nil => exact absurd inside shape.noNull
  | cons id parent ih =>
    rcases shape.closed id parent inside with ⟨rfl, rfl⟩ | member
    · exact suffix_rfl
    · exact (ih member).trans (suffix_cons _ _)

theorem Shape.eq_genesis (inside : entry ∈ blockIndex)
    (root : entry.tail = []) : entry = [params.hashGenesisBlock] := by
  obtain ⟨front, rfl⟩ := shape.genesis_suffix inside
  cases front with
  | nil => rfl
  | cons id rest => simp at root

end

theorem Counts.mem_of_linked (counts : node.Counts queue) (linked : node.nChainTx entry ≠ 0) :
    entry ∈ node.blockIndex := by
  by_contra outside
  exact linked (counts.fresh entry outside).2

theorem Counts.mem_of_nTx (counts : node.Counts queue) (received : 0 < node.nTx entry) :
    entry ∈ node.blockIndex := by
  by_contra outside
  have unset := (counts.fresh entry outside).1
  omega

theorem Counts.linked_iff (counts : node.Counts []) (nonempty : entry ≠ []) :
    node.nChainTx entry ≠ 0 ↔ node.Complete entry := by
  refine ⟨counts.sound entry, fun complete => ?_⟩
  rcases counts.reach entry nonempty complete with linked | ⟨waiting, member, -⟩
  · exact linked
  · exact absurd member not_mem_nil

theorem Counts.linked_ancestor (counts : node.Counts queue) {ancestor : IndexEntry ι}
    (linked : node.nChainTx entry ≠ 0) (above : ancestor <:+ entry) (nonempty : ancestor ≠ []) :
    node.nChainTx ancestor ≠ 0 := by
  induction entry with
  | nil => exact absurd (suffix_nil.mp above) nonempty
  | cons id parent ih =>
    rcases suffix_cons_iff.mp above with same | deeper
    · exact same ▸ linked
    · have parentNonempty : parent ≠ [] :=
        fun null => nonempty (suffix_nil.mp (null ▸ deeper))
      exact ih (counts.parentLinked id parent linked parentNonempty) deeper

/-- The counts depend on the counting fields only. -/
theorem Counts.congr (counts : node.Counts queue) (blockIndex : node'.blockIndex = node.blockIndex)
    (nTx : node'.nTx = node.nTx) (nChainTx : node'.nChainTx = node.nChainTx)
    (nSequenceId : node'.nSequenceId = node.nSequenceId)
    (blocksUnlinked : node'.blocksUnlinked = node.blocksUnlinked)
    (haveData : node'.chain.haveData = node.chain.haveData) : node'.Counts queue := by
  obtain ⟨⟩ := node'
  subst blockIndex nTx nChainTx nSequenceId blocksUnlinked
  exact { counts with data := fun entry => (congrFun haveData entry).trans (counts.data entry) }

/-- The levels depend on the entries, their levels and their counts only. -/
theorem Levels.congr (levels : node.Levels outcomes)
    (blockIndex : node'.blockIndex = node.blockIndex) (nTx : node'.nTx = node.nTx)
    (validity : node'.validity = node.validity) (haveUndo : node'.haveUndo = node.haveUndo) :
    node'.Levels outcomes := by
  obtain ⟨⟩ := node'
  subst blockIndex nTx validity haveUndo
  exact { levels with }

theorem flagged_eq_false_iff : node.flagged entry = false ↔
    node.chain.failedValid entry = false ∧ node.chain.failedChild entry = false := by
  rw [flagged, Bool.or_eq_false_iff]

theorem Flags.flagged_of_valid (flags : node.Flags)
    (valid : ∀ ancestor, ancestor <:+ entry → node.chain.failedValid ancestor = false) :
    node.flagged entry = false := by
  by_contra marked
  obtain ⟨ancestor, above, failed⟩ := flags.cause entry (by simpa using marked)
  exact ne_true_of_eq_false (valid ancestor above) failed

/-- Flags that are only added above flagged entries leave clean entries clean. -/
theorem Clean.of_flags (clean : node.Clean entry)
    (counts : node'.nChainTx entry = node.nChainTx entry)
    (added : ∀ marked, node'.flagged marked = true → ∃ ancestor, ancestor <:+ marked ∧ node.flagged
      ancestor = true) : node'.Clean entry := by
  refine ⟨by rw [counts]; exact clean.linked, fun ancestor above => ?_⟩
  by_contra marked
  obtain ⟨deeper, below, before⟩ := added ancestor (by simpa using marked)
  exact ne_true_of_eq_false (clean.unflagged deeper (below.trans above)) before

end Consequences

/-! ## The check passes -/

section Check

theorem firstWith_eq_none {property : IndexEntry ι → Bool} :
    firstWith property entry = none ↔
      ∀ ancestor, ancestor <:+ entry → ancestor ≠ [] → property ancestor = false := by
  induction entry with
  | nil =>
    simp only [firstWith, true_iff]
    intro ancestor above nonempty
    exact absurd (suffix_nil.mp above) nonempty
  | cons id parent ih =>
    simp only [suffix_cons_iff, forall_eq_or_imp]
    rw [firstWith, ← ih]
    cases firstWith property parent with
    | some oldest => simp
    | none => simp

variable {params : IndexParams ι} {outcomes : Outcomes ι} {node : NodeIndex ι}

section

variable (consistent : node.Consistent params outcomes)
include consistent

theorem Consistent.genesis_of_tip :
    chainGenesis node.chain.tip = [params.hashGenesisBlock] := by
  have root := consistent.shape.genesis_suffix
    (consistent.counts.mem_of_linked consistent.clean.linked)
  have length := root.length_le
  have positive : 0 < node.chain.tip.length := length
  rw [chainGenesis]
  refine (suffix_of_suffix_length_le (drop_suffix _ _) root ?_).eq_of_length ?_
  · simp only [length_drop, length_singleton]
    omega
  · simp only [length_drop, length_singleton]
    omega

theorem Consistent.nTx_genesis : 0 < node.nTx [params.hashGenesisBlock] := by
  have root := consistent.shape.genesis_suffix
    (consistent.counts.mem_of_linked consistent.clean.linked)
  exact consistent.counts.sound _ consistent.clean.linked _ root (cons_ne_nil _ _)

theorem Consistent.firstNeverProcessed (nonempty : entry ≠ []) :
    firstWith (fun entry => decide (node.nTx entry = 0)) entry = none ↔
      node.nChainTx entry ≠ 0 := by
  rw [firstWith_eq_none, consistent.counts.linked_iff nonempty]
  simp only [decide_eq_false_iff_not, Complete, pos_iff_ne_zero, ne_eq]

theorem Consistent.firstNotTransactionsValid (inside : entry ∈ node.blockIndex) :
    node.firstNotValid .transactions entry = none ↔ node.nChainTx entry ≠ 0 := by
  have nonempty := consistent.shape.ne_nil inside
  rw [firstNotValid, firstWith_eq_none, consistent.counts.linked_iff nonempty]
  refine forall_congr' fun ancestor => forall_congr' fun above => forall_congr' fun something => ?_
  rw [← consistent.levels.transactions, Bool.and_eq_false_iff, decide_eq_false_iff_not,
    decide_eq_false_iff_not, not_not, not_lt]
  refine ⟨fun either => either.elim (fun root => ?_) id, .inr⟩
  -- the only entry without a parent is the genesis block, which was received
  have member := consistent.shape.ancestor inside above something
  rw [consistent.shape.eq_genesis member root]
  exact (consistent.levels.transactions _).mpr consistent.nTx_genesis

end

/-- Connected blocks have all levels on their way. -/
theorem Levels.firstNotValid (levels : node.Levels outcomes) {level : BlockValidity}
    (reached : 4 ≤ (node.validity entry).rank) : node.firstNotValid level entry = none := by
  rw [NodeIndex.firstNotValid, firstWith_eq_none]
  intro ancestor above _
  rw [Bool.and_eq_false_iff, decide_eq_false_iff_not, decide_eq_false_iff_not, not_not, not_lt]
  by_cases root : ancestor.tail = []
  · exact .inl root
  · have top := (levels.scripts entry reached ancestor above root).1
    have most : level.rank ≤ 5 := by cases level <;> decide
    exact .inr (most.trans top)

theorem Indexed.firstNotTreeValid (indexed : node.Indexed params outcomes)
    (inside : entry ∈ node.blockIndex) : node.firstNotValid .tree entry = none := by
  rw [NodeIndex.firstNotValid, firstWith_eq_none]
  intro ancestor above nonempty
  rw [Bool.and_eq_false_iff, decide_eq_false_iff_not, decide_eq_false_iff_not, not_lt]
  exact .inr (indexed.levels.tree ancestor (indexed.shape.ancestor inside above nonempty))

theorem Indexed.flagged_of_firstInvalid (indexed : node.Indexed params outcomes)
    (none : firstWith node.chain.failedValid entry = none) : node.flagged entry = false := by
  refine indexed.flags.flagged_of_valid fun ancestor above => ?_
  by_cases nonempty : ancestor = []
  · subst nonempty
    exact (flagged_eq_false_iff.mp (indexed.flags.fresh [] indexed.shape.noNull)).1
  · exact firstWith_eq_none.mp none ancestor above nonempty

theorem pskip_height (high : ¬ entry.length - 1 < 2) :
    skipAncestor entry ≠ [] ∧ (skipAncestor entry).length - 1 < entry.length - 1 := by
  have lower := @getSkipHeight_lt (entry.length - 1) (by omega)
  have length : (skipAncestor entry).length = getSkipHeight (entry.length - 1) + 1 := by
    rw [skipAncestor, length_drop]
    omega
  exact ⟨ne_nil_of_length_pos (by omega), by omega⟩

theorem Consistent.assertions [DecidableEq ι] (consistent : node.Consistent params outcomes)
    (inside : entry ∈ node.blockIndex) : (node.assertions params entry).all id = true := by
  have nonempty := consistent.shape.ne_nil inside
  have root := consistent.shape.eq_genesis inside
  have missing : firstWith (fun entry => !node.chain.haveData entry) entry =
      firstWith (fun entry => decide (node.nTx entry = 0)) entry := by
    refine congrArg (firstWith · entry) (funext fun other => ?_)
    rw [consistent.counts.data]
    by_cases received : node.nTx other = 0 <;> simp [received, pos_iff_ne_zero]
  have processed := consistent.firstNeverProcessed nonempty
  have transactions := consistent.firstNotTransactionsValid inside
  have level := consistent.levels.transactions entry
  have data := consistent.counts.data entry
  have work : params.nChainWork entry.tail ≤ params.nChainWork entry := by
    cases entry with
    | nil => exact absurd rfl nonempty
    | cons id parent => exact Nat.le_add_right _ _
  have valid : firstWith node.chain.failedValid entry = none → node.flagged entry = false :=
    consistent.flagged_of_firstInvalid
  have found : (entry.tail, entry) ∈ node.blocksUnlinked →
      0 < node.nTx entry ∧ node.nChainTx entry = 0 := by
    intro member
    obtain ⟨something, unlinked, received, id, -⟩ := consistent.counts.unlinked _ _ member
    refine ⟨received, ?_⟩
    by_contra linked
    exact consistent.counts.linked_ancestor linked (tail_suffix _) something unlinked
  have waits : entry.tail ≠ [] → 0 < node.nTx entry → node.nChainTx entry = 0 →
      (entry.tail, entry) ∈ node.blocksUnlinked := by
    intro something received unlinked
    cases entry with
    | nil => exact absurd rfl nonempty
    | cons id parent =>
      exact (consistent.counts.waiting id parent something received unlinked).resolve_right
        not_mem_nil
  have candidate := consistent.listed.inside entry
  have offered := consistent.listed.offered entry
  simp only [NodeIndex.assertions, all_cons, all_nil, id_eq, Bool.and_true,
    Bool.and_eq_true, missing]
  have isNone : (firstWith (fun entry => decide (node.nTx entry = 0)) entry).isNone =
      node.haveTxsDownloaded entry := by
    rw [Bool.eq_iff_iff, Option.isNone_iff_eq_none, processed, haveTxsDownloaded, decide_eq_true_eq]
  have isSome : (firstWith (fun entry => decide (node.nTx entry = 0)) entry).isSome =
      !node.haveTxsDownloaded entry := by
    rw [← isNone, Option.not_isNone]
  rw [isNone, isSome]
  refine ⟨?genesis, ?first, ?sequence, ?data, ?missing, ?undo, ?level, ?processed, ?transactions,
    ?work, ?skip, ?tree, ?treeParents, ?chainParents, ?scriptsParents, ?flags, ?offered, ?inside,
    ?unlinked, ?withoutData, ?linked, ?pruned⟩
  case genesis => simpa [or_iff_not_imp_left] using root
  case first =>
    rw [Bool.or_eq_true, decide_eq_true_eq, decide_eq_true_eq, consistent.genesis_of_tip]
    refine or_iff_not_imp_left.mpr fun null => ?_
    rw [root (not_not.mp null)]
  case sequence =>
    have sequence := consistent.counts.sequence entry
    simpa [haveTxsDownloaded, or_iff_not_imp_left] using sequence
  case data => simp [data, pos_iff_ne_zero]
  case missing => simp
  case undo =>
    have undo := consistent.levels.undo entry
    rw [data]
    cases written : node.haveUndo entry with
    | false => simp
    | true => simpa using undo written
  case level =>
    rw [decide_eq_true_eq, Bool.eq_iff_iff, decide_eq_true_eq, decide_eq_true_eq]
    exact level
  case processed => simp
  case transactions =>
    rw [decide_eq_true_eq, Bool.eq_iff_iff, Option.isNone_iff_eq_none, transactions,
      haveTxsDownloaded, decide_eq_true_eq]
  case work => simp [work]
  case skip =>
    rw [Bool.or_eq_true, decide_eq_true_eq]
    exact or_iff_not_imp_left.mpr fun high => decide_eq_true (pskip_height high)
  case tree => simp [consistent.firstNotTreeValid inside]
  case treeParents => simp [consistent.firstNotTreeValid inside]
  case chainParents =>
    rw [Bool.or_eq_true, Bool.not_eq_true', decide_eq_false_iff_not, Option.isNone_iff_eq_none]
    exact or_iff_not_imp_left.mpr fun reached =>
      consistent.levels.firstNotValid (not_not.mp reached)
  case scriptsParents =>
    rw [Bool.or_eq_true, Bool.not_eq_true', decide_eq_false_iff_not, Option.isNone_iff_eq_none]
    refine or_iff_not_imp_left.mpr fun reached => consistent.levels.firstNotValid ?_
    have top : 5 ≤ (node.validity entry).rank := not_not.mp reached
    omega
  case flags =>
    cases oldest : firstWith node.chain.failedValid entry with
    | some failed => rfl
    | none => rw [valid oldest]; rfl
  case offered =>
    cases oldest : firstWith node.chain.failedValid entry with
    | some failed => simp
    | none =>
      by_cases linked : node.nChainTx entry ≠ 0
      · cases worse : node.worse params entry node.chain.tip with
        | true => simp
        | false => simp [offered (valid oldest) linked worse]
      · simp [haveTxsDownloaded, not_not.mp linked]
  case inside =>
    by_cases member : entry ∈ node.chain.candidates
    · obtain ⟨linked, worse⟩ := candidate member
      simp [haveTxsDownloaded, linked, worse]
    · simp [member]
  case unlinked =>
    by_cases member : (entry.tail, entry) ∈ node.blocksUnlinked
    · simp [member]
    · cases linked : node.haveTxsDownloaded entry with
      | true => simp
      | false =>
        have unlinked : node.nChainTx entry = 0 := by simpa [haveTxsDownloaded] using linked
        by_cases parent : entry.tail = []
        · simp [parent]
        · have unset : ¬ 0 < node.nTx entry := fun set => member (waits parent set unlinked)
          simp [data, unset]
  case withoutData =>
    by_cases member : (entry.tail, entry) ∈ node.blocksUnlinked
    · simp [data, (found member).1]
    · simp [member]
  case linked =>
    by_cases member : (entry.tail, entry) ∈ node.blocksUnlinked
    · simp [haveTxsDownloaded, (found member).2]
    · simp [member]
  case pruned =>
    cases node.haveTxsDownloaded entry <;> simp

/-- All assertions of `CheckBlockIndex` hold in a consistent index. -/
theorem Consistent.checkBlockIndex [DecidableEq ι] (consistent : node.Consistent params outcomes) :
    node.checkBlockIndex params = true := by
  have shape := consistent.shape
  have tip := shape.ne_nil (consistent.counts.mem_of_linked consistent.clean.linked)
  have roots : node.blockIndex.filter (fun entry => entry.tail = []) =
      [[params.hashGenesisBlock]] := by
    refine perm_singleton.mp ((perm_ext_iff_of_nodup (shape.nodup.filter _)
      (nodup_singleton _)).mpr fun entry => ?_)
    rw [mem_filter, decide_eq_true_eq, mem_singleton]
    constructor
    · rintro ⟨member, root⟩
      exact shape.eq_genesis member root
    · rintro rfl
      exact ⟨shape.rooted, rfl⟩
  rw [NodeIndex.checkBlockIndex, if_neg tip, roots]
  simp only [length_singleton, decide_true, Bool.true_and, Bool.and_eq_true, all_eq_true]
  refine ⟨fun entry member ancestor above => ?_, fun entry member assertion inside => ?_⟩
  · rw [Bool.or_eq_true, decide_eq_true_eq, decide_eq_true_eq]
    exact or_iff_not_imp_left.mpr (shape.ancestor member ((mem_tails _ _).mp above))
  · exact all_eq_true.mp (consistent.assertions member) assertion inside

end Check

end NodeIndex

end MooncoinFormal.Validation
