import MooncoinFormal.Validation.IndexActivation

/-!
# Runs of the block index

`InvalidateBlock`, `ResetBlockFailureFlags`, and what holds after every
sequence of calls. Two calls can break the index: storing a block whose parent
is flagged and not yet linked, and clearing the flags of an entry below which
another flagged one lies.
-/

namespace MooncoinFormal.Validation

open NodeIndex List IndexEntry Option Function

variable {ι : Type} [DecidableEq ι] {params : IndexParams ι} {outcomes : Outcomes ι}

/-! ## Invalidating -/

variable {entry parent : IndexEntry ι} {tip : IndexEntry ι}

namespace Invalidation

variable {pindex : IndexEntry ι} {run : Invalidation ι}

/-- The state between two disconnections: the index is consistent, and what may
still become a candidate is listed by its work. -/
structure Walking (params : IndexParams ι) (outcomes : Outcomes ι) (pindex : IndexEntry ι)
    (run : Invalidation ι) : Prop where
  consistent : run.node.Consistent params outcomes
  known : run.toMarkFailed ∈ run.node.blockIndex
  waiting : ∀ entry, run.node.flagged entry = false → run.node.nChainTx entry ≠ 0 →
    ¬ entry <:+ run.node.chain.tip → run.node.worse params entry pindex.tail = false →
    entry ∈ run.candidateBlocksByWork ∨ entry ∈ run.node.chain.candidates
  linked : ∀ entry ∈ run.candidateBlocksByWork, run.node.nChainTx entry ≠ 0
  marked : pindex <:+ run.node.chain.tip →
    run.node.chain.failedValid run.toMarkFailed = true →
    run.node.chain.tip.length < run.toMarkFailed.length

theorem Walking.corrected_eq {id : ι} (walking : Walking params outcomes pindex run)
    (tip : run.node.chain.tip = id :: parent) (onChain : pindex <:+ id :: parent) :
    corrected (run.disconnected (id :: parent)) (id :: parent) run.toMarkFailed =
      run.disconnected (id :: parent) := by
  refine if_neg ?_
  rintro ⟨below, failed⟩
  have different : run.toMarkFailed ≠ id :: parent := by
    rw [← below, tail_cons]
    exact (cons_ne_self id parent).symm
  have before := update_of_ne different true run.node.chain.failedValid
  have longer := walking.marked (tip ▸ onChain) (before.symm.trans failed)
  rw [tip, ← below, tail_cons, length_cons] at longer
  omega

omit [DecidableEq ι] in
theorem eligible_iff {node : NodeIndex ι} :
    eligible params node tip entry = true ↔ node.worse params entry tip = false := by
  rw [eligible, Bool.and_eq_true, decide_eq_true_eq, Bool.not_eq_true', and_iff_right_iff_imp]
  intro better
  rw [not_worse_iff] at better
  omega

theorem mem_disconnected {walkTip : IndexEntry ι} {entries : List (IndexEntry ι)} :
    entry ∈ ((run.disconnected walkTip).insertCandidates entries).chain.candidates ↔
      entry ∈ entries ∨ entry = walkTip.tail ∨
        (entry ∈ run.node.chain.candidates ∧ entry ≠ walkTip) := by
  simp only [insertCandidates, disconnected, mem_union_iff, mem_insert_iff,
    mem_filter, decide_eq_true_eq, ne_eq]

theorem Walking.disconnectTip {id : ι} (walking : Walking params outcomes pindex run)
    (tip : run.node.chain.tip = id :: parent) (onChain : pindex <:+ id :: parent)
    (something : parent ≠ []) :
    Walking params outcomes pindex (run.disconnectTip params (id :: parent)) ∧
      (run.disconnectTip params (id :: parent)).node.chain.tip = parent := by
  have consistent := walking.consistent
  have clean := consistent.clean
  have known := consistent.counts.mem_of_linked clean.linked
  rw [tip] at clean known
  have below : parent <:+ id :: parent := suffix_cons _ _
  have linkedParent := consistent.counts.linked_ancestor clean.linked below something
  have cleanParent : run.node.Clean parent :=
    ⟨linkedParent, fun ancestor above => clean.unflagged ancestor (above.trans below)⟩
  have flags := markFailedValid_flags consistent.flags known
  have tailBelow : pindex.tail <:+ parent := by
    by_cases same : pindex = id :: parent
    · rw [same, tail_cons]
    · exact (tail_suffix _).trans (suffix_tail onChain same)
  -- an entry without a flag afterwards is not the block that was disconnected
  have unflaggedBefore : ∀ entry, (run.node.markFailedValid (id :: parent)).flagged entry = false →
      run.node.flagged entry = false ∧ entry ≠ id :: parent := by
    intro entry unflagged
    have both := markFailedValid_flagged.not.mp (Bool.eq_false_iff.mp unflagged)
    exact ⟨Bool.eq_false_iff.mpr fun flag => both (.inl flag), fun same => both (.inr same)⟩
  have waits : ∀ entry, (run.node.markFailedValid (id :: parent)).flagged entry = false →
      run.node.nChainTx entry ≠ 0 → ¬ entry <:+ parent →
      run.node.worse params entry pindex.tail = false →
      entry ∈ run.candidateBlocksByWork ∨
        (entry ∈ run.node.chain.candidates ∧ entry ≠ id :: parent) := by
    intro entry unflagged linked outside better
    obtain ⟨before, different⟩ := unflaggedBefore entry unflagged
    refine (walking.waiting entry before linked ?_ better).imp_right fun member =>
      ⟨member, different⟩
    rw [tip]
    exact fun inside => (suffix_cons_iff.mp inside).elim different outside
  rw [Invalidation.disconnectTip, walking.corrected_eq tip onChain]
  refine ⟨⟨⟨⟨consistent.shape, consistent.counts.congr rfl rfl rfl rfl rfl rfl,
    consistent.levels.congr rfl rfl rfl rfl, ?_⟩, ?_, ?_, ?_⟩, known, ?_, ?_, ?_⟩, rfl⟩
  · exact ⟨flags.fresh, flags.cause, flags.failedBlocks⟩
  · have stays := markFailedValid_clean cleanParent (ChainState.not_cons_suffix id parent)
    exact ⟨stays.linked, stays.unflagged⟩
  · have validated := consistent.validated
    rw [tip] at validated
    exact fun ancestor above root => validated ancestor (above.trans below) root
  · refine ⟨fun entry member => ?_, fun entry unflagged linked better => ?_⟩
    · rcases mem_disconnected.mp member with moved | rfl | ⟨old, -⟩
      · obtain ⟨waiting, good⟩ := mem_filter.mp moved
        exact ⟨walking.linked entry waiting, eligible_iff.mp good⟩
      · exact ⟨linkedParent, not_worse_self _⟩
      · obtain ⟨linked, better⟩ := consistent.listed.inside entry old
        rw [tip] at better
        exact ⟨linked, not_worse_trans better (not_worse_ancestor below)⟩
    · refine mem_disconnected.mpr ?_
      by_cases inside : entry <:+ parent
      · exact .inr (.inl (eq_of_not_worse better (not_worse_ancestor inside)))
      · have far := not_worse_trans better (not_worse_ancestor tailBelow)
        rcases waits entry unflagged linked inside far with waiting | stays
        · exact .inl (mem_filter.mpr ⟨waiting, eligible_iff.mpr better⟩)
        · exact .inr (.inr stays)
  · intro entry unflagged linked outside better
    rcases waits entry unflagged linked outside better with waiting | stays
    · by_cases good : eligible params run.node parent entry = true
      · exact .inr (mem_disconnected.mpr (.inl (mem_filter.mpr ⟨waiting, good⟩)))
      · have bad : (!eligible params run.node parent entry) = true := by simpa using good
        exact .inl (mem_filter.mpr ⟨waiting, bad⟩)
    · exact .inr (mem_disconnected.mpr (.inr (.inr stays)))
  · exact fun entry member => walking.linked entry (mem_filter.mp member).1
  · exact fun _ _ => Nat.lt_succ_self _

/-- The whole walk down the active chain. -/
theorem Walking.walk (walking : Walking params outcomes pindex run)
    (atTip : run.node.chain.tip = tip) :
    Walking params outcomes pindex (Invalidation.walk params pindex tip run) := by
  induction tip generalizing run with
  | nil => exact walking
  | cons id parent ih =>
    rw [Invalidation.walk]
    split
    · rename_i onChain
      obtain ⟨walking', atTip'⟩ := walking.disconnectTip atTip onChain.1 onChain.2
      exact ih walking' atTip'
    · exact walking

end Invalidation

variable {node' : NodeIndex ι}

namespace NodeIndex

variable {node : NodeIndex ι} {pindex : IndexEntry ι}

section

variable (consistent : node.Consistent params outcomes)
include consistent

omit [DecidableEq ι] in
theorem Consistent.rank_of_linked (linked : node.nChainTx entry ≠ 0) :
    3 ≤ (node.validity entry).rank := by
  have nonempty := consistent.shape.ne_nil (consistent.counts.mem_of_linked linked)
  exact (consistent.levels.transactions entry).mpr
    (consistent.counts.sound entry linked entry suffix_rfl nonempty)

omit [DecidableEq ι] in
theorem Consistent.isValid_of_linked (unflagged : node.flagged entry = false)
    (linked : node.nChainTx entry ≠ 0) : node.isValid .transactions entry = true := by
  rw [isValid, unflagged, Bool.not_false, Bool.true_and, decide_eq_true_eq]
  exact consistent.rank_of_linked linked

variable (known : pindex ∈ node.blockIndex)
include known

theorem disconnectFrom_walking :
    Invalidation.Walking params outcomes pindex (node.disconnectFrom params pindex) := by
  refine Invalidation.Walking.walk ⟨consistent, known, ?_, ?_, ?_⟩ rfl
  · intro entry unflagged linked outside better
    refine .inl (mem_filter.mpr ⟨consistent.counts.mem_of_linked linked, ?_⟩)
    have off : node.chain.contains entry = false :=
      Bool.eq_false_iff.mpr fun inside => outside (ChainState.contains_iff.mp inside)
    simp [off, show node.worse params entry pindex.tail = false from better,
      consistent.isValid_of_linked unflagged linked, haveTxsDownloaded,
      show node.nChainTx entry ≠ 0 from linked]
  · intro entry member
    have properties := (mem_filter.mp member).2
    rw [Bool.and_eq_true, haveTxsDownloaded, decide_eq_true_eq] at properties
    exact properties.2
  · intro onChain failed
    have unflagged := (flagged_eq_false_iff.mp (consistent.clean.unflagged pindex onChain)).1
    rw [show node.chain.failedValid pindex = true from failed] at unflagged
    exact absurd unflagged Bool.false_ne_true.symm

theorem markInvalid_consistent (outside : ¬ pindex <:+ node.chain.tip) :
    (node.markInvalid params pindex).Consistent params outcomes := by
  have flags := markFailedValid_flags consistent.flags known
  have clean := markFailedValid_clean consistent.clean outside
  have counts := consistent.counts
  have levels := consistent.levels
  have members : ∀ entry, entry ∈ (node.markInvalid params pindex).chain.candidates ↔
      (entry ∈ node.blockIndex ∧ (node.markFailedValid pindex).isValid .transactions entry = true ∧
        node.nChainTx entry ≠ 0 ∧ node.worse params entry node.chain.tip = false) ∨
      (entry ∈ node.chain.candidates ∧ entry ≠ pindex) := by
    intro entry
    simp only [markInvalid, insertCandidates, mem_union_iff, eligibleCandidates,
      mem_filter, ChainState.erase, Bool.and_eq_true, Bool.not_eq_true', haveTxsDownloaded,
      decide_eq_true_eq, and_assoc]
    exact Iff.rfl
  refine ⟨⟨consistent.shape, counts.congr rfl rfl rfl rfl rfl rfl, levels.congr rfl rfl rfl rfl,
    flags.fresh, flags.cause, fun entry member => ?_⟩, ⟨clean.linked, clean.unflagged⟩,
    consistent.validated, fun entry member => ?_, fun entry unflagged linked better => ?_⟩
  · rcases mem_insert_iff.mp member with rfl | old
    · exact update_self _ _ _
    · exact flags.failedBlocks entry old
  · rcases (members entry).mp member with ⟨-, -, linked, better⟩ | ⟨old, -⟩
    · exact ⟨linked, better⟩
    · exact consistent.listed.inside entry old
  · refine (members entry).mpr (.inl ⟨consistent.counts.mem_of_linked linked, ?_, linked, better⟩)
    rw [isValid, show (node.markFailedValid pindex).flagged entry = false from unflagged,
      Bool.not_false, Bool.true_and, decide_eq_true_eq]
    exact consistent.rank_of_linked linked

theorem invalidateBlock_consistent (done : node.invalidateBlock params pindex = some node') :
    node'.Consistent params outcomes := by
  have walking := disconnectFrom_walking consistent known
  rw [invalidateBlock] at done
  split at done
  · split at done
    · cases done
      exact walking.consistent
    · cases done
  split at done
  · cases done
    exact walking.consistent
  · rename_i outside
    cases done
    refine markInvalid_consistent walking.consistent walking.known fun inside => ?_
    exact outside (ChainState.contains_iff.mpr inside)

end

/-! ## Reconsidering -/

/-- The proper ancestors of an entry carry no failure flag. -/
def Reconsiderable (node : NodeIndex ι) (pindex : IndexEntry ι) : Prop :=
  ∀ ancestor ∈ pindex.tail.tails, node.flagged ancestor = false

section

variable (consistent : node.Consistent params outcomes)
include consistent

theorem survives_reset_iff (mark : Bool) (entry : IndexEntry ι)
    (marked : mark = true → node.flagged entry = true) :
    (mark && !node.resets pindex entry && !entry.isSuffixOf pindex) = true ↔
      mark = true ∧ ¬ pindex <:+ entry ∧ ¬ entry <:+ pindex := by
  cases mark with
  | false => simp
  | true =>
    have flag := marked rfl
    have inside : entry ∈ node.blockIndex := by
      by_contra outside
      exact ne_true_of_eq_false (consistent.flags.fresh entry outside) flag
    have invalid : node.isValid .transactions entry = false := by
      rw [isValid, flag, Bool.not_true, Bool.false_and]
    have resets : node.resets pindex entry = pindex.isSuffixOf entry := by
      rw [resets, decide_eq_true inside, invalid, Bool.not_false, Bool.true_and, Bool.true_and]
    rw [resets, Bool.true_and, Bool.and_eq_true, Bool.not_eq_true', Bool.not_eq_true',
      ← Bool.not_eq_true, ← Bool.not_eq_true, isSuffixOf_iff_suffix,
      isSuffixOf_iff_suffix]
    exact (and_iff_right rfl).symm

theorem reset_failedValid_iff :
    (node.resetBlockFailureFlags params pindex).chain.failedValid entry = true ↔
      node.chain.failedValid entry = true ∧ ¬ pindex <:+ entry ∧ ¬ entry <:+ pindex :=
  survives_reset_iff consistent _ entry fun valid => by rw [flagged, valid]; rfl

theorem reset_flagged_iff :
    (node.resetBlockFailureFlags params pindex).flagged entry = true ↔
      node.flagged entry = true ∧ ¬ pindex <:+ entry ∧ ¬ entry <:+ pindex := by
  have child : (node.resetBlockFailureFlags params pindex).chain.failedChild entry = true ↔
      node.chain.failedChild entry = true ∧ ¬ pindex <:+ entry ∧ ¬ entry <:+ pindex :=
    survives_reset_iff consistent _ entry fun marked => by rw [flagged, marked, Bool.or_true]
  rw [flagged, Bool.or_eq_true, reset_failedValid_iff consistent, child, ← or_and_right,
    ← Bool.or_eq_true, flagged]

theorem reset_flagged_of_reconsiderable (reconsiderable : node.Reconsiderable pindex) :
    (node.resetBlockFailureFlags params pindex).flagged entry = true ↔
      node.flagged entry = true ∧ ¬ pindex <:+ entry := by
  rw [reset_flagged_iff consistent]
  refine and_congr_right fun flag => and_iff_left_of_imp fun outside above => ?_
  have proper : entry <:+ pindex.tail :=
    suffix_tail above fun same => outside (same ▸ suffix_rfl)
  exact ne_true_of_eq_false (reconsiderable entry ((mem_tails _ _).mpr proper)) flag

theorem reset_flags (reconsiderable : node.Reconsiderable pindex) :
    (node.resetBlockFailureFlags params pindex).Flags := by
  have flags := consistent.flags
  refine ⟨fun entry outside => ?_, fun entry flag => ?_, fun entry member => ?_⟩
  · by_contra flag
    have before := (reset_flagged_iff consistent).mp ((Bool.not_eq_false _).mp flag)
    rw [flags.fresh entry outside] at before
    exact Bool.false_ne_true before.1
  · obtain ⟨before, outside⟩ :=
      (reset_flagged_of_reconsiderable consistent reconsiderable).mp flag
    obtain ⟨ancestor, above, failed⟩ := flags.cause entry before
    refine ⟨ancestor, above, (reset_failedValid_iff consistent).mpr ⟨failed, ?_, fun below => ?_⟩⟩
    · exact fun inside => outside (inside.trans above)
    · have different : ancestor ≠ pindex := fun same => outside (same ▸ above)
      have clean := reconsiderable ancestor
        ((mem_tails _ _).mpr (suffix_tail below different))
      rw [flagged, failed, Bool.true_or] at clean
      exact Bool.false_ne_true clean.symm
  · obtain ⟨first, second⟩ := mem_filter.mp member
    obtain ⟨old, kept⟩ := mem_filter.mp first
    have failed := flags.failedBlocks entry old
    have still : (node.resetDescendants params pindex).flagged entry = true := by
      rw [flagged, Bool.or_eq_true]
      left
      change (node.chain.failedValid entry && !node.resets pindex entry) = true
      rw [failed, kept]
      rfl
    rw [still, Bool.and_true] at second
    change (node.chain.failedValid entry && !node.resets pindex entry &&
      !entry.isSuffixOf pindex) = true
    rw [failed, kept, second]
    rfl

end

theorem mem_reset :
    entry ∈ (node.resetBlockFailureFlags params pindex).chain.candidates ↔
      (entry ∈ node.blockIndex ∧ node.resets pindex entry = true ∧
        BlockValidity.transactions.rank ≤ (node.validity entry).rank ∧
        node.nChainTx entry ≠ 0 ∧ node.worse params node.chain.tip entry = true) ∨
      entry ∈ node.chain.candidates := by
  have cleared : ∀ mark other : Bool, (node.resets pindex entry = true →
      (!(mark && !node.resets pindex entry || other && !node.resets pindex entry)) = true) := by
    intro mark other resets
    rw [resets, Bool.not_true, Bool.and_false, Bool.and_false]
    rfl
  simp only [resetBlockFailureFlags, resetAncestors, resetDescendants, insertCandidates,
    mem_union_iff, mem_filter, Bool.and_eq_true, haveTxsDownloaded, isValid, flagged,
    decide_eq_true_eq, and_assoc]
  refine or_congr_left (and_congr_right fun _ => and_congr_right fun resets => ?_)
  exact and_iff_right (cleared _ _ resets)

theorem resetBlockFailureFlags_consistent (consistent : node.Consistent params outcomes)
    (reconsiderable : node.Reconsiderable pindex) :
    (node.resetBlockFailureFlags params pindex).Consistent params outcomes ∧
      Keeps node (node.resetBlockFailureFlags params pindex) := by
  have counts := consistent.counts
  have levels := consistent.levels
  have flags := reset_flags consistent reconsiderable
  have clean : ∀ entry, node.Clean entry →
      (node.resetBlockFailureFlags params pindex).Clean entry :=
    fun entry clean => clean.of_flags rfl fun marked flag =>
      ⟨marked, suffix_rfl, ((reset_flagged_iff consistent).mp flag).1⟩
  refine ⟨⟨⟨consistent.shape, counts.congr rfl rfl rfl rfl rfl rfl, levels.congr rfl rfl rfl rfl,
    flags⟩, clean _ consistent.clean, consistent.validated, fun entry member => ?_,
    fun entry unflagged linked better => ?_⟩, ⟨rfl, fun _ linked => linked, fun _ _ => rfl, clean⟩⟩
  · rcases mem_reset.mp member with ⟨-, -, -, linked, worse⟩ | old
    · exact ⟨linked, not_worse_of_worse worse⟩
    · exact consistent.listed.inside entry old
  · rw [mem_reset]
    cases before : node.flagged entry with
    | false => exact .inr (consistent.listed.offered entry before linked better)
    | true =>
      have above : pindex <:+ entry := by
        by_contra outside
        have still : (node.resetBlockFailureFlags params pindex).flagged entry = true :=
          (reset_flagged_of_reconsiderable consistent reconsiderable).mpr ⟨before, outside⟩
        exact ne_true_of_eq_false unflagged still
      have inside := counts.mem_of_linked linked
      have different : entry ≠ node.chain.tip := by
        rintro rfl
        exact ne_true_of_eq_false (consistent.clean.unflagged _ suffix_rfl) before
      refine .inl ⟨inside, ?_, consistent.rank_of_linked linked, linked, ?_⟩
      · rw [resets, decide_eq_true inside, isValid, before, Bool.not_true, Bool.false_and,
          Bool.not_false, Bool.true_and, Bool.true_and, isSuffixOf_iff_suffix]
        exact above
      · by_contra notWorse
        exact different (eq_of_not_worse better (Bool.eq_false_iff.mpr notWorse))

end NodeIndex

/-! ## Runs -/

namespace NodeState

/-- What the calls that can break the index must meet: a block that is stored
has a parent that is linked or without a failure flag, and its transactions fit
the 32-bit counters; a block that is reconsidered has no flagged ancestor. -/
def Meets (state : NodeState ι) : NodeEvent ι → Prop
  | .acceptBlock offer => state.node.Storable offer
  | .resetBlockFailureFlags pindex => state.node.Reconsiderable pindex
  | _ => True

/-- Every call of a run meets its condition in the state it is made in. -/
def MeetsAll (params : IndexParams ι) (outcomes : Outcomes ι) :
    List (NodeEvent ι) → NodeState ι → Prop
  | [], _ => True
  | event :: rest, state => state.Meets event ∧
      match state.step params outcomes event with
      | none => True
      | some state' => MeetsAll params outcomes rest state'

instance decidableMeets (state : NodeState ι) :
    (event : NodeEvent ι) → Decidable (state.Meets event)
  | .acceptBlockHeader _ => .isTrue trivial
  | .acceptBlock offer =>
    inferInstanceAs (Decidable (offer.checked = none →
      state.node.chain.haveData offer.entry = false →
      (state.node.haveTxsDownloaded offer.prev = true ∨ state.node.flagged offer.prev = false) ∧
        ∀ entry ∈ offer.entry :: state.node.blockIndex, offer.entry <:+ entry →
          total state.node.nTx entry + offer.numTxs < 2 ^ 32))
  | .activateBestChain _ => .isTrue trivial
  | .invalidateBlock _ => .isTrue trivial
  | .resetBlockFailureFlags pindex =>
    inferInstanceAs (Decidable (∀ ancestor ∈ pindex.tail.tails,
      state.node.flagged ancestor = false))

instance decidableMeetsAll (params : IndexParams ι) (outcomes : Outcomes ι) :
    (events : List (NodeEvent ι)) → (state : NodeState ι) →
      Decidable (MeetsAll params outcomes events state)
  | [], _ => .isTrue trivial
  | event :: rest, state =>
    match stepped : state.step params outcomes event with
    | none => decidable_of_iff (state.Meets event) (by simp [MeetsAll, stepped])
    | some state' =>
      have := decidableMeetsAll params outcomes rest state'
      decidable_of_iff (state.Meets event ∧ MeetsAll params outcomes rest state')
        (by simp [MeetsAll, stepped])

structure Sound (params : IndexParams ι) (outcomes : Outcomes ι) (state : NodeState ι) : Prop where
  consistent : state.node.Consistent params outcomes
  awaited : ∀ mostWork, state.activating = some mostWork → state.node.Awaited params mostWork

variable {state state' : NodeState ι}

omit [DecidableEq ι] in
theorem Sound.of_keeps (sound : state.Sound params outcomes)
    (consistent : node'.Consistent params outcomes) (keeps : NodeIndex.Keeps state.node node') :
    Sound params outcomes { state with node := node' } := by
  refine ⟨consistent, fun mostWork waiting something => ?_⟩
  obtain ⟨clean, better⟩ := sound.awaited mostWork waiting something
  refine ⟨keeps.clean _ clean, ?_⟩
  rw [keeps.tip, keeps.worse clean.linked sound.consistent.clean.linked]
  exact better

/-- A section of `ActivateBestChain` keeps the invariant. -/
theorem Sound.activateSection {passes : Nat} (sound : state.Sound params outcomes)
    (done : state.activateSection params outcomes passes = some state') :
    state'.Sound params outcomes := by
  have consistent := sound.consistent
  have awaited : state.node.Awaited params (state.activating.getD []) := by
    cases waiting : state.activating with
    | none => exact fun null => absurd rfl null
    | some mostWork => exact sound.awaited mostWork waiting
  have passing : state.node.Passing params outcomes state.node.chain.tip
      (state.activating.getD []) :=
    ⟨consistent.toIndexed, consistent.clean, consistent.validated, consistent.clean,
      consistent.validated, consistent.listed, .inl rfl, awaited⟩
  simp only [NodeState.activateSection, bind_eq_bind, bind_eq_some_iff] at done
  obtain ⟨exit, ran, final, left, rest⟩ := done
  subst left
  obtain ⟨consistent', awaited'⟩ := Activation.run_consistent passing ran
  split at rest
  · cases rest
    exact ⟨consistent', fun mostWork waiting => by cases waiting; exact awaited'⟩
  · cases rest
    exact ⟨consistent', nofun⟩

theorem genesis_nTx {params : IndexParams ι} :
    (genesis params).nTx entry ≠ 0 ↔ entry = [params.hashGenesisBlock] := by
  simp [genesis]

theorem genesis_counts (params : IndexParams ι) : (genesis params).Counts [] := by
  have same : (genesis params).nChainTx = (genesis params).nTx := rfl
  have one : (genesis params).nTx [params.hashGenesisBlock] = 1 := if_pos rfl
  have total : total (genesis params).nTx [params.hashGenesisBlock] = 1 := by
    rw [total, total, one]
  refine ⟨fun entry outside => ?_, fun entry => ?_, fun entry unlinked => ?_,
    fun entry linked ancestor above something => ?_, fun id parent linked something => ?_,
    fun entry something complete => .inl ?_, fun entry linked => ?_, fun entry inside => ?_,
    nodup_nil, (fun _ absurd => by cases absurd), nodup_nil, (fun _ _ absurd => by cases absurd),
    fun id parent something received _ => ?_⟩
  · have different : entry ≠ [params.hashGenesisBlock] :=
      fun root => outside (mem_singleton.mpr root)
    exact ⟨if_neg different, if_neg different⟩
  · by_cases root : entry = [params.hashGenesisBlock] <;> simp [genesis, root]
  · rw [same] at unlinked
    have different : entry ≠ [params.hashGenesisBlock] := fun root => genesis_nTx.mpr root unlinked
    exact (if_neg different).le
  · rw [same, genesis_nTx] at linked
    subst linked
    rcases suffix_cons_iff.mp above with here | null
    · rw [here, one]
      exact Nat.one_pos
    · exact absurd (suffix_nil.mp null) something
  · rw [same, genesis_nTx, cons.injEq] at linked
    exact absurd linked.2 something
  · exact (complete entry suffix_rfl something).ne'
  · rw [same, genesis_nTx] at linked
    subst linked
    rw [same, one, total]
  · rw [mem_singleton.mp inside, total]
    decide
  · have root := genesis_nTx.mp received.ne'
    rw [cons.injEq] at root
    exact absurd root.2 something

theorem genesis_consistent (params : IndexParams ι) (outcomes : Outcomes ι) :
    (genesis params).Consistent params outcomes := by
  have linked : (genesis params).nChainTx [params.hashGenesisBlock] ≠ 0 :=
    genesis_nTx.mpr rfl
  have level : ∀ entry, (((genesis params).validity entry).rank =
      if entry = [params.hashGenesisBlock] then 3 else 0) := by
    intro entry
    by_cases root : entry = [params.hashGenesisBlock] <;>
      simp [genesis, root, BlockValidity.rank]
  refine ⟨⟨⟨nodup_singleton _, mem_singleton_self _, ?_, fun id parent inside => ?_⟩,
    genesis_counts params,
    ⟨fun entry inside => ?_, fun entry => ?_, fun entry reached => ?_, nofun⟩,
    ⟨fun _ _ => rfl, nofun, nofun⟩⟩, ⟨linked, fun _ _ => rfl⟩, fun ancestor above root => ?_,
    fun entry inside => ?_, fun entry _ counted _ => ?_⟩
  · exact fun null => cons_ne_nil _ _ (mem_singleton.mp null).symm
  · have root := mem_singleton.mp inside
    rw [cons.injEq] at root
    exact .inl ⟨root.2, root.1⟩
  · rw [level, if_pos (mem_singleton.mp inside)]
    decide
  · rw [level, pos_iff_ne_zero, genesis_nTx]
    split <;> simp_all
  · rw [level] at reached
    split at reached <;> omega
  · have here : ancestor = [params.hashGenesisBlock] := by
      rcases suffix_cons_iff.mp above with here | null
      · exact here
      · exact absurd (by rw [suffix_nil.mp null]; rfl) root
    exact absurd (by rw [here]; rfl) root
  · obtain rfl := mem_singleton.mp inside
    exact ⟨linked, not_worse_self _⟩
  · exact mem_singleton.mpr (genesis_nTx.mp counted)

/-- One call keeps the invariant. -/
theorem Sound.step {event : NodeEvent ι} (sound : state.Sound params outcomes)
    (meets : state.Meets event) (done : state.step params outcomes event = some state') :
    state'.Sound params outcomes := by
  cases event with
  | acceptBlockHeader offer =>
    rw [NodeState.step, map_eq_some_iff] at done
    obtain ⟨⟨node, accepted⟩, header, rfl⟩ := done
    obtain ⟨consistent, keeps, -⟩ :=
      acceptBlockHeader_consistent sound.consistent header
    exact sound.of_keeps consistent keeps
  | acceptBlock offer =>
    rw [NodeState.step, map_eq_some_iff] at done
    obtain ⟨⟨node, accepted⟩, block, rfl⟩ := done
    obtain ⟨consistent, keeps⟩ := acceptBlock_consistent sound.consistent meets block
    exact sound.of_keeps consistent keeps
  | activateBestChain passes => exact sound.activateSection done
  | invalidateBlock pindex =>
    rw [NodeState.step] at done
    split at done
    · rename_i allowed
      rw [map_eq_some_iff] at done
      obtain ⟨node, invalidated, rfl⟩ := done
      refine ⟨invalidateBlock_consistent sound.consistent allowed.1 invalidated, ?_⟩
      intro mostWork waiting
      rw [show state.activating = some mostWork from waiting] at allowed
      exact absurd allowed.2 (some_ne_none _)
    · cases done
  | resetBlockFailureFlags pindex =>
    rw [NodeState.step] at done
    split at done
    · cases done
      obtain ⟨consistent, keeps⟩ :=
        resetBlockFailureFlags_consistent sound.consistent meets
      exact sound.of_keeps consistent keeps
    · cases done

/-- A run keeps the invariant. -/
theorem Sound.run {events : List (NodeEvent ι)} (sound : state.Sound params outcomes)
    (meets : MeetsAll params outcomes events state)
    (ran : run params outcomes events state = some state') : state'.Sound params outcomes := by
  induction events generalizing state with
  | nil =>
    cases ran
    exact sound
  | cons event rest ih =>
    rw [run, bind_eq_bind, bind_eq_some_iff] at ran
    obtain ⟨middle, stepped, ran⟩ := ran
    rw [MeetsAll, stepped] at meets
    exact ih (sound.step meets.1 stepped) meets.2 ran

/-- After every run of a new node whose calls meet their conditions, all
assertions of `CheckBlockIndex` hold; in particular an entry with all its data,
without a failed ancestor and no worse than the tip is a candidate, and no
candidate is worse than the tip. -/
theorem checkBlockIndex_after_run (params : IndexParams ι) (outcomes : Outcomes ι)
    (events : List (NodeEvent ι)) (state : NodeState ι)
    (meets : MeetsAll params outcomes events ⟨.genesis params, none⟩)
    (ran : run params outcomes events ⟨.genesis params, none⟩ = some state) :
    state.node.checkBlockIndex params = true ∧
      (∀ entry ∈ state.node.blockIndex,
        (∀ ancestor, ancestor <:+ entry → ancestor ≠ [] →
          state.node.chain.haveData ancestor = true ∧
            state.node.chain.failedValid ancestor = false) →
        state.node.worse params entry state.node.chain.tip = false →
        entry ∈ state.node.chain.candidates) ∧
      ∀ entry ∈ state.node.chain.candidates,
        state.node.worse params entry state.node.chain.tip = false := by
  have start : Sound params outcomes ⟨genesis params, none⟩ :=
    ⟨genesis_consistent params outcomes, nofun⟩
  have consistent := (start.run meets ran).consistent
  refine ⟨consistent.checkBlockIndex, fun entry inside good better => ?_,
    fun entry member => (consistent.listed.inside entry member).2⟩
  refine consistent.listed.offered entry (consistent.flags.flagged_of_valid ?_) ?_ better
  · intro ancestor above
    by_cases null : ancestor = []
    · subst null
      exact (flagged_eq_false_iff.mp (consistent.flags.fresh [] consistent.shape.noNull)).1
    · exact (good ancestor above null).2
  · refine (consistent.counts.linked_iff (consistent.shape.ne_nil inside)).mpr fun ancestor above
      something => ?_
    have data := (good ancestor above something).1
    rw [consistent.counts.data, decide_eq_true_eq] at data
    exact data

/-! ## Concrete runs -/

def unitParams : IndexParams Nat where
  hashGenesisBlock := 0
  blockProof := fun _ => 1
  address := heightTree.address
  minimumChainWork := 0
  blockProof_pos := fun _ => Nat.one_pos
  address_injective := heightTree.address_injective

def coinbaseOnly (hash : Nat) (prev : IndexEntry Nat) : BlockOffer Nat where
  hash := hash
  prev := prev
  checkBlockHeader := true
  contextualCheckBlockHeader := true
  fRequested := true
  checked := none
  numTxs := 1
  nonempty := fun _ => Nat.one_pos

/-- The run of calls of a new node on which every block connects. -/
def runCalls (events : List (NodeEvent Nat)) : Option (NodeState Nat) :=
  run unitParams (fun _ => none) events ⟨.genesis unitParams, none⟩

/-- A block and its child are connected, invalidated and reconsidered. -/
def reconsideredBlock : List (NodeEvent Nat) :=
  [.acceptBlock (coinbaseOnly 1 [0]), .activateBestChain 4, .acceptBlock (coinbaseOnly 2 [1, 0]),
    .activateBestChain 4, .invalidateBlock [1, 0], .resetBlockFailureFlags [1, 0],
    .activateBestChain 4]

theorem reconsideredBlock_checked :
    ∃ state, runCalls reconsideredBlock = some state ∧
      state.node.checkBlockIndex unitParams = true := by
  have returns : (runCalls reconsideredBlock).isSome = true := by decide +kernel
  obtain ⟨state, ran⟩ := isSome_iff_exists.mp returns
  have checked := checkBlockIndex_after_run unitParams (fun _ => none) reconsideredBlock state
    (by decide +kernel) ran
  exact ⟨state, ran, checked.1⟩

def reconsideredHeader : List (NodeEvent Nat) :=
  [.acceptBlock (coinbaseOnly 1 [0]), .acceptBlockHeader (coinbaseOnly 2 [1, 0]).toHeaderOffer,
    .invalidateBlock [1, 0], .resetBlockFailureFlags [2, 1, 0]]

/-- The parent of a stored block is invalidated before the child's data and
after that the grandparent's data arrive. -/
def invalidatedParent : List (NodeEvent Nat) :=
  [.acceptBlockHeader (coinbaseOnly 1 [0]).toHeaderOffer,
    .acceptBlockHeader (coinbaseOnly 2 [1, 0]).toHeaderOffer,
    .acceptBlockHeader (coinbaseOnly 3 [2, 1, 0]).toHeaderOffer,
    .acceptBlock (coinbaseOnly 2 [1, 0]), .invalidateBlock [2, 1, 0],
    .acceptBlock (coinbaseOnly 3 [2, 1, 0]), .acceptBlock (coinbaseOnly 1 [0])]

/-- After the first run a valid block with its data that is no worse than the
tip is not a candidate; after the second one a block and its ancestors have
their transactions and the block is not linked. -/
theorem checkBlockIndex_fails :
    (∃ state, runCalls reconsideredHeader = some state ∧
      state.node.checkBlockIndex unitParams = false ∧
      (∀ entry ∈ [[1, 0], [0]], state.node.chain.haveData entry = true ∧
        state.node.flagged entry = false) ∧
      state.node.worse unitParams [1, 0] state.node.chain.tip = false ∧
      [1, 0] ∉ state.node.chain.candidates) ∧
    ∃ state, runCalls invalidatedParent = some state ∧
      state.node.checkBlockIndex unitParams = false ∧
      (∀ entry ∈ [[3, 2, 1, 0], [2, 1, 0], [1, 0], [0]], 0 < state.node.nTx entry) ∧
      state.node.haveTxsDownloaded [3, 2, 1, 0] = false := by
  refine ⟨⟨(runCalls reconsideredHeader).get (by decide +kernel), (some_get _).symm, ?_⟩,
    (runCalls invalidatedParent).get (by decide +kernel), (some_get _).symm, ?_⟩
  · decide +kernel
  · decide +kernel

end NodeState

end MooncoinFormal.Validation
