import MooncoinFormal.Validation.IndexBlocks

/-!
# Activation keeps the index consistent

The section of `ActivateBestChain` under `cs_main`. Inside it the active chain
may end below the tip it started from, and the candidates are then those of the
starting tip; the inner loop is left only when the tip is no worse than that
one, with the candidates of the new tip. What is connected was validated before
or succeeds now, so a reorganisation that fails finds its way back.
-/

namespace MooncoinFormal.Validation

open Library List ChainState LoopState

variable {ι : Type} [DecidableEq ι]

/-! ## The search -/

variable {candidate entry test : IndexEntry ι}

namespace ChainState

variable {tree : BlockTree ι} {state state' : ChainState ι}

omit [DecidableEq ι] in
/-- `nStatus & BLOCK_FAILED_MASK`, in the chain state. -/
def failed (state : ChainState ι) (entry : IndexEntry ι) : Bool :=
  state.failedValid entry || state.failedChild entry

/-- The entries of a candidate's chain above an ancestor. -/
def Between (test candidate entry : IndexEntry ι) : Prop :=
  entry <:+ candidate ∧ test <:+ entry ∧ entry ≠ test

/-- What a search does when every candidate has its data: flags are added above
flagged entries of candidates, and only flagged candidates are dropped. -/
structure Searched (state state' : ChainState ι) : Prop extends SameChain state state' where
  kept : ∀ entry, state.failedChild entry = true → state'.failedChild entry = true
  added : ∀ entry, state'.failedChild entry = true → state.failedChild entry = true ∨
    ∃ candidate ∈ state.candidates, ∃ test, Between test candidate entry ∧ state.failed test = true
  lost : ∀ entry ∈ state.candidates, entry ∉ state'.candidates → state'.failed entry = true

omit [DecidableEq ι] in
theorem Searched.refl (state : ChainState ι) : Searched state state :=
  ⟨.refl state, fun _ => id, fun _ => .inl, fun _ inside outside => absurd inside outside⟩

omit [DecidableEq ι] in
theorem Searched.failed_of_failed (searched : Searched state state')
    (marked : state.failed entry = true) : state'.failed entry = true := by
  rw [failed, Bool.or_eq_true] at marked ⊢
  rw [searched.failedValid]
  exact marked.imp_right (searched.kept entry)

omit [DecidableEq ι] in
/-- A flag that the search added lies above one that was there. -/
theorem Searched.cause (searched : Searched state state') (marked : state'.failed entry = true) :
    ∃ test, test <:+ entry ∧ state.failed test = true := by
  rw [failed, Bool.or_eq_true, searched.failedValid] at marked
  rcases marked with valid | child
  · exact ⟨entry, suffix_rfl, by rw [failed, valid]; rfl⟩
  · rcases searched.added entry child with before | ⟨_, -, test, ⟨-, above, -⟩, cause⟩
    · exact ⟨entry, suffix_rfl, by rw [failed, before, Bool.or_true]⟩
    · exact ⟨test, above, cause⟩

variable {first second third : ChainState ι}

omit [DecidableEq ι] in
theorem Searched.trans (left : Searched first second)
    (right : Searched second third) : Searched first third where
  toSameChain := left.toSameChain.trans right.toSameChain
  kept := fun entry marked => right.kept entry (left.kept entry marked)
  added := by
    intro entry marked
    rcases right.added entry marked with before | ⟨candidate, inside, test, between, cause⟩
    · exact left.added entry before
    · obtain ⟨deeper, below, origin⟩ := left.cause cause
      refine .inr ⟨candidate, left.candidates.subset inside, deeper,
        ⟨between.1, below.trans between.2.1, ?_⟩, origin⟩
      rintro rfl
      exact between.2.2 (between.2.1.eq_of_length_le below.length_le).symm
  lost := by
    intro entry inside outside
    by_cases middle : entry ∈ second.candidates
    · exact right.lost entry middle outside
    · exact right.failed_of_failed (left.lost entry inside middle)

theorem removeChain_spec (below : test <:+ candidate) (state : ChainState ι)
    (entry : IndexEntry ι) :
    ((removeChain true test candidate state).failedChild entry = true ↔
      state.failedChild entry = true ∨ Between test candidate entry) ∧
    (entry ∈ (removeChain true test candidate state).candidates ↔
      entry ∈ state.candidates ∧ ¬ Between test candidate entry) := by
  induction candidate generalizing state with
  | nil =>
    have never : ¬ Between test [] entry := by
      rintro ⟨inside, above, different⟩
      obtain rfl := suffix_nil.mp inside
      exact different (suffix_nil.mp above).symm
    simp [removeChain, never]
  | cons id parent ih =>
    rw [removeChain]
    split
    · rename_i same
      have never : ¬ Between test (id :: parent) entry := by
        rintro ⟨inside, above, different⟩
        rw [same] at inside
        exact different (inside.eq_of_length_le above.length_le)
      simp [never]
    · rename_i different
      have deeper := (suffix_cons_iff.mp below).resolve_left (Ne.symm different)
      have between : Between test (id :: parent) entry ↔
          entry = id :: parent ∨ Between test parent entry := by
        rw [Between, suffix_cons_iff]
        constructor
        · rintro ⟨here | inside, rest⟩
          · exact .inl here
          · exact .inr ⟨inside, rest⟩
        · rintro (rfl | ⟨inside, rest⟩)
          · exact ⟨.inl rfl, below, different⟩
          · exact ⟨.inr inside, rest⟩
      obtain ⟨flags, members⟩ := ih deeper { state.erase (id :: parent) with
        failedChild := fun entry =>
          state.failedChild entry || (true && decide (entry = id :: parent)) }
      rw [flags, members, between]
      simp only [erase, Bool.true_and, Bool.or_eq_true, decide_eq_true_eq, mem_filter,
        ne_eq, or_assoc, not_or, and_assoc, true_and]

theorem firstUnusable_eq_some (found : state.firstUnusable tree candidate = .ok (some test)) :
    test <:+ candidate ∧ test ≠ [] ∧ state.usable test = false := by
  induction candidate with
  | nil =>
    cases found
  | cons id parent ih =>
    rw [firstUnusable] at found
    split at found
    · cases found
    split at found
    · cases found
    split at found
    · obtain ⟨above, rest⟩ := ih found
      exact ⟨above.trans (suffix_cons _ _), rest⟩
    · rename_i unusable
      cases found
      exact ⟨suffix_rfl, cons_ne_nil _ _, by simpa using unusable⟩

theorem dropCandidate_searched (below : test <:+ candidate) (inside : candidate ∈ state.candidates)
    (cause : state.failed test = true) : Searched state (state.dropCandidate candidate test) := by
  have same := dropCandidate_sameChain state candidate test
  have walk : state.dropCandidate candidate test =
      (removeChain true test candidate state).erase test := by
    rw [dropCandidate, show (state.failedValid test || state.failedChild test) = true from cause]
  rw [walk] at same ⊢
  refine ⟨same, fun entry marked => ?_, fun entry marked => ?_, fun entry member dropped => ?_⟩
  · exact (removeChain_spec below state entry).1.mpr (.inl marked)
  · rcases (removeChain_spec below state entry).1.mp marked with before | between
    · exact .inl before
    · exact .inr ⟨candidate, inside, test, between, cause⟩
  · have valid : ((removeChain true test candidate state).erase test).failedValid =
        state.failedValid := same.failedValid
    rw [failed, valid, Bool.or_eq_true]
    by_cases here : entry = test
    · subst here
      rw [failed, Bool.or_eq_true] at cause
      exact cause.imp_right fun marked => (removeChain_spec below state entry).1.mpr (.inl marked)
    · by_cases between : Between test candidate entry
      · exact .inr ((removeChain_spec below state entry).1.mpr (.inr between))
      · refine absurd ?_ dropped
        have remains := (removeChain_spec below state entry).2.mpr ⟨member, between⟩
        exact mem_filter.mpr ⟨remains, decide_eq_true here⟩

theorem findMostWorkChainLoop_searched {rounds : Nat}
    (data : ∀ entry ∈ state.candidates, ∀ ancestor, ancestor <:+ entry → ancestor ≠ [] →
      state.haveData ancestor = true)
    (found : findMostWorkChainLoop tree rounds state = .ok (state', candidate)) :
    Searched state state' := by
  induction rounds generalizing state with
  | zero =>
    cases found
    exact .refl _
  | succ rounds ih =>
    rw [findMostWorkChainLoop] at found
    split at found
    · cases found
      exact .refl _
    rename_i top best
    have inside := (BlockTree.best_spec best).1
    split at found
    · cases found
    · cases found
      exact .refl _
    · rename_i test walk
      obtain ⟨below, nonempty, unusable⟩ := firstUnusable_eq_some walk
      have cause : state.failed test = true := by
        rw [usable, data top inside test below nonempty, Bool.and_true,
          Bool.not_eq_false'] at unusable
        exact unusable
      have first := dropCandidate_searched below inside cause
      refine first.trans (ih (fun entry member ancestor above something => ?_) found)
      rw [first.haveData]
      exact data entry (first.candidates.subset member) ancestor above something

/-! ## The blocks to connect -/

/-- What the loop over the blocks does: the tip moves up towards the candidate
through blocks that connect, the block after the last one may be condemned, and
candidates are dropped when they are worse than the new tip or condemned. -/
structure Moved (tree : BlockTree ι) (outcomes : Outcomes ι) (candidate : IndexEntry ι)
    (state state' : ChainState ι) (invalid : Bool) : Prop where
  above : state.tip <:+ state'.tip
  below : state'.tip <:+ candidate
  connects : ∀ entry, entry <:+ state'.tip → ¬ entry <:+ state.tip → outcomes entry = none
  failedChild : state'.failedChild = state.failedChild
  haveData : state'.haveData = state.haveData
  marks : state'.failedValid = state.failedValid ∨
    (invalid = true ∧ ∃ id, id :: state'.tip <:+ candidate ∧ outcomes (id :: state'.tip) ≠ none ∧
      state'.failedValid = fun other =>
        state.failedValid other || decide (other = id :: state'.tip))
  fewer : ∀ entry ∈ state'.candidates, entry ∈ state.candidates
  lost : ∀ entry ∈ state.candidates, entry ∉ state'.candidates →
    tree.workComparator entry state'.tip = true ∨ state'.failedValid entry = true
  pruned : state'.tip = state.tip ∨
    ∀ entry ∈ state'.candidates, tree.workComparator entry state'.tip = false

omit [DecidableEq ι] in
theorem workComparator_descendant {pa pb pc : IndexEntry ι}
    (worse : tree.workComparator pa pb = true) (above : pb <:+ pc) :
    tree.workComparator pa pc = true := by
  have ahead : tree.workComparator pc pb = false := BlockTree.workComparator_ancestor above
  rw [BlockTree.workComparator_eq_false] at ahead
  rw [BlockTree.workComparator_iff] at worse ⊢
  omega

variable {outcomes : Outcomes ι} {invalid : Bool}

theorem pruneBlockIndexCandidates_moved {id : ι} (onPath : id :: state.tip <:+ candidate)
    (connects : outcomes (id :: state.tip) = none)
    (done : pruneBlockIndexCandidates tree { state with tip := id :: state.tip } = .ok state') :
    Moved tree outcomes candidate state state' false ∧ state'.tip = id :: state.tip := by
  rw [pruneBlockIndexCandidates] at done
  split at done
  · cases done
  · cases done
    refine ⟨⟨suffix_cons _ _, onPath, fun entry inside outside => ?_, rfl, rfl, .inl rfl,
      fun entry member => (mem_filter.mp member).1, fun entry member dropped => .inl ?_,
      .inr fun entry member => ?_⟩, rfl⟩
    · rw [(suffix_cons_iff.mp inside).resolve_right outside]
      exact connects
    · by_contra better
      exact dropped (mem_filter.mpr ⟨member, by simpa using better⟩)
    · simpa using (mem_filter.mp member).2

theorem Moved.trans (left : Moved tree outcomes candidate first second false)
    (right : Moved tree outcomes candidate second third invalid)
    (prunedFirst : ∀ entry ∈ second.candidates, tree.workComparator entry second.tip = false) :
    Moved tree outcomes candidate first third invalid where
  above := left.above.trans right.above
  below := right.below
  connects := by
    intro entry inside outside
    by_cases middle : entry <:+ second.tip
    · exact left.connects entry middle outside
    · exact right.connects entry inside middle
  failedChild := right.failedChild.trans left.failedChild
  haveData := right.haveData.trans left.haveData
  marks := by
    have same := left.marks.resolve_right fun marked => Bool.false_ne_true marked.1
    rw [← same]
    exact right.marks
  fewer := fun entry member => left.fewer entry (right.fewer entry member)
  lost := by
    intro entry member dropped
    by_cases middle : entry ∈ second.candidates
    · exact right.lost entry middle dropped
    · rcases left.lost entry member middle with worse | marked
      · exact .inl (workComparator_descendant worse right.above)
      · refine .inr ?_
        rcases right.marks with same | ⟨-, _, -, -, more⟩
        · rw [same]
          exact marked
        · rw [more]
          simp only [marked, Bool.true_or]
  pruned := by
    refine .inr fun entry member => ?_
    rcases right.pruned with same | best
    · rw [same]
      exact prunedFirst entry (right.fewer entry member)
    · exact best entry member

theorem Moved.stay (onPath : state.tip <:+ candidate) :
    Moved tree outcomes candidate state state invalid where
  above := suffix_rfl
  below := onPath
  connects := fun _ inside outside => absurd inside outside
  failedChild := rfl
  haveData := rfl
  marks := .inl rfl
  fewer := fun _ member => member
  lost := fun _ member dropped => absurd member dropped
  pruned := .inl rfl

theorem invalidBlockFound_moved {id : ι} {result : BlockValidationResult}
    (onPath : id :: state.tip <:+ candidate) (refused : outcomes (id :: state.tip) = some result)
    (done : state.invalidBlockFound (id :: state.tip) result = .ok state') :
    Moved tree outcomes candidate state state' true := by
  have below : state.tip <:+ candidate := (suffix_cons _ _).trans onPath
  rw [invalidBlockFound] at done
  split at done
  · dsimp only at done
    split at done
    · cases done
    · cases done
      refine ⟨suffix_rfl, below, fun _ inside outside => absurd inside outside, rfl, rfl,
        .inr ⟨rfl, id, onPath, refused.trans_ne (Option.some_ne_none _), rfl⟩,
        fun entry member => (mem_filter.mp member).1,
        fun entry member dropped => .inr ?_, .inl rfl⟩
      by_cases here : entry = id :: state.tip
      · simp [here]
      · exact absurd (mem_filter.mpr ⟨member, decide_eq_true here⟩) dropped
  · cases done
    exact .stay below

theorem connectBlocks_moved {oldTip : IndexEntry ι} {entries : List (IndexEntry ι)}
    (path : Ascends candidate state.tip entries)
    (done : connectBlocks tree outcomes oldTip entries state = .ok (state', invalid)) :
    Moved tree outcomes candidate state state' invalid := by
  induction entries generalizing state with
  | nil =>
    cases done
    exact .stay path.suffix
  | cons entry rest ih =>
    obtain ⟨id, rfl, higher⟩ := path.cons_inv
    rw [connectBlocks] at done
    cases outcome : outcomes (id :: state.tip) with
    | some result =>
      rw [outcome] at done
      dsimp only at done
      cases found : state.invalidBlockFound (id :: state.tip) result with
      | error abort =>
        rw [found] at done
        cases done
      | ok marked =>
        rw [found] at done
        cases done
        exact invalidBlockFound_moved higher.suffix outcome found
    | none =>
      rw [outcome] at done
      dsimp only at done
      split at done
      · cases done
      rename_i pruned prune
      obtain ⟨first, tip⟩ := pruneBlockIndexCandidates_moved higher.suffix outcome prune
      have best := first.pruned.resolve_left fun same =>
        cons_ne_self id state.tip (tip.symm.trans same)
      split at done
      · cases done
        exact first
      · rw [← tip] at higher
        exact first.trans (ih higher done) best

theorem activateBestChainStep_moved
    (done : activateBestChainStep tree outcomes state candidate = .ok (state', invalid)) :
    Moved tree outcomes candidate
      { state with tip := state.findFork candidate } state' invalid := by
  obtain ⟨below, inside, -⟩ := findFork_spec state candidate
  rw [activateBestChainStep, disconnectTo_eq inside] at done
  exact connectBlocks_moved (toConnect_ascends below) done

end ChainState

/-! ## A pass of the inner loop -/

namespace NodeIndex

variable {params : IndexParams ι} {outcomes : Outcomes ι} {node : NodeIndex ι}
  {startingTip mostWork : IndexEntry ι}

/-- The state at the head of the inner loop: the chain and the chain of the
starting tip have been connected, the candidates are those of the starting tip,
and a candidate kept from the pass before is still good. -/
structure Passing (params : IndexParams ι) (outcomes : Outcomes ι)
    (startingTip mostWork : IndexEntry ι) (node : NodeIndex ι) : Prop
    extends Indexed params outcomes node where
  clean : node.Clean node.chain.tip
  validated : node.Validated node.chain.tip
  startClean : node.Clean startingTip
  startValidated : node.Validated startingTip
  listed : node.Listed params startingTip
  behind : node.chain.tip = startingTip ∨ node.worse params node.chain.tip startingTip = true
  target : mostWork ≠ [] → node.Clean mostWork ∧ node.worse params mostWork startingTip = false

omit [DecidableEq ι] in
theorem Passing.start_mem (passing : node.Passing params outcomes startingTip mostWork) :
    startingTip ∈ node.chain.candidates :=
  passing.listed.offered startingTip (passing.startClean.unflagged _ suffix_rfl)
    passing.startClean.linked (not_worse_self startingTip)

section

variable (passing : node.Passing params outcomes startingTip mostWork)
include passing

omit [DecidableEq ι] in
/-- The data of the ancestors of candidates is there. -/
theorem Passing.data :
    ∀ entry ∈ node.chain.candidates, ∀ ancestor, ancestor <:+ entry → ancestor ≠ [] →
      node.chain.haveData ancestor = true := by
  intro entry member ancestor above something
  have linked := (passing.listed.inside entry member).1
  rw [passing.counts.data, decide_eq_true_eq]
  exact passing.counts.sound entry linked ancestor above something

/-- The search keeps the invariant. -/
theorem Passing.searched {chain : ChainState ι} (searched : ChainState.Searched node.chain chain) :
    ({ node with chain := chain } : NodeIndex ι).Passing params outcomes startingTip [] := by
  have clean : ∀ entry, node.Clean entry →
      ({ node with chain := chain } : NodeIndex ι).Clean entry :=
    fun entry clean => clean.of_flags rfl fun marked flag => searched.cause flag
  refine ⟨⟨passing.shape, passing.counts.congr rfl rfl rfl rfl rfl searched.haveData,
    passing.levels.congr rfl rfl rfl rfl, ?_⟩, ?_, ?_, clean _ passing.startClean,
    passing.startValidated, ?_, ?_, fun null => absurd rfl null⟩
  · refine ⟨fun entry outside => ?_, fun entry flag => ?_, fun entry member => ?_⟩
    · refine Bool.eq_false_iff.mpr fun flag => ?_
      have before := passing.flags.fresh entry outside
      rw [flagged_eq_false_iff] at before
      have marked : (chain.failedValid entry || chain.failedChild entry) = true := flag
      rw [searched.failedValid, before.1, Bool.false_or] at marked
      rcases searched.added entry marked with old | ⟨candidate, inside, test, between, -⟩
      · exact ne_true_of_eq_false before.2 old
      · have linked := (passing.listed.inside candidate inside).1
        refine outside (passing.shape.ancestor (passing.counts.mem_of_linked linked) between.1 ?_)
        rintro rfl
        exact between.2.2 (suffix_nil.mp between.2.1).symm
    · obtain ⟨test, above, cause⟩ := searched.cause flag
      obtain ⟨ancestor, below, failed⟩ := passing.flags.cause test cause
      refine ⟨ancestor, below.trans above, ?_⟩
      rw [searched.failedValid]
      exact failed
    · change chain.failedValid entry = true
      rw [searched.failedValid]
      exact passing.flags.failedBlocks entry member
  · dsimp only
    rw [searched.tip]
    exact clean _ passing.clean
  · dsimp only
    rw [searched.tip]
    exact passing.validated
  · refine ⟨fun entry member => ?_, fun entry unflagged linked better => ?_⟩
    · exact passing.listed.inside entry (searched.candidates.subset member)
    · have before : node.flagged entry = false :=
        Bool.eq_false_iff.mpr fun flag =>
          ne_true_of_eq_false unflagged (searched.failed_of_failed flag)
      by_contra dropped
      have marked := searched.lost entry (passing.listed.offered entry before linked better) dropped
      exact ne_true_of_eq_false unflagged marked
  · dsimp only
    rw [searched.tip]
    exact passing.behind

/-- The choice of a candidate keeps the invariant, and there is one. -/
theorem Passing.select {chain : ChainState ι} {target : IndexEntry ι}
    (selected : select (node.tree params) ⟨node.chain, mostWork⟩ = .ok (chain, target)) :
    ({ node with chain := chain } : NodeIndex ι).Passing params outcomes startingTip target ∧
      target ≠ [] ∧ chain.tip = node.chain.tip ∧ chain.failedValid = node.chain.failedValid := by
  rw [LoopState.select] at selected
  split at selected
  · have noNull : [] ∉ node.chain.candidates := by
      intro member
      exact passing.shape.noNull
        (passing.counts.mem_of_linked (passing.listed.inside [] member).1)
    have searched := findMostWorkChainLoop_searched passing.data selected
    have after := passing.searched searched
    obtain ⟨-, ⟨-, empty⟩ | ⟨something, chosen⟩⟩ :=
      findMostWorkChain_spec noNull selected
    · have member := after.start_mem
      rw [empty] at member
      exact absurd member not_mem_nil
    · refine ⟨{ after with target := fun _ => ?_ }, something, searched.tip, searched.failedValid⟩
      obtain ⟨linked, better⟩ := after.listed.inside target (BlockTree.best_spec chosen.best).1
      refine ⟨⟨linked, fun ancestor above => ?_⟩, better⟩
      by_cases onChain : ancestor <:+ chain.tip
      · exact after.clean.unflagged ancestor onChain
      · have nonempty : ancestor ≠ [] := fun null => onChain (null ▸ nil_suffix)
        have usable := (chosen.path ancestor above nonempty onChain).1
        rw [ChainState.usable, Bool.and_eq_true, Bool.not_eq_true'] at usable
        exact usable.1
  · rename_i something
    cases selected
    exact ⟨passing, something, rfl, rfl⟩

end

/-! ## A step -/

section Step

variable {chain : ChainState ι} {target : IndexEntry ι} {invalid : Bool}

/-- What is known of a step towards a good candidate. -/
structure Stepping (params : IndexParams ι) (outcomes : Outcomes ι)
    (startingTip target : IndexEntry ι) (node : NodeIndex ι) (chain : ChainState ι)
    (invalid : Bool) : Prop where
  passing : node.Passing params outcomes startingTip target
  something : target ≠ []
  moved : ChainState.Moved (node.tree params) outcomes target
    { node.chain with tip := node.chain.findFork target } chain invalid

namespace Stepping

variable (step : node.Stepping params outcomes startingTip target chain invalid)
include step

theorem clean_target : node.Clean target :=
  (step.passing.target step.something).1

theorem tip_nonempty : chain.tip ≠ [] := by
  obtain ⟨-, -, greatest⟩ := findFork_spec node.chain target
  have shape := step.passing.shape
  have counts := step.passing.counts
  have root := greatest _ (shape.genesis_suffix (counts.mem_of_linked step.clean_target.linked))
    (shape.genesis_suffix (counts.mem_of_linked step.passing.clean.linked))
  intro null
  have above := root.trans step.moved.above
  rw [null] at above
  exact cons_ne_nil _ _ (suffix_nil.mp above)

/-- The blocks the step connected. -/
theorem connected (inside : entry <:+ chain.tip) (outside : ¬ entry <:+ node.chain.tip) :
    outcomes entry = none := by
  obtain ⟨-, below, -⟩ := findFork_spec node.chain target
  exact step.moved.connects entry inside fun onFork => outside (onFork.trans below)

theorem failed_cases (marked : chain.failed entry = true) : node.flagged entry = true ∨
      (invalid = true ∧ (∃ id, entry = id :: chain.tip) ∧ entry <:+ target ∧
        outcomes entry ≠ none ∧ chain.failedValid entry = true) := by
  rw [failed, step.moved.failedChild] at marked
  rcases step.moved.marks with same | ⟨invalid, id, onPath, refused, more⟩
  · rw [same] at marked
    exact .inl marked
  · rw [more] at marked
    by_cases here : entry = id :: chain.tip
    · refine .inr ⟨invalid, ⟨id, here⟩, here ▸ onPath, here ▸ refused, ?_⟩
      rw [more]
      simp [here]
    · simp only [here, decide_false, Bool.or_false] at marked
      exact .inl marked

theorem failedValid_of (before : node.chain.failedValid entry = true) :
    chain.failedValid entry = true := by
  rcases step.moved.marks with same | ⟨-, id, -, -, more⟩
  · rw [same]
    exact before
  · rw [more]
    simp only [before, Bool.true_or]

theorem failed_of (before : node.flagged entry = true) : chain.failed entry = true := by
  rw [flagged, Bool.or_eq_true] at before
  rw [failed, Bool.or_eq_true, step.moved.failedChild]
  exact before.imp_left step.failedValid_of

/-- Nothing on the new chain is flagged. -/
theorem unflagged (inside : entry <:+ chain.tip) : chain.failed entry = false := by
  refine Bool.eq_false_iff.mpr fun flag => ?_
  rcases step.failed_cases flag with before | ⟨-, ⟨id, rfl⟩, -⟩
  · exact ne_true_of_eq_false (step.clean_target.unflagged entry
      (inside.trans step.moved.below)) before
  · exact not_cons_suffix id chain.tip inside

theorem received (inside : entry <:+ chain.tip) (nonempty : entry ≠ []) : 0 < node.nTx entry :=
  step.passing.counts.sound target step.clean_target.linked entry
    (inside.trans step.moved.below) nonempty

/-- The levels after the step: the connected blocks have reached the last one. -/
theorem rank (entry : IndexEntry ι) : ((node.record chain).validity entry).rank =
      if entry <:+ chain.tip ∧ ¬ entry <:+ node.chain.tip ∧ entry.tail ≠ [] then
        max (node.validity entry).rank 5
      else (node.validity entry).rank := by
  rw [record]
  dsimp only
  have connected : (chain.contains entry && !node.chain.contains entry &&
      decide (entry.tail ≠ [])) = true ↔
        entry <:+ chain.tip ∧ ¬ entry <:+ node.chain.tip ∧ entry.tail ≠ [] := by
    rw [Bool.and_eq_true, Bool.and_eq_true, Bool.not_eq_true', ← Bool.not_eq_true,
      ChainState.contains_iff, ChainState.contains_iff, decide_eq_true_eq, and_assoc]
  by_cases new : entry <:+ chain.tip ∧ ¬ entry <:+ node.chain.tip ∧ entry.tail ≠ []
  · rw [if_pos (connected.mpr new), if_pos new,
      show (chain.failedValid entry || chain.failedChild entry) = false from step.unflagged new.1,
      BlockValidity.rank_raise]
    rfl
  · rw [if_neg (connected.not.mpr new), if_neg new]

theorem rank_le (entry : IndexEntry ι) :
    (node.validity entry).rank ≤ ((node.record chain).validity entry).rank := by
  rw [step.rank]
  split
  · exact le_max_left _ _
  · exact le_refl _

/-- The new chain has been connected. -/
theorem validated (inside : entry <:+ chain.tip) (root : entry.tail ≠ []) :
    5 ≤ ((node.record chain).validity entry).rank ∧ outcomes entry = none := by
  by_cases old : entry <:+ node.chain.tip
  · have five := step.passing.validated entry old root
    have connects := (step.passing.levels.scripts entry (by omega) entry suffix_rfl root).2
    exact ⟨five.trans (step.rank_le entry), connects⟩
  · rw [step.rank, if_pos ⟨inside, old, root⟩]
    exact ⟨le_max_right _ _, step.connected inside old⟩

theorem levels : (node.record chain).Levels outcomes := by
  have levels := step.passing.levels
  refine ⟨fun entry member => (levels.tree entry member).trans (step.rank_le entry),
    fun entry => ?_, fun entry reached ancestor above root => ?_, fun entry written => ?_⟩
  · rw [step.rank]
    split
    · rename_i new
      have received := step.received new.1 fun null => new.2.2 (by rw [null]; rfl)
      change 3 ≤ max (node.validity entry).rank 5 ↔ 0 < node.nTx entry
      omega
    · exact levels.transactions entry
  · rw [step.rank] at reached
    split at reached
    · rename_i new
      exact step.validated (above.trans new.1) root
    · obtain ⟨five, connects⟩ := levels.scripts entry reached ancestor above root
      exact ⟨five.trans (step.rank_le ancestor), connects⟩
  · have written' : (node.haveUndo entry || (chain.contains entry &&
        !node.chain.contains entry && decide (entry.tail ≠ []))) = true := written
    rcases (Bool.or_eq_true _ _).mp written' with old | new
    · exact levels.undo entry old
    · simp only [Bool.and_eq_true, decide_eq_true_eq] at new
      exact step.received (contains_iff.mp new.1.1) fun null => new.2 (by rw [null]; rfl)

theorem flags : (node.record chain).Flags := by
  have flags := step.passing.flags
  refine ⟨fun entry outside => ?_, fun entry marked => ?_, fun entry member => ?_⟩
  · refine Bool.eq_false_iff.mpr fun flag => ?_
    rcases step.failed_cases flag with before | ⟨-, ⟨id, rfl⟩, onPath, -⟩
    · exact ne_true_of_eq_false (flags.fresh entry outside) before
    · have inside := step.passing.counts.mem_of_linked step.clean_target.linked
      exact outside (step.passing.shape.ancestor inside onPath (cons_ne_nil _ _))
  · rcases step.failed_cases marked with before | ⟨-, -, -, -, valid⟩
    · obtain ⟨ancestor, above, failed⟩ := flags.cause entry before
      exact ⟨ancestor, above, step.failedValid_of failed⟩
    · exact ⟨entry, suffix_rfl, valid⟩
  · rcases mem_union_iff.mp member with new | old
    · have marked := (mem_filter.mp new).2
      rw [Bool.and_eq_true] at marked
      exact marked.1
    · exact step.failedValid_of (flags.failedBlocks entry old)

theorem indexed : (node.record chain).Indexed params outcomes :=
  ⟨step.passing.shape, step.passing.counts.congr rfl rfl rfl rfl rfl step.moved.haveData,
    step.levels, step.flags⟩

theorem clean : (node.record chain).Clean chain.tip := by
  refine ⟨?_, fun ancestor above => step.unflagged above⟩
  exact step.passing.counts.linked_ancestor step.clean_target.linked step.moved.below
    step.tip_nonempty

theorem start_clean : (node.record chain).Clean startingTip := by
  refine ⟨step.passing.startClean.linked, fun ancestor above => ?_⟩
  refine Bool.eq_false_iff.mpr fun flag => ?_
  rcases step.failed_cases flag with before | ⟨-, ⟨id, rfl⟩, -, refused, -⟩
  · exact ne_true_of_eq_false (step.passing.startClean.unflagged ancestor above) before
  · have root : (id :: chain.tip).tail ≠ [] := step.tip_nonempty
    have five := step.passing.startValidated _ above root
    exact refused (step.passing.levels.scripts _ (by omega) _ suffix_rfl root).2

end Stepping

theorem Stepping.target_clean
    (step : node.Stepping params outcomes startingTip target chain false) :
    (node.record chain).Clean target := by
  refine ⟨step.clean_target.linked, fun ancestor above => ?_⟩
  refine Bool.eq_false_iff.mpr fun flag => ?_
  rcases step.failed_cases flag with before | ⟨invalid, -⟩
  · exact ne_true_of_eq_false (step.clean_target.unflagged ancestor above) before
  · exact Bool.false_ne_true invalid

section

variable (step : node.Stepping params outcomes startingTip target chain invalid)
include step

/-- The candidates after the step. -/
theorem Stepping.offered (unflagged : chain.failed entry = false) (linked : node.nChainTx entry ≠ 0)
    (better : node.worse params entry startingTip = false)
    (atLeast : node.worse params entry chain.tip = false) : entry ∈ chain.candidates := by
  have before : node.flagged entry = false :=
    Bool.eq_false_iff.mpr fun flag => ne_true_of_eq_false unflagged (step.failed_of flag)
  have member := step.passing.listed.offered entry before linked better
  by_contra dropped
  rcases step.moved.lost entry member dropped with worse | marked
  · exact ne_true_of_eq_false atLeast worse
  · rw [failed, marked] at unflagged
    exact Bool.false_ne_true unflagged.symm

/-- A tip no worse than the starting tip is that one or has pruned the candidates. -/
theorem Stepping.pruned (good : node.worse params chain.tip startingTip = false) :
    ∀ entry ∈ chain.candidates, node.worse params entry chain.tip = false := by
  rcases step.moved.pruned with onFork | best
  · obtain ⟨-, below, -⟩ := findFork_spec node.chain target
    have onFork' : chain.tip <:+ node.chain.tip := onFork ▸ below
    have atLeast : node.worse params startingTip node.chain.tip = false := by
      rcases step.passing.behind with same | worse
      · rw [same]
        exact not_worse_self _
      · exact not_worse_of_worse worse
    -- nothing was disconnected: the fork is no worse than the tip it lies under
    have same : chain.tip = node.chain.tip :=
      eq_of_not_worse (not_worse_trans good atLeast) (not_worse_ancestor onFork')
    have start : chain.tip = startingTip := by
      rcases step.passing.behind with equal | worse
      · exact same.trans equal
      · rw [← same, good] at worse
        exact absurd worse Bool.false_ne_true
    intro entry member
    rw [start]
    exact (step.passing.listed.inside entry (step.moved.fewer entry member)).2
  · exact best

/-- A step after which the inner loop goes on. -/
theorem Stepping.continues (worse : node.worse params chain.tip startingTip = true) :
    (node.record chain).Passing params outcomes startingTip (if invalid then [] else target) := by
  refine ⟨step.indexed, step.clean, fun entry inside root => (step.validated inside root).1,
    step.start_clean, fun entry above root => ?_, ⟨fun entry member => ?_, ?_⟩, .inr worse, ?_⟩
  · exact (step.passing.startValidated entry above root).trans (step.rank_le entry)
  · exact step.passing.listed.inside entry (step.moved.fewer entry member)
  · intro entry unflagged linked better
    exact step.offered unflagged linked better (not_worse_trans better (not_worse_of_worse worse))
  · cases invalid with
    | true => exact fun null => absurd rfl null
    | false =>
      exact fun _ => ⟨step.target_clean, (step.passing.target step.something).2⟩

end

/-- The candidate an activation goes on with is still good. -/
def Awaited (params : IndexParams ι) (node : NodeIndex ι) (mostWork : IndexEntry ι) : Prop :=
  mostWork ≠ [] → node.Clean mostWork ∧ node.worse params mostWork node.chain.tip = false

/-- A step after which the inner loop is left. -/
theorem Stepping.leaves (step : node.Stepping params outcomes startingTip target chain invalid)
    (good : node.worse params chain.tip startingTip = false) :
    (node.record chain).Consistent params outcomes ∧
      (node.record chain).Awaited params (if invalid then [] else target) := by
  refine ⟨⟨step.indexed, step.clean, fun entry inside root => (step.validated inside root).1,
    fun entry member => ?_, fun entry unflagged linked better => ?_⟩, ?_⟩
  · have linked := (step.passing.listed.inside entry (step.moved.fewer entry member)).1
    exact ⟨linked, step.pruned good entry member⟩
  · exact step.offered unflagged linked (not_worse_trans better good) better
  · cases invalid with
    | true => exact fun null => absurd rfl null
    | false => exact fun _ => ⟨step.target_clean, not_worse_ancestor step.moved.below⟩

end Step

/-! ## The section -/

theorem record_withChain {chain chain' : ChainState ι} (tip : chain.tip = node.chain.tip)
    (failedValid : chain.failedValid = node.chain.failedValid) :
    ({ node with chain := chain } : NodeIndex ι).record chain' = node.record chain' := by
  obtain ⟨chainTip, chainFailed, failedChild, haveData, candidates⟩ := chain
  subst tip failedValid
  rfl

theorem record_self (node : NodeIndex ι) : node.record node.chain = node := by
  simp only [record, Bool.and_not_self, Bool.false_and, Bool.or_false, Bool.false_eq_true, if_false,
    filter_false, nil_union]

omit [DecidableEq ι] in
/-- The idle pass: the best candidate is the tip, so the tip is the starting one. -/
theorem Passing.idle (passing : node.Passing params outcomes startingTip node.chain.tip)
    (something : node.chain.tip ≠ []) :
    node.Consistent params outcomes ∧ node.Awaited params node.chain.tip := by
  have good := (passing.target something).2
  have same : node.chain.tip = startingTip := by
    refine passing.behind.resolve_right fun worse => ?_
    exact ne_true_of_eq_false good worse
  refine ⟨⟨passing.toIndexed, passing.clean, passing.validated, ?_⟩, fun _ => ?_⟩
  · rw [same]
    exact passing.listed
  · exact ⟨passing.clean, not_worse_self _⟩

end NodeIndex

namespace Activation

variable {params : IndexParams ι} {outcomes : Outcomes ι} {startingTip : IndexEntry ι}
  {run final : Activation ι}

theorem next_passing (passing : run.node.Passing params outcomes startingTip run.mostWork) :
    (∃ run', run.next params outcomes startingTip = .inl run' ∧
      run'.node.Passing params outcomes startingTip run'.mostWork) ∨
    run.next params outcomes startingTip = .inr none ∨
    ∃ run', run.next params outcomes startingTip = .inr (some run') ∧
      run'.node.Consistent params outcomes ∧ run'.node.Awaited params run'.mostWork := by
  rw [next]
  rw [LoopState.pass]
  cases selected : select (run.node.tree params) ⟨run.node.chain, run.mostWork⟩ with
  | error abort => exact .inr (.inl rfl)
  | ok result =>
    obtain ⟨chain, target⟩ := result
    obtain ⟨chosen, something, tip, failedValid⟩ := passing.select selected
    dsimp only
    by_cases idle : target = [] ∨ target = chain.tip
    · obtain rfl := idle.resolve_left something
      rw [if_pos idle]
      have recorded : run.node.record chain = { run.node with chain := chain } := by
        rw [← NodeIndex.record_withChain tip failedValid]
        exact NodeIndex.record_self { run.node with chain := chain }
      refine .inr (.inr ⟨_, rfl, ?_⟩)
      rw [recorded]
      exact chosen.idle something
    · rw [if_neg idle]
      cases stepped : chain.activateBestChainStep (run.node.tree params) outcomes target with
      | error abort => exact .inr (.inl rfl)
      | ok result =>
        obtain ⟨chain', invalid⟩ := result
        have step : ({ run.node with chain := chain } : NodeIndex ι).Stepping params outcomes
            startingTip target chain' invalid :=
          ⟨chosen, something, activateBestChainStep_moved stepped⟩
        have recorded : ({ run.node with chain := chain } : NodeIndex ι).record chain' =
            run.node.record chain' := NodeIndex.record_withChain tip failedValid
        dsimp only
        cases worse : run.node.worse params chain'.tip startingTip with
        | true =>
          have goes : continues (run.node.tree params) startingTip chain'.tip = true := by
            rw [continues, Bool.or_eq_true, Bool.and_eq_true]
            refine .inr ⟨decide_eq_true fun null => ?_, worse⟩
            exact chosen.shape.noNull
              (null ▸ chosen.counts.mem_of_linked chosen.startClean.linked)
          rw [if_pos goes]
          refine .inl ⟨_, rfl, ?_⟩
          have continues := step.continues worse
          rw [recorded] at continues
          exact continues
        | false =>
          have stops : ¬ continues (run.node.tree params) startingTip chain'.tip = true := by
            rw [continues, Bool.or_eq_true, Bool.and_eq_true, decide_eq_true_eq]
            rintro (null | ⟨-, behind⟩)
            · exact step.tip_nonempty null
            · rw [show (run.node.tree params).workComparator chain'.tip startingTip = false
                from worse] at behind
              exact Bool.false_ne_true behind
          rw [if_neg stops]
          have leaves := step.leaves worse
          rw [recorded] at leaves
          exact .inr (.inr ⟨_, rfl, leaves⟩)

theorem run_consistent {passes : Nat}
    (passing : run.node.Passing params outcomes startingTip run.mostWork)
    (done : Loop.run (next params outcomes startingTip) passes run = some (some final)) :
    final.node.Consistent params outcomes ∧ final.node.Awaited params final.mostWork := by
  induction passes generalizing run with
  | zero =>
    cases done
  | succ passes ih =>
    rw [Loop.run] at done
    rcases next_passing passing with ⟨run', on, passing'⟩ | abort | ⟨run', left, consistent⟩
    · rw [on] at done
      exact ih passing' done
    · rw [abort] at done
      cases done
    · rw [left] at done
      cases done
      exact consistent

end Activation

end MooncoinFormal.Validation
