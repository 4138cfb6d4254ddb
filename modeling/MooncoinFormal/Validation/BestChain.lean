import Mathlib
import MooncoinFormal.Library.Loop
import MooncoinFormal.Validation.BlockTree

/-!
# Activating the best chain

`ActivateBestChainStep` and the two nested loops of `ActivateBestChain`. What
`ConnectBlock` says about a block is an assignment of outcomes to the entries of
the index; disk operations succeed, no block arrives and no shutdown is
requested while the loops run. The blocks to connect are taken one after the
other: the source collects them in batches of 32, which bounds its vector and
changes neither the order nor the moment at which it stops.
-/

namespace MooncoinFormal.Validation

open Library List Nat Bool

variable {ι : Type} [DecidableEq ι]

/-- What `ConnectBlock` returns for each block: success, or the result it sets. -/
abbrev Outcomes (ι : Type) := IndexEntry ι → Option BlockValidationResult

variable {candidate connected last : IndexEntry ι} {outcomes : Outcomes ι}
  {state chain : ChainState ι} {tree : BlockTree ι} {bound : Nat} {entries : Finset (IndexEntry ι)}
  {entry : IndexEntry ι}

namespace ChainState

/-- `while (m_chain.Tip() && m_chain.Tip() != pindexFork) DisconnectTip`. -/
def disconnectTo (fork : IndexEntry ι) : IndexEntry ι → IndexEntry ι
  | [] => []
  | id :: parent => if id :: parent = fork then id :: parent else disconnectTo fork parent

def toConnect (fork : IndexEntry ι) : IndexEntry ι → List (IndexEntry ι)
  | [] => []
  | id :: parent =>
    if id :: parent = fork then [] else toConnect fork parent ++ [id :: parent]

def pruneBlockIndexCandidates (tree : BlockTree ι) (state : ChainState ι) :
    Except Abort (ChainState ι) :=
  let pruned := { state with
    candidates := state.candidates.filter fun entry => !tree.workComparator entry state.tip }
  if pruned.candidates = [] then .error .noCandidates else .ok pruned

/-- `InvalidBlockFound`: a mutated block leaves no mark. -/
def invalidBlockFound (state : ChainState ι) (entry : IndexEntry ι)
    (result : BlockValidationResult) : Except Abort (ChainState ι) :=
  if result ≠ .mutated then
    let marked := { state.erase entry with
      failedValid := fun other => state.failedValid other || decide (other = entry) }
    if state.tip = [] then .error .noTip else .ok marked
  else .ok state

/-- The loop over the blocks to connect; the flag is `fInvalidFound`. -/
def connectBlocks (tree : BlockTree ι) (outcomes : Outcomes ι) (oldTip : IndexEntry ι) :
    List (IndexEntry ι) → ChainState ι → Except Abort (ChainState ι × Bool)
  | [], state => .ok (state, false)
  | entry :: rest, state =>
    match outcomes entry with
    | some result => (state.invalidBlockFound entry result).map fun state' => (state', true)
    | none =>
      match pruneBlockIndexCandidates tree { state with tip := entry } with
      | .error abort => .error abort
      | .ok state' =>
        if oldTip = [] ∨ tree.nChainWork entry > tree.nChainWork oldTip then
          .ok (state', false)
        else connectBlocks tree outcomes oldTip rest state'

def activateBestChainStep (tree : BlockTree ι) (outcomes : Outcomes ι) (state : ChainState ι)
    (mostWork : IndexEntry ι) : Except Abort (ChainState ι × Bool) :=
  let fork := state.findFork mostWork
  connectBlocks tree outcomes state.tip (toConnect fork mostWork)
    { state with tip := disconnectTo fork state.tip }

/-! ## What a step does -/

theorem disconnectTo_eq {fork tip : IndexEntry ι} (below : fork <:+ tip) :
    disconnectTo fork tip = fork := by
  induction tip with
  | nil => rw [disconnectTo, suffix_nil.mp below]
  | cons id parent ih =>
    rw [disconnectTo]
    split
    · assumption
    · rename_i different
      rcases suffix_cons_iff.mp below with same | deeper
      · exact absurd same.symm different
      · exact ih deeper

/-- Consecutive entries from a connected one up to the candidate. -/
inductive Ascends (candidate : IndexEntry ι) : IndexEntry ι → List (IndexEntry ι) → Prop where
  | top : Ascends candidate candidate []
  | next {connected : IndexEntry ι} {id : ι} {rest : List (IndexEntry ι)}
      (above : Ascends candidate (id :: connected) rest) :
      Ascends candidate connected ((id :: connected) :: rest)

omit [DecidableEq ι] in
theorem not_cons_suffix (id : ι) (entry : IndexEntry ι) : ¬ id :: entry <:+ entry := by
  intro inside
  exact not_succ_le_self _ inside.length_le

omit [DecidableEq ι] in
theorem Ascends.cons_inv {rest : List (IndexEntry ι)}
    (path : Ascends candidate connected (entry :: rest)) :
    ∃ id, entry = id :: connected ∧ Ascends candidate (id :: connected) rest := by
  cases path with
  | next above => exact ⟨_, rfl, above⟩

variable {entries : List (IndexEntry ι)}

omit [DecidableEq ι] in
theorem Ascends.suffix (path : Ascends candidate connected entries) : connected <:+ candidate := by
  induction path with
  | top => exact suffix_rfl
  | next _ ih => exact (suffix_cons _ _).trans ih

omit [DecidableEq ι] in
theorem Ascends.snoc (path : Ascends candidate connected entries) (id : ι) :
    Ascends (id :: candidate) connected (entries ++ [id :: candidate]) := by
  induction path with
  | top => exact .next .top
  | next _ ih => exact .next ih

theorem toConnect_ascends {fork : IndexEntry ι} (below : fork <:+ candidate) :
    Ascends candidate fork (toConnect fork candidate) := by
  induction candidate with
  | nil =>
    rw [suffix_nil.mp below]
    exact .top
  | cons id parent ih =>
    rw [toConnect]
    split
    · rename_i same
      rw [same]
      exact .top
    · rename_i different
      rcases suffix_cons_iff.mp below with same | deeper
      · exact absurd same.symm different
      · exact (ih deeper).snoc id

omit [DecidableEq ι] in
theorem pruneBlockIndexCandidates_chosen (chosen : state.Chosen tree candidate)
    (below : state.tip <:+ candidate) :
    ∃ candidates, pruneBlockIndexCandidates tree state = .ok { state with candidates } ∧
      candidates.Sublist state.candidates ∧
      ({ state with candidates } : ChainState ι).Chosen tree candidate := by
  have kept := BlockTree.best_filter (fun entry => !tree.workComparator entry state.tip) chosen.best
    (by simp [BlockTree.workComparator_ancestor below])
  refine ⟨_, ?_, filter_sublist, kept, chosen.path⟩
  refine if_neg fun empty => ?_
  have nonempty := ne_nil_of_mem (BlockTree.best_spec kept).1
  exact nonempty empty

omit [DecidableEq ι] in
theorem Chosen.withTip (chosen : state.Chosen tree candidate) (tip : IndexEntry ι)
    (fork : ∀ entry, entry <:+ candidate → entry <:+ state.tip → entry <:+ tip) :
    ({ state with tip := tip } : ChainState ι).Chosen tree candidate := by
  refine ⟨chosen.best, fun entry above nonempty outside => ?_⟩
  exact chosen.path entry above nonempty fun inside => outside (fork entry above inside)

/-- Connecting from `connected` towards the candidate succeeds up to `last`
without passing the old tip's work, and the block after `last` is mutated. -/
structure MeetsMutated (tree : BlockTree ι) (outcomes : Outcomes ι)
    (oldTip candidate connected last : IndexEntry ι) : Prop where
  mutated : ∃ id, id :: last <:+ candidate ∧ outcomes (id :: last) = some .mutated
  above : connected <:+ last
  before : ∀ entry, entry <:+ last → ¬ entry <:+ connected →
    outcomes entry = none ∧ oldTip ≠ [] ∧ tree.nChainWork entry ≤ tree.nChainWork oldTip

/-- The ways in which the loop over the blocks can end. -/
inductive Connects (tree : BlockTree ι) (outcomes : Outcomes ι)
    (oldTip candidate : IndexEntry ι) (state : ChainState ι) : ChainState ι → Bool → Prop where
  | advanced {state' : ChainState ι} (chosen : state'.Chosen tree candidate)
      (above : state.tip <:+ state'.tip) (below : state'.tip <:+ candidate)
      (longer : state.tip = candidate ∨ state.tip.length < state'.tip.length)
      (marks : state'.failedValid = state.failedValid)
      (fewer : state'.candidates.Sublist state.candidates) :
      Connects tree outcomes oldTip candidate state state' false
  | condemned {state' : ChainState ι} (entry : IndexEntry ι) (onPath : entry <:+ candidate)
      (fresh : ¬ entry <:+ state.tip)
      (marks : state'.failedValid = fun other => state.failedValid other || decide (other = entry))
      (fewer : state'.candidates.Sublist state.candidates) :
      Connects tree outcomes oldTip candidate state state' true
  | mutated {state' : ChainState ι} (chosen : state'.Chosen tree candidate)
      (meets : MeetsMutated tree outcomes oldTip candidate state.tip state'.tip)
      (marks : state'.failedValid = state.failedValid)
      (fewer : state'.candidates.Sublist state.candidates) :
      Connects tree outcomes oldTip candidate state state' true

omit [DecidableEq ι] in
theorem MeetsMutated.extend {tree : BlockTree ι} {outcomes : Outcomes ι}
    {oldTip candidate connected last : IndexEntry ι} {id : ι}
    (meets : MeetsMutated tree outcomes oldTip candidate (id :: connected) last)
    (succeeds : outcomes (id :: connected) = none)
    (notBetter : ¬ (oldTip = [] ∨ tree.nChainWork (id :: connected) > tree.nChainWork oldTip)) :
    MeetsMutated tree outcomes oldTip candidate connected last := by
  refine ⟨meets.mutated, (suffix_cons _ _).trans meets.above, fun entry onPath fresh => ?_⟩
  by_cases inside : entry <:+ id :: connected
  · rcases suffix_cons_iff.mp inside with same | deeper
    · subst same
      exact ⟨succeeds, fun null => notBetter (.inl null),
        Nat.le_of_not_lt fun more => notBetter (.inr more)⟩
    · exact absurd deeper fresh
  · exact meets.before entry onPath inside

variable (chosen : state.Chosen tree candidate)
include chosen

variable {oldTip : IndexEntry ι} {state' : ChainState ι}

theorem connectBlocks_connects {invalid : Bool} (path : Ascends candidate state.tip entries)
    (done : connectBlocks tree outcomes oldTip entries state = .ok (state', invalid)) :
    Connects tree outcomes oldTip candidate state state' invalid := by
  induction entries generalizing state with
  | nil =>
    cases done
    exact .advanced chosen suffix_rfl path.suffix
      (.inl (by cases path; rfl)) rfl (.refl _)
  | cons entry rest ih =>
    obtain ⟨id, rfl, above⟩ := path.cons_inv
    rw [connectBlocks] at done
    cases outcome : outcomes (id :: state.tip) with
    | some result =>
      rw [outcome] at done
      dsimp only at done
      rw [invalidBlockFound] at done
      by_cases mutated : result = .mutated
      · subst mutated
        cases done
        refine .mutated chosen ⟨⟨id, above.suffix, outcome⟩, suffix_rfl, ?_⟩ rfl (.refl _)
        exact fun other inside outside => absurd inside outside
      · rw [if_pos mutated] at done
        split at done
        · cases done
        · cases done
          exact .condemned (id :: state.tip) above.suffix (not_cons_suffix _ _) rfl
            filter_sublist
    | none =>
      rw [outcome] at done
      have moved := chosen.withTip (id :: state.tip)
        fun other _ inside => inside.trans (suffix_cons _ _)
      obtain ⟨candidates, pruned, fewer, kept⟩ :=
        pruneBlockIndexCandidates_chosen moved above.suffix
      rw [pruned] at done
      dsimp only at done
      split at done
      · cases done
        exact .advanced kept (suffix_cons _ _) above.suffix (.inr (by simp)) rfl fewer
      rename_i notBetter
      cases ih kept above done with
      | advanced chosen' above' below longer marks fewer' =>
        refine .advanced chosen' ((suffix_cons _ _).trans above') below
          (.inr ?_) marks (fewer'.trans fewer)
        have := above'.length_le
        simp only [length_cons] at this
        omega
      | condemned other onPath fresh' marks fewer' =>
        exact .condemned other onPath
          (fun inside => fresh' (inside.trans (suffix_cons _ _)))
          marks (fewer'.trans fewer)
      | mutated chosen' meets marks fewer' =>
        exact .mutated chosen' (meets.extend outcome notBetter) marks (fewer'.trans fewer)

theorem connectBlocks_of_meets (path : Ascends candidate state.tip entries)
    (meets : MeetsMutated tree outcomes oldTip candidate state.tip last) :
    ∃ candidates, connectBlocks tree outcomes oldTip entries state =
        .ok ({ state with tip := last, candidates }, true) ∧
      ({ state with tip := last, candidates } : ChainState ι).Chosen tree candidate := by
  obtain ⟨mutant, onPath, mutated⟩ := meets.mutated
  induction entries generalizing state with
  | nil =>
    cases path
    have first := onPath.length_le
    have second := meets.above.length_le
    simp only [length_cons] at first
    omega
  | cons entry rest ih =>
    obtain ⟨id, rfl, above⟩ := path.cons_inv
    by_cases here : state.tip = last
    · subst here
      have same : id :: state.tip = mutant :: state.tip :=
        (suffix_of_suffix_length_le above.suffix onPath (by simp)).eq_of_length (by simp)
      refine ⟨state.candidates, ?_, chosen⟩
      rw [connectBlocks, same, mutated]
      rfl
    · have strict : state.tip.length < last.length :=
        lt_of_le_of_ne meets.above.length_le fun same => here (meets.above.eq_of_length same)
      have next : id :: state.tip <:+ last :=
        suffix_of_suffix_length_le above.suffix
          ((suffix_cons _ _).trans onPath) (by simp; omega)
      obtain ⟨succeeds, started, work⟩ := meets.before _ next (not_cons_suffix _ _)
      have moved := chosen.withTip (id :: state.tip)
        fun other _ inside => inside.trans (suffix_cons _ _)
      obtain ⟨candidates, pruned, -, kept⟩ :=
        pruneBlockIndexCandidates_chosen moved above.suffix
      have meets' : MeetsMutated tree outcomes oldTip candidate (id :: state.tip) last :=
        ⟨meets.mutated, next, fun entry inside outside =>
          meets.before entry inside fun deeper => outside (deeper.trans (suffix_cons _ _))⟩
      obtain ⟨candidates', done, chosen'⟩ := ih kept above meets'
      refine ⟨candidates', ?_, chosen'⟩
      rw [connectBlocks, succeeds]
      rw [pruned]
      dsimp only
      rw [if_neg (not_or.mpr ⟨started, not_lt.mpr work⟩)]
      exact done

theorem activateBestChainStep_connects {invalid : Bool}
    (done : activateBestChainStep tree outcomes state candidate = .ok (state', invalid)) :
    Connects tree outcomes state.tip candidate { state with tip := state.findFork candidate }
      state' invalid := by
  obtain ⟨below, inside, greatest⟩ := findFork_spec state candidate
  rw [activateBestChainStep, disconnectTo_eq inside] at done
  exact connectBlocks_connects (chosen.withTip _ greatest) (toConnect_ascends below) done

theorem activateBestChainStep_of_meets
    (meets : MeetsMutated tree outcomes state.tip candidate (state.findFork candidate) last) :
    ∃ candidates, activateBestChainStep tree outcomes state candidate =
        .ok ({ state with tip := last, candidates }, true) ∧
      ({ state with tip := last, candidates } : ChainState ι).Chosen tree candidate := by
  obtain ⟨below, inside, greatest⟩ := findFork_spec state candidate
  rw [activateBestChainStep, disconnectTo_eq inside]
  exact connectBlocks_of_meets (chosen.withTip _ greatest) (toConnect_ascends below) meets

end ChainState

/-! ## The loops -/

/-- The variables that live across the passes of the inner loop. -/
structure LoopState (ι : Type) where
  chain : ChainState ι
  mostWork : IndexEntry ι

/-- One execution of the inner loop's body. -/
inductive Pass (ι : Type) where
  | aborted (abort : Abort)
  | idle (loop : LoopState ι)
  | stepped (loop : LoopState ι)

namespace LoopState

variable (tree : BlockTree ι)

/-- `if (pindexMostWork == nullptr) pindexMostWork = FindMostWorkChain()`. -/
def select (loop : LoopState ι) : Except Abort (ChainState ι × IndexEntry ι) :=
  if loop.mostWork = [] then loop.chain.findMostWorkChain tree
  else .ok (loop.chain, loop.mostWork)

variable (outcomes : Outcomes ι)

/-- The body of the inner loop, up to its `while` test. -/
def pass (loop : LoopState ι) : Pass ι :=
  match loop.select tree with
  | .error abort => .aborted abort
  | .ok (chain, mostWork) =>
    if mostWork = [] ∨ mostWork = chain.tip then .idle ⟨chain, mostWork⟩
    else
      match chain.activateBestChainStep tree outcomes mostWork with
      | .error abort => .aborted abort
      | .ok (chain', invalidFound) =>
        .stepped ⟨chain', if invalidFound then [] else mostWork⟩

/-- The `while` test of the inner loop. -/
def continues (startingTip tip : IndexEntry ι) : Bool :=
  decide (tip = []) || (decide (startingTip ≠ []) && tree.workComparator tip startingTip)

/-- How the inner loop is left, or `none` for a failed assertion. -/
def innerNext (startingTip : IndexEntry ι) (loop : LoopState ι) :
    LoopState ι ⊕ Option (LoopState ι) :=
  match loop.pass tree outcomes with
  | .aborted _ => .inr none
  | .idle loop' => .inr (some loop')
  | .stepped loop' =>
    if continues tree startingTip loop'.chain.tip then .inl loop' else .inr (some loop')

/-- The inner loop, entered with `startingTip` as the tip and no candidate. -/
def InnerLoopExits (chain : ChainState ι) : Prop :=
  Loop.Exits (innerNext tree outcomes chain.tip) ⟨chain, []⟩

end LoopState

/-- The state of `ActivateBestChain` at the head of its inner loop. -/
structure ActivateState (ι : Type) where
  loop : LoopState ι
  startingTip : IndexEntry ι
  blocksConnected : Bool

namespace ActivateState

/-- What follows the inner loop: return, or go round the outer loop. After a
step `pindexNewTip` is the tip of the active chain. -/
def afterInner (loop : LoopState ι) (blocksConnected : Bool) :
    ActivateState ι ⊕ Option (LoopState ι) :=
  if !blocksConnected then .inr (some loop)
  else if loop.chain.tip ≠ loop.mostWork then .inl ⟨loop, loop.chain.tip, false⟩
  else .inr (some loop)

/-- Both loops of `ActivateBestChain`, one pass of the inner body at a time. -/
def next (tree : BlockTree ι) (outcomes : Outcomes ι) (state : ActivateState ι) :
    ActivateState ι ⊕ Option (LoopState ι) :=
  match state.loop.pass tree outcomes with
  | .aborted _ => .inr none
  | .idle loop => afterInner loop state.blocksConnected
  | .stepped loop =>
    if LoopState.continues tree state.startingTip loop.chain.tip then
      .inl ⟨loop, state.startingTip, true⟩
    else afterInner loop true

def Returns (tree : BlockTree ι) (outcomes : Outcomes ι) (chain : ChainState ι) : Prop :=
  Loop.Exits (next tree outcomes) ⟨⟨chain, []⟩, chain.tip, false⟩

end ActivateState

variable {loop loop' : LoopState ι}

namespace LoopState

open ChainState

/-- Candidates stay inside a fixed finite set of entries, and a candidate kept
from an earlier pass is still the chosen one and lies above the tip. -/
structure Invariant (tree : BlockTree ι) (entries : Finset (IndexEntry ι)) (bound : Nat)
    (loop : LoopState ι) : Prop where
  noNull : [] ∉ loop.chain.candidates
  inside : ∀ candidate ∈ loop.chain.candidates, ∀ entry, entry <:+ candidate → entry ∈ entries
  length : ∀ candidate ∈ loop.chain.candidates, candidate.length ≤ bound
  chosen : loop.mostWork ≠ [] →
    loop.chain.Chosen tree loop.mostWork ∧ loop.chain.tip <:+ loop.mostWork

/-- The finite set of a state: its candidates and all their ancestors. -/
def entriesOf (chain : ChainState ι) : Finset (IndexEntry ι) :=
  (chain.candidates.flatMap tails).toFinset

def boundOf (chain : ChainState ι) : Nat :=
  (chain.candidates.map length).sum

theorem invariant_initial (tree : BlockTree ι) (noNull : [] ∉ chain.candidates) :
    Invariant tree (entriesOf chain) (boundOf chain) ⟨chain, []⟩ := by
  refine ⟨noNull, fun candidate member entry above => ?_, fun candidate member => ?_,
    fun null => absurd rfl null⟩
  · simp only [entriesOf, mem_toFinset, mem_flatMap, mem_tails]
    exact ⟨candidate, member, above⟩
  · exact le_sum_of_mem (mem_map_of_mem member)

section

variable (invariant : Invariant tree entries bound loop) {mostWork : IndexEntry ι}
include invariant

omit [DecidableEq ι] in
theorem Invariant.sublist (fewer : chain.candidates.Sublist loop.chain.candidates)
    (chosen : mostWork ≠ [] → chain.Chosen tree mostWork ∧ chain.tip <:+ mostWork) :
    Invariant tree entries bound ⟨chain, mostWork⟩ :=
  ⟨fun null => invariant.noNull (fewer.subset null),
    fun candidate member => invariant.inside candidate (fewer.subset member),
    fun candidate member => invariant.length candidate (fewer.subset member), chosen⟩

theorem select_spec (selected : loop.select tree = .ok (chain, mostWork)) :
    SameChain loop.chain chain ∧
      ((loop.mostWork = [] ∧ mostWork = [] ∧ chain.candidates = []) ∨
        (mostWork ≠ [] ∧ chain.Chosen tree mostWork ∧
          (loop.mostWork ≠ [] → mostWork = loop.mostWork ∧ chain = loop.chain))) := by
  rw [select] at selected
  split at selected
  · rename_i null
    obtain ⟨same, empty | ⟨nonempty, chosen⟩⟩ := findMostWorkChain_spec invariant.noNull selected
    · exact ⟨same, .inl ⟨null, empty⟩⟩
    · exact ⟨same, .inr ⟨nonempty, chosen, fun some => absurd null some⟩⟩
  · rename_i some
    cases selected
    exact ⟨.refl _, .inr ⟨some, (invariant.chosen some).1, fun _ => ⟨rfl, rfl⟩⟩⟩

end

/-! ## The loops descend -/

def unmarked (entries : Finset (IndexEntry ι)) (chain : ChainState ι) : Nat :=
  (entries.filter fun entry => chain.failedValid entry = false).card

/-- The distance to the current candidate, largest when there is none. -/
def distance (bound : Nat) (loop : LoopState ι) : Nat :=
  if loop.mostWork = [] then bound + 1 else loop.mostWork.length - loop.chain.tip.length

def measure (entries : Finset (IndexEntry ι)) (bound : Nat) (loop : LoopState ι) : Nat × Nat :=
  (unmarked entries loop.chain, distance bound loop)

/-- The lexicographic order in which every pass without a mutated block descends. -/
abbrev Less : Nat × Nat → Nat × Nat → Prop := Prod.Lex (· < ·) (· < ·)

theorem unmarked_of_marked {chain' : ChainState ι} (inside : entry ∈ entries)
    (fresh : chain.failedValid entry = false)
    (marks : chain'.failedValid = fun other => chain.failedValid other || decide (other = entry)) :
    unmarked entries chain' < unmarked entries chain := by
  apply Finset.card_lt_card
  refine Finset.ssubset_iff_of_subset ?_ |>.mpr ⟨entry, by simp [inside, fresh], by simp [marks]⟩
  intro other
  simp only [marks, Finset.mem_filter, or_eq_false_iff]
  exact fun ⟨member, unmarked, _⟩ => ⟨member, unmarked⟩

/-- A pass in which a mutated block is met, and the tip it leaves behind. -/
def MeetsMutated (tree : BlockTree ι) (outcomes : Outcomes ι) (loop : LoopState ι)
    (last : IndexEntry ι) : Prop :=
  ∃ chain mostWork, loop.select tree = .ok (chain, mostWork) ∧ mostWork ≠ [] ∧
    mostWork ≠ chain.tip ∧
    ChainState.MeetsMutated tree outcomes chain.tip mostWork (chain.findFork mostWork) last

section

variable (invariant : Invariant tree entries bound loop)
include invariant

theorem pass_idle (done : loop.pass tree outcomes = .idle loop') :
    Invariant tree entries bound loop' ∧
      (loop'.mostWork = loop'.chain.tip ∨
        (loop.mostWork = [] ∧ loop'.mostWork = [] ∧
          unmarked entries loop'.chain = unmarked entries loop.chain)) := by
  rw [pass] at done
  cases selected : loop.select tree with
  | error abort =>
    rw [selected] at done
    cases done
  | ok result =>
    obtain ⟨chain, mostWork⟩ := result
    rw [selected] at done
    obtain ⟨same, cases⟩ := select_spec invariant selected
    dsimp only at done
    split at done
    · rename_i nothing
      cases done
      obtain ⟨before, rfl, -⟩ | ⟨nonempty, chosen, -⟩ := cases
      · refine ⟨invariant.sublist same.candidates (fun null => absurd rfl null),
          .inr ⟨before, rfl, ?_⟩⟩
        rw [unmarked, unmarked, same.failedValid]
      · obtain rfl := nothing.resolve_left nonempty
        exact ⟨invariant.sublist same.candidates fun _ => ⟨chosen, suffix_rfl⟩, .inl rfl⟩
    · split at done <;> cases done

theorem pass_stepped (done : loop.pass tree outcomes = .stepped loop') :
    Invariant tree entries bound loop' ∧
      (Less (measure entries bound loop') (measure entries bound loop) ∨
        MeetsMutated tree outcomes loop loop'.chain.tip) := by
  rw [pass] at done
  cases selected : loop.select tree with
  | error abort =>
    rw [selected] at done
    cases done
  | ok result =>
    obtain ⟨chain, mostWork⟩ := result
    rw [selected] at done
    obtain ⟨same, cases⟩ := select_spec invariant selected
    dsimp only at done
    split at done
    · cases done
    rename_i something
    obtain ⟨nonempty, different⟩ := not_or.mp something
    obtain ⟨-, null, -⟩ | ⟨-, chosen, kept⟩ := cases
    · exact absurd null nonempty
    split at done
    · cases done
    rename_i chain' invalid step
    cases done
    have marksSame : unmarked entries chain = unmarked entries loop.chain := by
      rw [unmarked, unmarked, same.failedValid]
    obtain ⟨-, -, greatest⟩ := findFork_spec chain mostWork
    cases activateBestChainStep_connects chosen step with
    | advanced chosen' above below' longer marks fewer =>
      refine ⟨invariant.sublist (fewer.trans same.candidates) fun _ => ⟨chosen', below'⟩,
        .inl ?_⟩
      have unmarkedSame : unmarked entries chain' = unmarked entries loop.chain := by
        rw [← marksSame, unmarked, unmarked, marks]
      rw [measure, measure, unmarkedSame]
      refine Prod.Lex.right _ ?_
      simp only [distance, false_eq_true, if_false, nonempty]
      have bounded := invariant.length mostWork
        (same.candidates.subset (BlockTree.best_spec chosen.best).1)
      split
      · omega
      · rename_i before
        obtain ⟨rfl, rfl⟩ := kept before
        have fork := findFork_of_suffix (invariant.chosen before).2
        dsimp only at longer
        rw [fork] at longer
        have strict := longer.resolve_left fun tip => different tip.symm
        have := below'.length_le
        omega
    | condemned entry onPath fresh marks fewer =>
      refine ⟨invariant.sublist (fewer.trans same.candidates)
        (fun null => absurd rfl null), .inl (Prod.Lex.left _ _ ?_)⟩
      have nonnull : entry ≠ [] := fun null => fresh (null ▸ nil_suffix)
      have usable := (chosen.path entry onPath nonnull
        fun contained => fresh (greatest entry onPath contained)).1
      have member := (BlockTree.best_spec chosen.best).1
      rw [← marksSame]
      refine unmarked_of_marked ?_ ?_ marks
      · exact invariant.inside mostWork (same.candidates.subset member) entry onPath
      · exact usable_failedValid usable
    | mutated chosen' meets marks fewer =>
      refine ⟨invariant.sublist (fewer.trans same.candidates)
        (fun null => absurd rfl null), .inr ?_⟩
      exact ⟨chain, mostWork, selected, nonempty, different, meets⟩

theorem pass_of_meets (meets : MeetsMutated tree outcomes loop last) :
    ∃ chain, loop.pass tree outcomes = .stepped ⟨chain, []⟩ ∧ chain.tip = last ∧
      MeetsMutated tree outcomes ⟨chain, []⟩ last := by
  obtain ⟨chain, mostWork, selected, nonempty, different, block⟩ := meets
  obtain ⟨-, ⟨-, null, -⟩ | ⟨-, chosen, -⟩⟩ := select_spec invariant selected
  · exact absurd null nonempty
  obtain ⟨candidates, step, chosen'⟩ := activateBestChainStep_of_meets chosen block
  refine ⟨{ chain with tip := last, candidates }, ?_, rfl, ?_⟩
  · rw [pass, selected]
    dsimp only
    rw [if_neg (not_or.mpr ⟨nonempty, different⟩), step]
    rfl
  · obtain ⟨id, onPath, mutated⟩ := block.mutated
    have below : last <:+ mostWork := (suffix_cons _ _).trans onPath
    refine ⟨_, mostWork, findMostWorkChain_of_chosen chosen', nonempty, ?_, ?_⟩
    · rintro rfl
      exact not_cons_suffix _ _ onPath
    · rw [findFork_of_suffix below]
      exact ⟨⟨id, onPath, mutated⟩, suffix_rfl, fun entry inside outside =>
        absurd inside outside⟩

end

theorem less_wf : WellFounded Less :=
  WellFounded.prod_lex lt_wfRel.wf lt_wfRel.wf

/-- The pass meets a mutated block and the loop goes on below the starting tip. -/
def Stalls (tree : BlockTree ι) (outcomes : Outcomes ι) (startingTip : IndexEntry ι)
    (loop : LoopState ι) : Prop :=
  ∃ last, MeetsMutated tree outcomes loop last ∧ continues tree startingTip last = true

theorem innerNext_inl {startingTip : IndexEntry ι}
    (next : innerNext tree outcomes startingTip loop = .inl loop') :
    loop.pass tree outcomes = .stepped loop' ∧
      continues tree startingTip loop'.chain.tip = true := by
  rw [innerNext] at next
  cases done : loop.pass tree outcomes with
  | aborted abort =>
    rw [done] at next
    cases next
  | idle loop'' =>
    rw [done] at next
    cases next
  | stepped loop'' =>
    rw [done] at next
    dsimp only at next
    split at next
    · cases next
      exact ⟨rfl, ‹_›⟩
    · cases next

theorem innerLoopExits_iff (noNull : [] ∉ chain.candidates) :
    InnerLoopExits tree outcomes chain ↔
      ∀ loop, Loop.Reaches (innerNext tree outcomes chain.tip) ⟨chain, []⟩ loop →
        ¬ Stalls tree outcomes chain.tip loop := by
  refine Loop.exits_iff_never_stuck less_wf (measure (entriesOf chain) (boundOf chain))
    (Invariant tree (entriesOf chain) (boundOf chain)) ?_ ?_ ?_
    (invariant_initial tree noNull)
  · intro loop loop' invariant next
    exact (pass_stepped invariant (innerNext_inl next).1).1
  · intro loop loop' invariant free next
    obtain ⟨done, on⟩ := innerNext_inl next
    rcases (pass_stepped invariant done).2 with less | meets
    · exact less
    · exact absurd ⟨_, meets, on⟩ free
  · rintro loop invariant ⟨last, meets, on⟩
    obtain ⟨chain', done, rfl, again⟩ := pass_of_meets invariant meets
    refine ⟨⟨chain', []⟩, ?_, _, again, on⟩
    rw [innerNext, done]
    exact if_pos on

end LoopState

/-! ## The whole of `ActivateBestChain` -/

namespace ActivateState

open LoopState

def rank (entries : Finset (IndexEntry ι)) (bound : Nat) (state : ActivateState ι) :
    (Nat × Nat) × Nat :=
  (LoopState.measure entries bound state.loop, if state.blocksConnected then 1 else 0)

theorem next_inl {state state' : ActivateState ι} (next : state.next tree outcomes = .inl state') :
    (∃ loop, state.loop.pass tree outcomes = .stepped loop ∧ state'.loop = loop) ∨
      (state.loop.pass tree outcomes = .idle state'.loop ∧ state.blocksConnected = true ∧
        state'.blocksConnected = false ∧ state'.loop.mostWork ≠ state'.loop.chain.tip) := by
  rw [ActivateState.next] at next
  cases done : state.loop.pass tree outcomes with
  | aborted abort =>
    rw [done] at next
    cases next
  | idle loop =>
    rw [done] at next
    dsimp only [afterInner] at next
    split at next
    · cases next
    · rename_i connected
      split at next
      · rename_i different
        cases next
        exact .inr ⟨rfl, by simpa using connected, rfl, fun same => different same.symm⟩
      · cases next
  | stepped loop =>
    rw [done] at next
    refine .inl ⟨loop, rfl, ?_⟩
    dsimp only [afterInner] at next
    split at next
    · cases next
      rfl
    · simp only [Bool.not_true, false_eq_true, if_false] at next
      split at next
      · cases next
        rfl
      · cases next

theorem next_of_meets {state : ActivateState ι}
    (done : state.loop.pass tree outcomes = .stepped ⟨chain, []⟩) :
    ∃ state', state.next tree outcomes = .inl state' ∧ state'.loop = ⟨chain, []⟩ := by
  rw [ActivateState.next, done]
  dsimp only [afterInner]
  by_cases on : continues tree state.startingTip chain.tip = true
  · rw [if_pos on]
    exact ⟨_, rfl, rfl⟩
  · have tip : chain.tip ≠ [] := fun null => on (by simp [continues, null])
    rw [if_neg on]
    simp only [Bool.not_true, false_eq_true, if_false, tip, ne_eq, not_false_eq_true, if_true]
    exact ⟨_, rfl, rfl⟩

theorem returns_iff (noNull : [] ∉ chain.candidates) :
    Returns tree outcomes chain ↔
      ∀ state, Loop.Reaches (next tree outcomes) ⟨⟨chain, []⟩, chain.tip, false⟩ state →
        ¬ ∃ last, state.loop.MeetsMutated tree outcomes last := by
  refine Loop.exits_iff_never_stuck
    (WellFounded.prod_lex less_wf (lt_wfRel.wf : WellFounded (· < · : Nat → Nat → Prop)))
    (rank (entriesOf chain) (boundOf chain))
    (fun state => Invariant tree (entriesOf chain) (boundOf chain) state.loop) ?_ ?_ ?_
    (invariant_initial tree noNull)
  · intro state state' invariant next
    obtain ⟨loop, done, same⟩ | ⟨done, -⟩ := next_inl next
    · rw [same]
      exact (pass_stepped invariant done).1
    · exact (pass_idle invariant done).1
  · intro state state' invariant free next
    obtain ⟨loop, done, same⟩ | ⟨done, before, after, different⟩ := next_inl next
    · rcases (pass_stepped invariant done).2 with less | meets
      · rw [rank, rank, same]
        exact Prod.Lex.left _ _ less
      · exact absurd ⟨_, meets⟩ free
    · obtain ⟨null, null', same⟩ := (pass_idle invariant done).2.resolve_left different
      rw [rank, rank, before, after]
      simp only [LoopState.measure, distance, null, null', same, if_true]
      exact Prod.Lex.right _ (lt_succ_self 0)
  · rintro state invariant ⟨last, meets⟩
    obtain ⟨chain', done, -, again⟩ := pass_of_meets invariant meets
    obtain ⟨state', next, same⟩ := next_of_meets done
    exact ⟨state', next, last, by rw [same]; exact again⟩

end ActivateState

/-! ## Termination -/

section Termination

open LoopState ActivateState

/-- For every block tree, tip and assignment of outcomes: the inner loop exits
exactly when no pass meets a mutated block with the tip left below the starting
tip, and the whole function returns exactly when no pass meets a mutated block. -/
theorem activateBestChain_terminates_iff (tree : BlockTree ι) (outcomes : Outcomes ι)
    (chain : ChainState ι) (noNull : [] ∉ chain.candidates) :
    (InnerLoopExits tree outcomes chain ↔
      ∀ loop, Loop.Reaches (innerNext tree outcomes chain.tip) ⟨chain, []⟩ loop →
        ¬ Stalls tree outcomes chain.tip loop) ∧
    (Returns tree outcomes chain ↔
      ∀ state, Loop.Reaches (next tree outcomes) ⟨⟨chain, []⟩, chain.tip, false⟩ state →
        ¬ ∃ last, state.loop.MeetsMutated tree outcomes last) :=
  ⟨innerLoopExits_iff noNull, returns_iff noNull⟩

theorem not_meetsMutated (unmutated : ∀ entry, outcomes entry ≠ some .mutated) (loop : LoopState ι)
    (last : IndexEntry ι) : ¬ loop.MeetsMutated tree outcomes last := by
  rintro ⟨chain, mostWork, -, -, -, block⟩
  obtain ⟨id, -, mutated⟩ := block.mutated
  exact unmutated _ mutated

/-- A tree whose work is the height, received in one batch. -/
def heightTree : BlockTree Nat where
  nChainWork := length
  nSequenceId := fun _ => 0
  address := Encodable.encode
  haveTxsDownloaded := fun _ => true
  work_lt := fun _ _ => lt_succ_self _
  address_injective := Encodable.encode_injective

/-- One block on the active chain and a longer branch beside it. -/
def forkedChain : ChainState Nat where
  tip := [1, 0]
  failedValid := fun _ => false
  failedChild := fun _ => false
  haveData := fun _ => true
  candidates := [[1, 0], [3, 2, 0]]

theorem forkedChain_terminates_when_valid :
    InnerLoopExits heightTree (fun _ => none) forkedChain ∧
      Returns heightTree (fun _ => none) forkedChain := by
  obtain ⟨inner, outer⟩ :=
    activateBestChain_terminates_iff heightTree (fun _ => none) forkedChain (by decide)
  refine ⟨inner.mpr fun loop _ stalls => ?_, outer.mpr fun state _ meets => ?_⟩
  · obtain ⟨last, meets, -⟩ := stalls
    exact not_meetsMutated (by simp) loop last meets
  · obtain ⟨last, meets⟩ := meets
    exact not_meetsMutated (by simp) state.loop last meets

/-- The first block of the longer branch is found mutated after the active
block was disconnected: the inner loop takes the same candidate for ever. -/
theorem forkedChain_loops :
    ¬ InnerLoopExits heightTree (fun entry => if entry = [2, 0] then some .mutated else none)
      forkedChain := by
  intro exits
  refine (innerLoopExits_iff (by decide)).mp exits _ (.refl _) ⟨[0], ?_, by decide⟩
  refine ⟨forkedChain, [3, 2, 0], ?_, by decide, by decide, ⟨2, by decide, by decide⟩,
    by decide, ?_⟩
  · exact ChainState.findMostWorkChain_of_chosen
      ⟨by decide, fun entry _ _ _ => ⟨rfl, .inl rfl⟩⟩
  · intro entry inside outside
    exact absurd inside (by simpa [show forkedChain.findFork [3, 2, 0] = [0] by decide]
      using outside)

end Termination

end MooncoinFormal.Validation
