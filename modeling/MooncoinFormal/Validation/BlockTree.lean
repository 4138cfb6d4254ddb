import Mathlib
import MooncoinFormal.Validation.State

/-!
# The block tree and its candidates

`CBlockIndexWorkComparator`, `CChain::FindFork` and
`CChainState::FindMostWorkChain`. An entry of the block index is identified with
its chain, tip first, so that `pprev` is the tail and the ancestors of an entry
are its suffixes; the empty chain stands for the null pointer. The active chain
is the chain of its tip.
-/

namespace MooncoinFormal.Validation

open List Bool

/-- A block index entry: its chain of identifiers, tip first. -/
abbrev IndexEntry (ι : Type) := List ι

/-- The data of the block index that no step of the best-chain search changes. -/
structure BlockTree (ι : Type) where
  nChainWork : IndexEntry ι → Nat
  nSequenceId : IndexEntry ι → Int
  address : IndexEntry ι → Nat
  haveTxsDownloaded : IndexEntry ι → Bool
  work_lt : ∀ id parent, nChainWork parent < nChainWork (id :: parent)
  address_injective : Function.Injective address

/-- The part of `CChainState` that the search reads and changes. -/
structure ChainState (ι : Type) where
  tip : IndexEntry ι
  failedValid : IndexEntry ι → Bool
  failedChild : IndexEntry ι → Bool
  haveData : IndexEntry ι → Bool
  candidates : List (IndexEntry ι)

inductive Abort where
  | txsNotDownloaded
  | noCandidates
  | noTip
  deriving DecidableEq, Repr

variable {ι : Type}

variable {entries : List (IndexEntry ι)} {entry candidate : IndexEntry ι} {tree : BlockTree ι}
  {state : ChainState ι}

namespace BlockTree

/-- `CBlockIndexWorkComparator`: whether the first entry comes before the second. -/
def workComparator (tree : BlockTree ι) (pa pb : IndexEntry ι) : Bool :=
  if tree.nChainWork pa > tree.nChainWork pb then false
  else if tree.nChainWork pa < tree.nChainWork pb then true
  else if tree.nSequenceId pa < tree.nSequenceId pb then false
  else if tree.nSequenceId pa > tree.nSequenceId pb then true
  else if tree.address pa < tree.address pb then false
  else if tree.address pa > tree.address pb then true
  else false

theorem workComparator_iff (tree : BlockTree ι) (pa pb : IndexEntry ι) :
    tree.workComparator pa pb = true ↔
      tree.nChainWork pa < tree.nChainWork pb ∨
        (tree.nChainWork pa = tree.nChainWork pb ∧
          (tree.nSequenceId pb < tree.nSequenceId pa ∨
            (tree.nSequenceId pa = tree.nSequenceId pb ∧ tree.address pb < tree.address pa))) := by
  unfold workComparator
  split_ifs <;> simp <;> omega

theorem workComparator_eq_false {pa pb : IndexEntry ι} : tree.workComparator pa pb = false ↔
    tree.nChainWork pb < tree.nChainWork pa ∨
      (tree.nChainWork pa = tree.nChainWork pb ∧
        (tree.nSequenceId pa < tree.nSequenceId pb ∨
          (tree.nSequenceId pa = tree.nSequenceId pb ∧ tree.address pa ≤ tree.address pb))) := by
  rw [eq_false_iff, ne_eq, workComparator_iff]
  omega

theorem workComparator_trans {pa pb pc : IndexEntry ι} (first : tree.workComparator pa pb = false)
    (second : tree.workComparator pb pc = false) : tree.workComparator pa pc = false := by
  rw [workComparator_eq_false] at *
  omega

theorem workComparator_asymm {pa pb : IndexEntry ι} (first : tree.workComparator pa pb = true) :
    tree.workComparator pb pa = false := by
  rw [workComparator_iff] at first
  rw [workComparator_eq_false]
  omega

theorem workComparator_total {pa pb : IndexEntry ι} (notBefore : tree.workComparator pa pb = false)
    (notAfter : tree.workComparator pb pa = false) : pa = pb := by
  apply tree.address_injective
  rw [workComparator_eq_false] at notBefore notAfter
  omega

theorem workComparator_irrefl (tree : BlockTree ι) (entry : IndexEntry ι) :
    tree.workComparator entry entry = false := by
  rw [workComparator_eq_false]
  omega

theorem workComparator_ancestor {ancestor : IndexEntry ι} (above : ancestor <:+ entry) :
    tree.workComparator entry ancestor = false := by
  have work : ancestor = entry ∨ tree.nChainWork ancestor < tree.nChainWork entry := by
    induction entry with
    | nil => exact .inl (suffix_nil.mp above)
    | cons id parent ih =>
      rcases suffix_cons_iff.mp above with same | below
      · exact .inl same
      · have step := tree.work_lt id parent
        rcases ih below with same | less
        · subst same
          exact .inr step
        · exact .inr (lt_trans less step)
  rcases work with same | less
  · rw [same]
    exact workComparator_irrefl tree entry
  · rw [workComparator_eq_false]
    omega

/-- The last element of the candidate set, `*setBlockIndexCandidates.rbegin()`. -/
def best (tree : BlockTree ι) : List (IndexEntry ι) → Option (IndexEntry ι)
  | [] => none
  | entry :: rest =>
    match tree.best rest with
    | none => some entry
    | some other => if tree.workComparator entry other then some other else some entry

theorem best_eq_none : tree.best entries = none ↔ entries = [] := by
  cases entries with
  | nil => simp [best]
  | cons first rest =>
    rw [best]
    cases tree.best rest with
    | none => simp
    | some top =>
      dsimp only
      split <;> simp

theorem best_spec (found : tree.best entries = some entry) :
    entry ∈ entries ∧ ∀ other ∈ entries, tree.workComparator entry other = false := by
  induction entries generalizing entry with
  | nil => simp [best] at found
  | cons first rest ih =>
    rw [best] at found
    cases hrest : tree.best rest with
    | none =>
      obtain rfl := best_eq_none.mp hrest
      cases found
      exact ⟨by simp, by simp [workComparator_irrefl]⟩
    | some top =>
      rw [hrest] at found
      obtain ⟨member, greatest⟩ := ih hrest
      dsimp only at found
      split at found
      · rename_i behind
        cases found
        exact ⟨mem_cons_of_mem _ member,
          forall_mem_cons.mpr ⟨workComparator_asymm behind, greatest⟩⟩
      · rename_i ahead
        cases found
        refine ⟨mem_cons_self, forall_mem_cons.mpr ⟨workComparator_irrefl tree _,
          fun other tail => ?_⟩⟩
        exact workComparator_trans (eq_false_iff.mpr ahead) (greatest other tail)

theorem best_of_greatest (member : entry ∈ entries)
    (greatest : ∀ other ∈ entries, tree.workComparator entry other = false) :
    tree.best entries = some entry := by
  cases found : tree.best entries with
  | none =>
    rw [best_eq_none.mp found] at member
    simp at member
  | some top =>
    obtain ⟨inside, top_greatest⟩ := best_spec found
    rw [workComparator_total (greatest top inside) (top_greatest entry member)]

/-- Removing candidates other than the best one does not change the best one. -/
theorem best_filter (keep : IndexEntry ι → Bool) (found : tree.best entries = some entry)
    (kept : keep entry = true) : tree.best (entries.filter keep) = some entry := by
  obtain ⟨member, greatest⟩ := best_spec found
  refine best_of_greatest (mem_filter.mpr ⟨member, kept⟩) fun other inside => ?_
  exact greatest other (mem_filter.mp inside).1

end BlockTree

/-! ## Searching the candidates -/

namespace ChainState

variable [DecidableEq ι]

/-- `m_chain.Contains`. -/
def contains (state : ChainState ι) (entry : IndexEntry ι) : Bool :=
  entry.isSuffixOf state.tip

theorem contains_iff : state.contains entry = true ↔ entry <:+ state.tip :=
  isSuffixOf_iff_suffix

def usable (state : ChainState ι) (entry : IndexEntry ι) : Bool :=
  !(state.failedValid entry || state.failedChild entry) && state.haveData entry

omit [DecidableEq ι] in
theorem usable_failedValid (usable : state.usable entry = true) :
    state.failedValid entry = false := by
  rw [ChainState.usable, and_eq_true, not_eq_true', or_eq_false_iff] at usable
  exact usable.1.1

def erase (state : ChainState ι) (entry : IndexEntry ι) : ChainState ι :=
  { state with candidates := state.candidates.filter fun other => other ≠ entry }

/-- The walk from a candidate towards the active chain, up to the first entry
that makes the candidate unusable. -/
def firstUnusable (tree : BlockTree ι) (state : ChainState ι) :
    IndexEntry ι → Except Abort (Option (IndexEntry ι))
  | [] => .ok none
  | id :: parent =>
    if state.contains (id :: parent) then .ok none
    else if !(tree.haveTxsDownloaded (id :: parent) || decide (parent = [])) then
      .error .txsNotDownloaded
    else if state.usable (id :: parent) then state.firstUnusable tree parent
    else .ok (some (id :: parent))

/-- `while (pindexTest != pindexFailed)`: remove the entries above the unusable
one, and mark them when it is a failed one. -/
def removeChain (failedChain : Bool) (test : IndexEntry ι) :
    IndexEntry ι → ChainState ι → ChainState ι
  | [], state => state
  | id :: parent, state =>
    if id :: parent = test then state
    else
      removeChain failedChain test parent
        { state.erase (id :: parent) with
          failedChild := fun entry =>
            state.failedChild entry || (failedChain && decide (entry = id :: parent)) }

/-- One round of `FindMostWorkChain` after an unusable entry was met. -/
def dropCandidate (state : ChainState ι) (candidate test : IndexEntry ι) : ChainState ι :=
  (removeChain (state.failedValid test || state.failedChild test) test candidate state).erase test

/-- The `do … while (true)` of `FindMostWorkChain`; every round removes a
candidate, so `candidates.length` rounds are enough. -/
def findMostWorkChainLoop (tree : BlockTree ι) :
    (rounds : Nat) → ChainState ι → Except Abort (ChainState ι × IndexEntry ι)
  | 0, state => .ok (state, [])
  | rounds + 1, state =>
    match tree.best state.candidates with
    | none => .ok (state, [])
    | some candidate =>
      match state.firstUnusable tree candidate with
      | .error abort => .error abort
      | .ok none => .ok (state, candidate)
      | .ok (some test) => findMostWorkChainLoop tree rounds (state.dropCandidate candidate test)

def findMostWorkChain (tree : BlockTree ι) (state : ChainState ι) :
    Except Abort (ChainState ι × IndexEntry ι) :=
  findMostWorkChainLoop tree state.candidates.length state

/-- What the search never changes. -/
structure SameChain (state state' : ChainState ι) : Prop where
  tip : state'.tip = state.tip
  failedValid : state'.failedValid = state.failedValid
  haveData : state'.haveData = state.haveData
  candidates : state'.candidates.Sublist state.candidates

omit [DecidableEq ι] in
theorem SameChain.refl (state : ChainState ι) : SameChain state state :=
  ⟨rfl, rfl, rfl, .refl _⟩

omit [DecidableEq ι] in
theorem SameChain.trans {first second third : ChainState ι}
    (left : SameChain first second) (right : SameChain second third) : SameChain first third :=
  ⟨right.tip.trans left.tip, right.failedValid.trans left.failedValid,
    right.haveData.trans left.haveData, right.candidates.trans left.candidates⟩

theorem erase_sameChain (state : ChainState ι) (entry : IndexEntry ι) :
    SameChain state (state.erase entry) :=
  ⟨rfl, rfl, rfl, filter_sublist⟩

theorem removeChain_sameChain (failedChain : Bool) (test entry : IndexEntry ι)
    (state : ChainState ι) : SameChain state (removeChain failedChain test entry state) := by
  induction entry generalizing state with
  | nil => exact .refl state
  | cons id parent ih =>
    rw [removeChain]
    split
    · exact .refl state
    · have erased := erase_sameChain state (id :: parent)
      refine SameChain.trans ?_ (ih _)
      exact ⟨erased.tip, erased.failedValid, erased.haveData, erased.candidates⟩

theorem dropCandidate_sameChain (state : ChainState ι) (candidate test : IndexEntry ι) :
    SameChain state (state.dropCandidate candidate test) :=
  (removeChain_sameChain _ _ _ _).trans (erase_sameChain _ _)

theorem removeChain_notMem {failedChain : Bool} {test : IndexEntry ι} (nonempty : entry ≠ [])
    (above : entry ≠ test) : entry ∉ (removeChain failedChain test entry state).candidates := by
  cases entry with
  | nil => exact absurd rfl nonempty
  | cons id parent =>
    rw [removeChain, if_neg above]
    intro inside
    have before := (removeChain_sameChain failedChain test parent _).candidates.subset inside
    simp [erase] at before

theorem dropCandidate_notMem {test : IndexEntry ι} (nonempty : candidate ≠ []) :
    candidate ∉ (state.dropCandidate candidate test).candidates := by
  intro inside
  rw [dropCandidate, erase, mem_filter] at inside
  by_cases same : candidate = test
  · simp [same] at inside
  · exact removeChain_notMem nonempty same inside.1

/-- No entry between the candidate and the active chain is unusable. -/
def PathUsable (tree : BlockTree ι) (state : ChainState ι) (candidate : IndexEntry ι) : Prop :=
  ∀ entry, entry <:+ candidate → entry ≠ [] → ¬ entry <:+ state.tip →
    state.usable entry = true ∧ (tree.haveTxsDownloaded entry = true ∨ entry.length = 1)

theorem firstUnusable_eq_none :
    state.firstUnusable tree candidate = .ok none ↔ state.PathUsable tree candidate := by
  induction candidate with
  | nil =>
    simp only [firstUnusable, true_iff]
    intro entry above nonempty
    exact absurd (suffix_nil.mp above) nonempty
  | cons id parent ih =>
    rw [firstUnusable]
    by_cases inside : state.contains (id :: parent) = true
    · rw [if_pos inside]
      simp only [true_iff]
      intro entry above _ outside
      exact absurd (above.trans (contains_iff.mp inside)) outside
    · rw [if_neg inside]
      have outside : ¬ (id :: parent) <:+ state.tip := fun h => inside (contains_iff.mpr h)
      have split : state.PathUsable tree (id :: parent) ↔
          (state.usable (id :: parent) = true ∧
            (tree.haveTxsDownloaded (id :: parent) = true ∨ parent = [])) ∧
          state.PathUsable tree parent := by
        simp only [PathUsable, suffix_cons_iff, forall_eq_or_imp]
        simp [outside]
      rw [split, ← ih]
      cases haveTxs : tree.haveTxsDownloaded (id :: parent) <;>
        cases usable : state.usable (id :: parent) <;>
        by_cases root : parent = [] <;> simp [root]

/-- The entry is the best candidate, and nothing on its way is unusable. -/
structure Chosen (tree : BlockTree ι) (state : ChainState ι) (candidate : IndexEntry ι) : Prop where
  best : tree.best state.candidates = some candidate
  path : state.PathUsable tree candidate

theorem dropCandidate_length_lt (test : IndexEntry ι) (nonempty : candidate ≠ [])
    (member : candidate ∈ state.candidates) :
    (state.dropCandidate candidate test).candidates.length < state.candidates.length := by
  have sub := (dropCandidate_sameChain state candidate test).candidates
  refine lt_of_le_of_ne sub.length_le fun same => ?_
  rw [← sub.eq_of_length same] at member
  exact dropCandidate_notMem nonempty member

variable {state' : ChainState ι}

theorem findMostWorkChainLoop_spec {rounds : Nat}
    (noNull : [] ∉ state.candidates) (enough : state.candidates.length ≤ rounds)
    (found : findMostWorkChainLoop tree rounds state = .ok (state', candidate)) :
    SameChain state state' ∧
      ((candidate = [] ∧ state'.candidates = []) ∨
        (candidate ≠ [] ∧ state'.Chosen tree candidate)) := by
  induction rounds generalizing state with
  | zero =>
    cases found
    exact ⟨.refl _, .inl ⟨rfl, length_eq_zero_iff.mp (Nat.le_zero.mp enough)⟩⟩
  | succ rounds ih =>
    rw [findMostWorkChainLoop] at found
    split at found
    · rename_i top
      cases found
      exact ⟨.refl _, .inl ⟨rfl, BlockTree.best_eq_none.mp top⟩⟩
    · rename_i first top
      obtain ⟨member, -⟩ := BlockTree.best_spec top
      have nonempty : first ≠ [] := fun null => noNull (null ▸ member)
      split at found
      · cases found
      · rename_i walk
        cases found
        exact ⟨.refl _, .inr ⟨nonempty, top, firstUnusable_eq_none.mp walk⟩⟩
      · rename_i test walk
        have same := dropCandidate_sameChain state first test
        have shorter := dropCandidate_length_lt test nonempty member
        obtain ⟨rest, outcome⟩ :=
          ih (fun null => noNull (same.candidates.subset null)) (by omega) found
        exact ⟨same.trans rest, outcome⟩

theorem findMostWorkChain_spec (noNull : [] ∉ state.candidates)
    (found : state.findMostWorkChain tree = .ok (state', candidate)) :
    SameChain state state' ∧
      ((candidate = [] ∧ state'.candidates = []) ∨
        (candidate ≠ [] ∧ state'.Chosen tree candidate)) :=
  findMostWorkChainLoop_spec noNull (le_refl _) found

theorem findMostWorkChain_of_chosen (chosen : state.Chosen tree candidate) :
    state.findMostWorkChain tree = .ok (state, candidate) := by
  obtain ⟨member, -⟩ := BlockTree.best_spec chosen.best
  rw [findMostWorkChain, ← Nat.succ_pred_eq_of_pos (length_pos_of_mem member),
    findMostWorkChainLoop, chosen.best]
  simp only [firstUnusable_eq_none.mpr chosen.path]

/-! ## The fork with the active chain -/

/-- The walk of `CChain::FindFork` down to the first entry of the active chain. -/
def forkWalk (tip : IndexEntry ι) : IndexEntry ι → IndexEntry ι
  | [] => []
  | id :: parent => if (id :: parent).isSuffixOf tip then id :: parent else forkWalk tip parent

/-- `CChain::FindFork`: start no higher than the active chain reaches. -/
def findFork (state : ChainState ι) (entry : IndexEntry ι) : IndexEntry ι :=
  forkWalk state.tip (entry.drop (entry.length - state.tip.length))

theorem forkWalk_spec (tip entry : IndexEntry ι) :
    forkWalk tip entry <:+ entry ∧ forkWalk tip entry <:+ tip ∧
      ∀ common, common <:+ entry → common <:+ tip → common <:+ forkWalk tip entry := by
  induction entry with
  | nil => exact ⟨suffix_rfl, nil_suffix, fun common above _ => above⟩
  | cons id parent ih =>
    rw [forkWalk]
    split
    · rename_i inside
      exact ⟨suffix_rfl, isSuffixOf_iff_suffix.mp inside, fun common above _ => above⟩
    · rename_i outside
      refine ⟨ih.1.trans (suffix_cons _ _), ih.2.1, fun common above inside => ?_⟩
      rcases suffix_cons_iff.mp above with same | deeper
      · subst same
        exact absurd (isSuffixOf_iff_suffix.mpr inside) outside
      · exact ih.2.2 common deeper inside

/-- The fork is the greatest common ancestor of the entry and the tip. -/
theorem findFork_spec (state : ChainState ι) (entry : IndexEntry ι) :
    state.findFork entry <:+ entry ∧ state.findFork entry <:+ state.tip ∧
      ∀ common, common <:+ entry → common <:+ state.tip → common <:+ state.findFork entry := by
  obtain ⟨below, inside, greatest⟩ :=
    forkWalk_spec state.tip (entry.drop (entry.length - state.tip.length))
  refine ⟨below.trans (drop_suffix _ _), inside, fun common above shared => ?_⟩
  refine greatest common ?_ shared
  refine suffix_of_suffix_length_le above (drop_suffix _ _) ?_
  have first := above.length_le
  have second := shared.length_le
  rw [length_drop]
  omega

theorem findFork_of_suffix (inside : state.tip <:+ entry) : state.findFork entry = state.tip := by
  obtain ⟨-, below, greatest⟩ := findFork_spec state entry
  exact List.IsSuffix.eq_of_length_le (greatest _ inside suffix_rfl) below.length_le |>.symm

end ChainState

end MooncoinFormal.Validation
