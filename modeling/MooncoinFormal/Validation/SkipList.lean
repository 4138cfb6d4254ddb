import MooncoinFormal.Validation.BlockTree

/-!
# Skip pointers and locators

`CBlockIndex::GetAncestor`, `BuildSkip`, `LastCommonAncestor`, `CChain::FindFork`,
`CChain::GetLocator` and `FindForkInGlobalIndex`. A skip pointer is either null or
leads to the ancestor that `GetSkipHeight` names; this is all that a walk relies on,
and `BuildSkip` keeps it in whatever order entries are added.
-/

namespace MooncoinFormal.Validation

open List Function Nat

variable {ι : Type}

namespace SkipList

/-- The height of an entry, and `-1` for the null pointer as for an empty chain. -/
def nHeight (entry : IndexEntry ι) : Int := entry.length - 1

def invertLowestOne (n : Nat) : Nat := n &&& (n - 1)

def getSkipHeight (height : Nat) : Nat :=
  if height < 2 then 0
  else if height % 2 = 1 then invertLowestOne (invertLowestOne (height - 1)) + 1
  else invertLowestOne height

/-- The ancestor to which the skip pointer of an entry leads. -/
def skipAncestor (entry : IndexEntry ι) : IndexEntry ι :=
  entry.drop (entry.length - 1 - getSkipHeight (entry.length - 1))

/-- The pointers `pskip` of all entries. -/
abbrev SkipPointers (ι : Type) := IndexEntry ι → IndexEntry ι

/-- The loop of `GetAncestor`, with nothing when its assertion fails; `steps` bounds it. -/
def ancestorWalk (pskip : SkipPointers ι) (height : Nat) :
    (steps heightWalk : Nat) → IndexEntry ι → Option (IndexEntry ι)
  | 0, _, pindexWalk => some pindexWalk
  | steps + 1, heightWalk, pindexWalk =>
    if heightWalk ≤ height then some pindexWalk
    else
      let heightSkip := getSkipHeight heightWalk
      let heightSkipPrev := getSkipHeight (heightWalk - 1)
      if pskip pindexWalk ≠ [] ∧ (heightSkip = height ∨ (heightSkip > height ∧
          ¬ (heightSkipPrev + 2 < heightSkip ∧ heightSkipPrev ≥ height))) then
        ancestorWalk pskip height steps heightSkip (pskip pindexWalk)
      else if pindexWalk.tail = [] then none
      else ancestorWalk pskip height steps (heightWalk - 1) pindexWalk.tail

variable (pskip : SkipPointers ι)

def getAncestor (entry : IndexEntry ι) (height : Int) : Option (IndexEntry ι) :=
  if height > nHeight entry ∨ height < 0 then some []
  else ancestorWalk pskip height.toNat (entry.length - 1) (entry.length - 1) entry

section Build

variable [DecidableEq ι] (pskip : SkipPointers ι)

def buildSkip (entry : IndexEntry ι) : Option (SkipPointers ι) :=
  if entry.tail = [] then some pskip
  else (getAncestor pskip entry.tail (getSkipHeight (entry.length - 1))).map
    (update pskip entry)

/-- `BuildSkip` on each new entry, from no skip pointers. -/
def buildIndex (entries : List (IndexEntry ι)) : Option (SkipPointers ι) :=
  entries.foldlM buildSkip fun _ => []

/-- The loop of `LastCommonAncestor`, with its assertion. -/
def commonWalk : IndexEntry ι → IndexEntry ι → Option (IndexEntry ι)
  | a :: pa, b :: pb => if a :: pa = b :: pb then some (a :: pa) else commonWalk pa pb
  | pa, pb => if pa = pb then some pa else none

def lastCommonAncestor (pa pb : IndexEntry ι) : Option (IndexEntry ι) :=
  if pa.length > pb.length then
    (getAncestor pskip pa (nHeight pb)).bind fun pa => commonWalk pa pb
  else if pb.length > pa.length then
    (getAncestor pskip pb (nHeight pa)).bind fun pb => commonWalk pa pb
  else commonWalk pa pb

/-- `CChain::FindFork` for the chain of a tip. -/
def findFork (tip pindex : IndexEntry ι) : Option (IndexEntry ι) :=
  if pindex.length > tip.length then
    (getAncestor pskip pindex (nHeight tip)).map (ChainState.forkWalk tip)
  else some (ChainState.forkWalk tip pindex)

end Build

/-! ## Ancestors -/

/-- Every skip pointer is null or leads to the right ancestor. -/
def Right : Prop :=
  ∀ entry, pskip entry = [] ∨ pskip entry = skipAncestor entry

theorem invertLowestOne_lt {n : Nat} (positive : 0 < n) : invertLowestOne n < n :=
  lt_of_le_of_lt and_le_right (sub_lt positive Nat.one_pos)

theorem getSkipHeight_lt {height : Nat} (positive : 0 < height) :
    getSkipHeight height < height := by
  unfold getSkipHeight
  split
  · exact positive
  have first := @invertLowestOne_lt (height - 1) (by omega)
  split
  · rcases Nat.eq_zero_or_pos (invertLowestOne (height - 1)) with zero | some
    · rw [zero, invertLowestOne, zero_and]
      omega
    · have second := invertLowestOne_lt some
      omega
  · exact invertLowestOne_lt positive

variable {pskip : SkipPointers ι} {entry : IndexEntry ι}

section

variable (right : Right pskip)
include right

theorem ancestorWalk_spec {height steps heightWalk : Nat}
    (length : entry.length = heightWalk + 1) (above : height ≤ heightWalk)
    (bound : heightWalk ≤ steps + height) :
    ancestorWalk pskip height steps heightWalk entry = some (entry.drop (heightWalk - height)) := by
  induction steps generalizing heightWalk entry with
  | zero =>
    rw [ancestorWalk, show heightWalk - height = 0 by omega, drop_zero]
  | succ steps ih =>
    rw [ancestorWalk]
    split
    · rw [show heightWalk - height = 0 by omega, drop_zero]
    have lower := @getSkipHeight_lt heightWalk (by omega)
    dsimp only
    split
    · rename_i skips
      have skip := (right entry).resolve_left skips.1
      rw [skipAncestor, length, Nat.add_sub_cancel] at skip
      rw [skip, ih (by rw [length_drop]; omega) (by omega) (by omega), drop_drop]
      congr 2
      omega
    · have tail : entry.tail.length = heightWalk - 1 + 1 := by rw [length_tail]; omega
      rw [if_neg (ne_nil_of_length_pos (by omega)), ih tail (by omega) (by omega),
        ← drop_one, drop_drop]
      congr 2
      omega

theorem getAncestor_of_lt {height : Nat} (inside : height < entry.length) :
    getAncestor pskip entry height = some (entry.drop (entry.length - 1 - height)) := by
  rw [getAncestor, if_neg (by rw [nHeight]; omega), Int.toNat_natCast]
  exact ancestorWalk_spec right (by omega) (by omega) (by omega)

theorem getAncestor_nHeight {entry other : IndexEntry ι} (fits : other.length ≤ entry.length) :
    getAncestor pskip entry (nHeight other) = some (entry.drop (entry.length - other.length)) := by
  cases other with
  | nil => rw [getAncestor, if_pos (Or.inr (by simp [nHeight])), length_nil, Nat.sub_zero,
      drop_length]
  | cons id parent =>
    have height : nHeight (id :: parent) = (parent.length : Nat) := by simp [nHeight]
    rw [height, getAncestor_of_lt right fits, length_cons]
    congr 2
    omega

theorem getAncestor_tip (pindex tip : IndexEntry ι) :
    ∃ ancestor, getAncestor pskip pindex (nHeight tip) = some ancestor ∧
      (ancestor = tip ↔ tip <:+ pindex) := by
  by_cases fits : tip.length ≤ pindex.length
  · exact ⟨_, getAncestor_nHeight right fits, eq_comm.trans suffix_iff_eq_drop.symm⟩
  · refine ⟨[], if_pos (Or.inl (by simp only [nHeight]; omega)), ?_⟩
    refine ⟨fun same => ?_, fun below => absurd below.length_le fits⟩
    rw [← same]
    exact nil_suffix

end

section Build

variable [DecidableEq ι]

theorem Right.buildSkip (right : Right pskip) (entry : IndexEntry ι) :
    ∃ pskip', buildSkip pskip entry = some pskip' ∧ Right pskip' := by
  unfold SkipList.buildSkip
  split
  · exact ⟨pskip, rfl, right⟩
  rename_i parent
  have positive := length_pos_of_ne_nil parent
  rw [length_tail] at positive
  have lower := getSkipHeight_lt positive
  rw [getAncestor_of_lt right (by rw [length_tail]; exact lower)]
  refine ⟨_, rfl, fun other => ?_⟩
  by_cases same : other = entry
  · subst same
    refine Or.inr ?_
    rw [update_self, skipAncestor, length_tail, ← drop_one, drop_drop]
    congr 1
    omega
  · rw [update_of_ne same]
    exact right other

variable (entries : List (IndexEntry ι))

theorem right_of_buildIndex : ∃ pskip, buildIndex entries = some pskip ∧ Right pskip := by
  suffices run : ∀ pskip : SkipPointers ι, Right pskip →
      ∃ pskip', entries.foldlM SkipList.buildSkip pskip = some pskip' ∧ Right pskip' from
    run _ fun _ => Or.inl rfl
  induction entries with
  | nil => exact fun pskip right => ⟨pskip, rfl, right⟩
  | cons entry rest ih =>
    intro pskip right
    obtain ⟨next, built, right⟩ := right.buildSkip entry
    rw [foldlM_cons, built]
    exact ih next right

theorem right_of_built {entries : List (IndexEntry ι)} (built : buildIndex entries = some pskip) :
    Right pskip := by
  obtain ⟨other, built', right⟩ := right_of_buildIndex entries
  cases built.symm.trans built'
  exact right

/-! ## Common ancestors -/

/-- The block is on both branches, and every block that is lies on its own branch. -/
structure HighestCommon (pa pb common : IndexEntry ι) : Prop where
  first : common <:+ pa
  second : common <:+ pb
  highest : ∀ other, other <:+ pa → other <:+ pb → other <:+ common

variable {pa pb common : IndexEntry ι}

omit [DecidableEq ι] in
theorem HighestCommon.of_drop {n : Nat}
    (found : HighestCommon (pa.drop n) pb common) (fits : pb.length ≤ pa.length - n) :
    HighestCommon pa pb common where
  first := found.first.trans (drop_suffix _ _)
  second := found.second
  highest := fun other above below => by
    refine found.highest other ?_ below
    refine suffix_of_suffix_length_le above (drop_suffix _ _) ?_
    rw [length_drop]
    exact below.length_le.trans fits

omit [DecidableEq ι] in
theorem HighestCommon.symm (found : HighestCommon pa pb common) : HighestCommon pb pa common :=
  ⟨found.second, found.first, fun other below above => found.highest other above below⟩

theorem commonWalk_spec {pa pb : IndexEntry ι} (length : pa.length = pb.length) :
    ∃ common, commonWalk pa pb = some common ∧ HighestCommon pa pb common := by
  induction pa generalizing pb with
  | nil =>
    obtain rfl := length_eq_zero_iff.mp length.symm
    exact ⟨[], rfl, suffix_rfl, suffix_rfl, fun _ above _ => above⟩
  | cons a pa ih =>
    obtain ⟨b, pb, rfl⟩ := exists_cons_of_length_eq_add_one length.symm
    rw [commonWalk]
    split
    · rename_i same
      exact ⟨_, rfl, suffix_rfl, same ▸ suffix_rfl, fun _ above _ => above⟩
    · rename_i different
      obtain ⟨common, walk, found⟩ := ih (succ.inj length)
      refine ⟨common, walk, found.first.trans (suffix_cons _ _),
        found.second.trans (suffix_cons _ _), fun other above below => ?_⟩
      -- a common block is below both ends, for at an end it would be the other end too
      rcases suffix_cons_iff.mp above with rfl | above'
      · exact absurd (List.IsSuffix.eq_of_length below length) different
      · rcases suffix_cons_iff.mp below with rfl | below'
        · exact absurd (List.IsSuffix.eq_of_length above length.symm).symm different
        · exact found.highest other above' below'

theorem lastCommonAncestor_spec (right : Right pskip) (pa pb : IndexEntry ι) :
    ∃ common, lastCommonAncestor pskip pa pb = some common ∧ HighestCommon pa pb common := by
  unfold lastCommonAncestor
  split
  · rename_i longer
    rw [getAncestor_nHeight right longer.le]
    obtain ⟨common, walk, found⟩ :=
      @commonWalk_spec _ _ (pa.drop (pa.length - pb.length)) pb (by rw [length_drop]; omega)
    exact ⟨common, walk, found.of_drop (by omega)⟩
  · split
    · rename_i shorter
      rw [getAncestor_nHeight right shorter.le]
      obtain ⟨common, walk, found⟩ :=
        @commonWalk_spec _ _ pa (pb.drop (pb.length - pa.length)) (by rw [length_drop]; omega)
      exact ⟨common, walk, (found.symm.of_drop (by omega)).symm⟩
    · exact commonWalk_spec (by omega)

theorem findFork_spec (right : Right pskip) (tip pindex : IndexEntry ι) :
    ∃ fork, findFork pskip tip pindex = some fork ∧ HighestCommon pindex tip fork := by
  have walk : ∀ entry, HighestCommon entry tip (ChainState.forkWalk tip entry) := fun entry =>
    have ⟨below, inside, greatest⟩ := ChainState.forkWalk_spec tip entry
    ⟨below, inside, greatest⟩
  unfold findFork
  split
  · rename_i longer
    rw [getAncestor_nHeight right longer.le]
    exact ⟨_, rfl, (walk _).of_drop (by omega)⟩
  · exact ⟨_, rfl, walk pindex⟩

/-- With skip pointers built for any entries, no assertion fails, the ancestor at every height of a
branch is found, and so are the highest common blocks of two branches. -/
theorem getAncestor_of_buildIndex (entries : List (IndexEntry ι)) :
    ∃ pskip, buildIndex entries = some pskip ∧
      (∀ (entry : IndexEntry ι) (height : Nat), height < entry.length →
        ∃ ancestor, getAncestor pskip entry height = some ancestor ∧
          ancestor <:+ entry ∧ nHeight ancestor = height) ∧
      (∀ pa pb : IndexEntry ι, ∃ common,
        lastCommonAncestor pskip pa pb = some common ∧ HighestCommon pa pb common) ∧
      ∀ tip pindex : IndexEntry ι, ∃ fork,
        findFork pskip tip pindex = some fork ∧ HighestCommon pindex tip fork := by
  obtain ⟨pskip, built, right⟩ := right_of_buildIndex entries
  refine ⟨pskip, built, fun entry height inside => ?_, lastCommonAncestor_spec right,
    findFork_spec right⟩
  refine ⟨_, getAncestor_of_lt right inside, drop_suffix _ _, ?_⟩
  rw [nHeight, length_drop]
  omega

end Build

end SkipList

end MooncoinFormal.Validation
