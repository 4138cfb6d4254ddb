import MooncoinFormal.Validation.SkipList

/-!
# Locators

`CChain::GetLocator` on one side and `FindForkInGlobalIndex` on the other. The steps
of a locator double from its eleventh entry on; `nStep` is taken not to wrap.
-/

namespace MooncoinFormal.Validation.SkipList

open List Option

variable {ι : Type} [DecidableEq ι]

/-- `CChain::operator[]` for the chain of a tip. -/
def chainAt (tip : IndexEntry ι) (height : Int) : IndexEntry ι :=
  if height < 0 ∨ height ≥ tip.length then [] else tip.drop (tip.length - 1 - height.toNat)

def contains (tip pindex : IndexEntry ι) : Bool := chainAt tip (nHeight pindex) = pindex

/-- The loop of `GetLocator`, with `size` entries pushed before; `bound` bounds it. -/
def locatorFrom (pskip : SkipPointers ι) (tip : IndexEntry ι) :
    (bound nStep size : Nat) → IndexEntry ι → Option (List ι)
  | 0, _, _, _ => some []
  | _ + 1, _, _, [] => some []
  | bound + 1, nStep, size, id :: parent =>
    if parent = [] then some [id]
    else
      let nHeight := parent.length - nStep
      let next := if contains tip (id :: parent) then some (chainAt tip nHeight)
        else getAncestor pskip (id :: parent) nHeight
      next.bind fun pindex =>
        (locatorFrom pskip tip bound (if size + 1 > 10 then nStep * 2 else nStep) (size + 1)
          pindex).map (id :: ·)

def getLocator (pskip : SkipPointers ι) (tip pindex : IndexEntry ι) : Option (List ι) :=
  let pindex := if pindex = [] then tip else pindex
  locatorFrom pskip tip pindex.length 1 0 pindex

/-- The entries of a block index by their hashes; they form one tree. -/
structure BlockMap (ι : Type) where
  lookup : ι → Option (IndexEntry ι)
  genesis : ι
  head : ∀ {hash entry}, lookup hash = some entry → entry.head? = some hash
  rooted : ∀ {hash entry}, lookup hash = some entry → [genesis] <:+ entry
  closed : ∀ {hash child id parent}, lookup hash = some (child :: id :: parent) →
    lookup id = some (id :: parent)

def findForkInGlobalIndex (pskip : SkipPointers ι) (map : BlockMap ι) (tip : IndexEntry ι) :
    List ι → Option (IndexEntry ι)
  | [] => some (chainAt tip 0)
  | hash :: vHave =>
    match map.lookup hash with
    | none => findForkInGlobalIndex pskip map tip vHave
    | some pindex =>
      if contains tip pindex then some pindex
      else (getAncestor pskip pindex (nHeight tip)).bind fun ancestor =>
        if ancestor = tip then some tip else findForkInGlobalIndex pskip map tip vHave

/-- The entry is in the index, under its own hash. -/
def BlockMap.Has (map : BlockMap ι) (entry : IndexEntry ι) : Prop :=
  ∃ hash, map.lookup hash = some entry

/-- How far the next entry lies below that at a position, unless the genesis block is nearer. -/
def locatorStep (position : Nat) : Nat := 2 ^ (position - 10)

variable {tip pindex entry : IndexEntry ι} {pskip pskip' : SkipPointers ι} {map : BlockMap ι}

omit [DecidableEq ι] in
theorem BlockMap.Has.suffix (known : map.Has pindex) (below : entry <:+ pindex)
    (nonempty : entry ≠ []) : map.Has entry := by
  obtain ⟨hash, found⟩ := known
  induction pindex generalizing hash with
  | nil => exact absurd (suffix_nil.mp below) nonempty
  | cons id parent ih =>
    rcases suffix_cons_iff.mp below with rfl | below'
    · exact ⟨hash, found⟩
    · cases parent with
      | nil => exact absurd (suffix_nil.mp below') nonempty
      | cons id' parent => exact ih below' id' (map.closed found)

omit [DecidableEq ι] in
theorem BlockMap.Has.lookup {id : ι} (known : map.Has (id :: entry)) :
    map.lookup id = some (id :: entry) := by
  obtain ⟨hash, found⟩ := known
  obtain rfl : id = hash := some.inj (map.head found)
  exact found

omit [DecidableEq ι] in
theorem chainAt_of_suffix (below : pindex <:+ tip) {height : Nat}
    (inside : height < pindex.length) :
    chainAt tip height = pindex.drop (pindex.length - 1 - height) := by
  have fits := below.length_le
  rw [chainAt, if_neg (by omega), Int.toNat_natCast, suffix_iff_eq_drop.mp below,
    drop_drop, length_drop]
  congr 1
  omega

theorem contains_iff (nonempty : pindex ≠ []) : contains tip pindex = true ↔ pindex <:+ tip := by
  have positive := length_pos_of_ne_nil nonempty
  have height : nHeight pindex = ((pindex.length - 1 : Nat) : Int) := by rw [nHeight]; omega
  rw [contains, decide_eq_true_eq, height]
  refine ⟨fun same => ?_, fun below => ?_⟩
  · rw [chainAt] at same
    split at same
    · exact absurd same.symm nonempty
    · rw [← same]
      exact drop_suffix _ _
  · rw [chainAt_of_suffix below (by omega), Nat.sub_self, drop_zero]

section

variable (right : Right pskip)
include right

variable {bound nStep size : Nat}

theorem locatorFrom_cons {id : ι} (inner : entry ≠ []) :
    locatorFrom pskip tip (bound + 1) nStep size (id :: entry) =
      (locatorFrom pskip tip bound (if size + 1 > 10 then nStep * 2 else nStep) (size + 1)
        ((id :: entry).drop (entry.length - (entry.length - nStep)))).map (id :: ·) := by
  have inside : entry.length - nStep < (id :: entry).length := by rw [length_cons]; omega
  rw [locatorFrom, if_neg inner]
  dsimp only
  split
  · rename_i onChain
    rw [chainAt_of_suffix ((contains_iff (cons_ne_nil _ _)).mp onChain) inside]
    rfl
  · rw [getAncestor_of_lt right inside]
    rfl

theorem exists_locatorFrom (bound nStep size : Nat) (pindex : IndexEntry ι) :
    ∃ vHave, locatorFrom pskip tip bound nStep size pindex = some vHave := by
  induction bound generalizing nStep size pindex with
  | zero => exact ⟨[], rfl⟩
  | succ bound ih =>
    cases pindex with
    | nil => exact ⟨[], rfl⟩
    | cons id parent =>
      by_cases inner : parent = []
      · exact ⟨[id], by rw [locatorFrom, if_pos inner]⟩
      · obtain ⟨rest, made⟩ := ih _ _ _
        exact ⟨id :: rest, by rw [locatorFrom_cons right inner, made]; rfl⟩

theorem locatorFrom_eq_cons (bound nStep size : Nat) (id : ι) (parent : IndexEntry ι) :
    ∃ rest, locatorFrom pskip tip (bound + 1) nStep size (id :: parent) = some (id :: rest) := by
  by_cases inner : parent = []
  · exact ⟨[], by rw [locatorFrom, if_pos inner]⟩
  · obtain ⟨rest, made⟩ := exists_locatorFrom right bound _ _ _
    exact ⟨rest, by rw [locatorFrom_cons right inner, made]; rfl⟩

theorem suffix_of_mem_locatorFrom {vHave : List ι} (known : map.Has pindex)
    (made : locatorFrom pskip tip bound nStep size pindex = some vHave) :
    ∀ hash ∈ vHave, ∀ entry, map.lookup hash = some entry → entry <:+ pindex := by
  induction bound generalizing nStep size pindex vHave with
  | zero =>
    cases made
    exact fun hash member => nomatch member
  | succ bound ih =>
    cases pindex with
    | nil =>
      cases made
      exact fun hash member => nomatch member
    | cons id parent =>
      have first : ∀ entry, map.lookup id = some entry → entry <:+ id :: parent := by
        intro entry found
        rw [known.lookup] at found
        cases found
        exact suffix_rfl
      by_cases inner : parent = []
      · rw [locatorFrom, if_pos inner] at made
        cases made
        intro hash member
        rw [mem_singleton.mp member]
        exact first
      · rw [locatorFrom_cons right inner] at made
        obtain ⟨rest, walk, rfl⟩ := map_eq_some_iff.mp made
        intro hash member
        rcases mem_cons.mp member with rfl | later
        · exact first
        · have below := drop_suffix (parent.length - (parent.length - nStep)) (id :: parent)
          have nonempty : (id :: parent).drop (parent.length - (parent.length - nStep)) ≠ [] := by
            refine ne_nil_of_length_pos ?_
            rw [length_drop, length_cons]
            omega
          exact fun entry found => (ih (known.suffix below nonempty) walk hash later entry
            found).trans below

end

/-- What the answer to a locator for `pindex` is worth: it is a common block, no entry on the
local chain is higher, and it is the fork or an entry near it. -/
structure Answers (map : BlockMap ι) (tip pindex fork : IndexEntry ι) (size : Nat)
    (vHave : List ι) (answer : IndexEntry ι) : Prop where
  onBranch : answer <:+ pindex
  onChain : answer <:+ tip
  nonempty : tip ≠ [] → answer ≠ []
  highest : ∀ hash ∈ vHave, ∀ entry, map.lookup hash = some entry → entry <:+ tip →
    entry.length ≤ answer.length
  near : answer = fork ∨ ∃ before after hash, vHave = before ++ hash :: after ∧
    answer.head? = some hash ∧ ∃ position, position + 1 = size + before.length ∧
      fork.length - answer.length < locatorStep position

theorem locatorStep_succ (size : Nat) :
    locatorStep (size + 1) = if size + 1 > 10 then locatorStep size * 2 else locatorStep size := by
  unfold locatorStep
  split
  · rw [show size + 1 - 10 = size - 10 + 1 by omega, Nat.pow_succ]
  · rw [show size + 1 - 10 = 0 by omega, show size - 10 = 0 by omega]

theorem findForkInGlobalIndex_locatorFrom (right : Right pskip) (right' : Right pskip')
    {senderTip p fork : IndexEntry ι} (chain : tip = [] ∨ map.Has tip) (known : map.Has p)
    (common : HighestCommon p tip fork) {bound size : Nat} (fits : pindex.length ≤ bound)
    (nonempty : pindex ≠ []) (below : pindex <:+ p) (near : pindex <:+ tip → pindex = fork ∨
      ∃ position, position + 1 = size ∧ fork.length - pindex.length < locatorStep position) :
    ∃ vHave answer, locatorFrom pskip senderTip bound (locatorStep size) size pindex = some vHave ∧
      findForkInGlobalIndex pskip' map tip vHave = some answer ∧
      Answers map tip p fork size vHave answer := by
  -- the walk goes down by at least one block; `near` says that a step that has passed the fork
  -- ends within itself of it
  induction bound generalizing pindex size with
  | zero => exact absurd (length_eq_zero_iff.mp (Nat.le_zero.mp fits)) nonempty
  | succ bound ih =>
    obtain ⟨id, parent, rfl⟩ := exists_cons_of_ne_nil nonempty
    have has := known.suffix below nonempty
    have found := has.lookup
    have onChain := @contains_iff _ _ tip _ nonempty
    obtain ⟨ancestor, looked, atTip⟩ := getAncestor_tip right' (id :: parent) tip
    obtain ⟨rest, made⟩ := @locatorFrom_eq_cons _ _ senderTip _ right bound (locatorStep size) size
      id parent
    have answered : findForkInGlobalIndex pskip' map tip (id :: rest) =
        if contains tip (id :: parent) then some (id :: parent)
        else if ancestor = tip then some tip else findForkInGlobalIndex pskip' map tip rest := by
      rw [findForkInGlobalIndex, found]
      simp only [looked, bind_some]
    by_cases inside : id :: parent <:+ tip
    · rw [if_pos (onChain.mpr inside)] at answered
      refine ⟨id :: rest, id :: parent, made, answered, below, inside, fun _ => nonempty,
        fun hash member entry held _ =>
          (suffix_of_mem_locatorFrom right has made hash member entry held).length_le, ?_⟩
      rcases near inside with same | ⟨position, last, close⟩
      · exact .inl same
      · exact .inr ⟨[], rest, id, rfl, rfl, position, last, close⟩
    rw [if_neg (mt onChain.mp inside)] at answered
    by_cases reaches : tip <:+ id :: parent
    · rw [if_pos (atTip.mpr reaches)] at answered
      have shared := common.highest tip (reaches.trans below) suffix_rfl
      exact ⟨id :: rest, tip, made, answered, reaches.trans below, suffix_rfl, fun some => some,
        fun hash member entry held on => on.length_le,
        .inl (shared.eq_of_length_le common.second.length_le)⟩
    rw [if_neg (mt atTip.mp reaches)] at answered
    have started : tip ≠ [] := fun null => reaches (null ▸ nil_suffix)
    have inner : parent ≠ [] := by
      rintro rfl
      obtain ⟨hash, held⟩ := chain.resolve_left started
      have root := (map.rooted found).eq_of_length rfl
      exact inside (root ▸ map.rooted held)
    have positive := length_pos_of_ne_nil inner
    rw [length_cons] at fits
    have step : 0 < locatorStep size := Nat.two_pow_pos _
    -- the next entry of the locator
    obtain ⟨next, nextEq⟩ : ∃ next, next =
      (id :: parent).drop (parent.length - (parent.length - locatorStep size)) := ⟨_, rfl⟩
    have length : next.length = parent.length - locatorStep size + 1 := by
      rw [nextEq, length_drop, length_cons]
      omega
    have lower : next <:+ id :: parent := nextEq ▸ drop_suffix _ _
    have passed : fork.length ≤ parent.length := by
      by_contra higher
      refine inside (List.IsSuffix.trans ?_ common.second)
      exact suffix_of_suffix_length_le below common.first (Nat.lt_of_not_le higher)
    obtain ⟨vHave, answer, walk, answered', onBranch, sound, some, highest, close⟩ :=
      @ih next (size + 1) (by omega) (ne_nil_of_length_pos (by omega)) (lower.trans below)
        fun _ => .inr ⟨size, rfl, by omega⟩
    rw [locatorStep_succ] at walk
    have tail := made
    rw [locatorFrom_cons right inner, ← nextEq, walk] at tail
    obtain rfl : vHave = rest := tail_eq_of_cons_eq (Option.some.inj tail)
    refine ⟨id :: vHave, answer, made, answered.trans answered', onBranch, sound, some, ?_, ?_⟩
    · intro hash member entry held on
      rcases mem_cons.mp member with rfl | later
      · rw [found] at held
        cases held
        exact absurd on inside
      · exact highest hash later entry held on
    · refine close.imp_right ?_
      rintro ⟨before, after, hash, split, head, position, last, gap⟩
      refine ⟨id :: before, after, hash, by rw [split]; rfl, head, position, ?_, gap⟩
      rw [length_cons]
      omega

/-- A locator that one side makes for a block and the other side looks up leads to a common block
of its own chain, above every other entry of the locator there and below the fork by less than the
step of the locator. -/
theorem findForkInGlobalIndex_getLocator {entries entries' : List (IndexEntry ι)}
    (built : buildIndex entries = some pskip) (built' : buildIndex entries' = some pskip')
    (map : BlockMap ι) (senderTip : IndexEntry ι) {tip p : IndexEntry ι}
    (chain : tip = [] ∨ map.Has tip) (known : map.Has p) :
    ∃ vHave fork answer, getLocator pskip senderTip p = some vHave ∧
      findForkInGlobalIndex pskip' map tip vHave = some answer ∧
      HighestCommon p tip fork ∧ Answers map tip p fork 0 vHave answer := by
  have right := right_of_built built
  have right' := right_of_built built'
  have nonempty : p ≠ [] := by
    rintro rfl
    obtain ⟨hash, found⟩ := known
    cases map.head found
  obtain ⟨fork, -, common⟩ := findFork_spec right' tip p
  obtain ⟨vHave, answer, made, answered, worth⟩ :=
    @findForkInGlobalIndex_locatorFrom _ _ tip p _ _ map right right' senderTip p fork chain known
      common p.length 0 le_rfl nonempty suffix_rfl fun inside => .inl
        ((common.highest p suffix_rfl inside).eq_of_length_le common.first.length_le)
  refine ⟨vHave, fork, answer, ?_, answered, common, worth⟩
  rw [getLocator, if_neg nonempty]
  exact made

def forkedEntries : List (IndexEntry Nat) := [[0], [1, 0], [2, 1, 0], [3, 1, 0]]

def forkedMap : BlockMap Nat where
  lookup := fun hash => forkedEntries.find? (·.head? = some hash)
  genesis := 0
  head := fun found => by simpa using List.find?_some found
  rooted := fun found =>
    (by decide : ∀ entry ∈ forkedEntries, [0] <:+ entry) _ (mem_of_find?_eq_some found)
  closed := fun found => by
    have member := mem_of_find?_eq_some found
    simp only [forkedEntries, mem_cons, not_mem_nil, or_false] at member
    rcases member with same | same | same | same <;> cases same <;> rfl

theorem forkedMap_answers :
    forkedMap.Has [2, 1, 0] ∧ ∃ pskip, buildIndex forkedEntries = some pskip ∧
      ∃ vHave fork answer, getLocator pskip [2, 1, 0] [2, 1, 0] = some vHave ∧
        findForkInGlobalIndex pskip forkedMap [3, 1, 0] vHave = some answer ∧
        HighestCommon [2, 1, 0] [3, 1, 0] fork ∧
        Answers forkedMap [3, 1, 0] [2, 1, 0] fork 0 vHave answer := by
  obtain ⟨pskip, built, -⟩ := right_of_buildIndex forkedEntries
  exact ⟨⟨2, rfl⟩, pskip, built,
    findForkInGlobalIndex_getLocator built built forkedMap [2, 1, 0] (.inr ⟨3, rfl⟩) ⟨2, rfl⟩⟩

end MooncoinFormal.Validation.SkipList
