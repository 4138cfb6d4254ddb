import MooncoinFormal.Mweb.Mmr

/-!
# Overlays over overlays

Any number of `PMMRCache` objects lie over one range in a file. Each of them is
compared with a list of leaves: adding puts one at the end, a rewind cuts the list,
and a flush gives the list to the range below. The file is one that stores what is
written to it; what `AppendOnlyFile` makes of a rewind is shown elsewhere.

An overlay reads everything before its first leaf from below. A range with an
overlay over it is therefore not rewound to before that leaf.
-/

namespace MooncoinFormal.Mweb.Mmr

open Library.MountainRange List PMMRCache Option

variable {Hash Data : Type} (hashes : NodeHash Hash Data)

/-- `PMMR::BatchWrite`, onto a file that stores what is written. -/
def PMMR.storeBatch (mmr : PMMR Hash Data) (firstLeafIdx : Nat) (leaves : List (Leaf Hash Data)) :
    Option (PMMR Hash Data) := do
  let rewound ← mmr.rewind firstLeafIdx
  leaves.foldlM (PMMR.addLeaf hashes) rewound

/-- An operation on the overlay at a depth, counted from the top, or on the stack. -/
inductive MmrOperation (Data : Type) where
  | add (depth : Nat) (data : Data)
  | rewind (depth : Nat) (numLeaves : Nat)
  | flush (depth : Nat)
  /-- A new overlay over the stack. -/
  | push
  /-- The overlay on top goes out of scope. -/
  | pop

namespace IMMR

def storeBatch (hashes : NodeHash Hash Data) : IMMR Hash Data → (firstLeafIdx : Nat) →
    List (Leaf Hash Data) → Option (IMMR Hash Data)
  | file mmr, firstLeafIdx, leaves => (mmr.storeBatch hashes firstLeafIdx leaves).map file
  | cache base top, firstLeafIdx, leaves =>
    (top.batchWrite hashes base.getHash firstLeafIdx leaves).map (cache base)

def flush (base : IMMR Hash Data) (top : PMMRCache Hash Data) : Option (IMMR Hash Data) :=
  (base.storeBatch hashes top.firstLeaf top.leaves).map (cache · top.flushed)

def atDepth (act : IMMR Hash Data → PMMRCache Hash Data → Option (IMMR Hash Data)) :
    Nat → IMMR Hash Data → Option (IMMR Hash Data)
  | _, file mmr => some (file mmr)
  | 0, cache base top => act base top
  | depth + 1, cache base top => (atDepth act depth base).map (cache · top)

def step : MmrOperation Data → IMMR Hash Data →
    Option (IMMR Hash Data)
  | .add depth data =>
    atDepth (fun base top => (top.add hashes base.getHash data).map (cache base)) depth
  | .rewind depth numLeaves =>
    atDepth (fun base top => some (cache base (top.rewind numLeaves))) depth
  | .flush depth => atDepth (flush hashes) depth
  | .push => fun mmr => mmr.newCache.map (cache mmr)
  | .pop => fun mmr =>
    match mmr with
    | file mmr => some (file mmr)
    | cache base _ => some base

def run (hashes : NodeHash Hash Data) : List (MmrOperation Data) → IMMR Hash Data →
    Option (IMMR Hash Data)
  | [], mmr => some mmr
  | operation :: rest, mmr => do
      let mmr ← step hashes operation mmr
      run hashes rest mmr

end IMMR

inductive LeafLists (Data : Type) where
  | bottom (leaves : List Data)
  | over (leaves : List Data) (base : LeafLists Data)

namespace LeafLists

def top : LeafLists Data → List Data
  | .bottom leaves => leaves
  | .over leaves _ => leaves

def replaceTop (leaves : List Data) : LeafLists Data → LeafLists Data
  | .bottom _ => .bottom leaves
  | .over _ base => .over leaves base

def atDepth (act : List Data → LeafLists Data → LeafLists Data) :
    Nat → LeafLists Data → LeafLists Data
  | _, .bottom leaves => .bottom leaves
  | 0, .over leaves base => act leaves base
  | depth + 1, .over leaves base => .over leaves (atDepth act depth base)

def step : MmrOperation Data → LeafLists Data → LeafLists Data
  | .add depth data => atDepth (fun leaves base => .over (leaves ++ [data]) base) depth
  | .rewind depth numLeaves => atDepth (fun leaves base => .over (leaves.take numLeaves) base) depth
  | .flush depth => atDepth (fun leaves base => .over leaves (base.replaceTop leaves)) depth
  | .push => fun lists => .over lists.top lists
  | .pop => fun lists =>
    match lists with
    | .bottom leaves => .bottom leaves
    | .over _ base => base

def run : List (MmrOperation Data) → LeafLists Data → LeafLists Data
  | [], lists => lists
  | operation :: rest, lists => run rest (step operation lists)

end LeafLists

variable {base mmr : IMMR Hash Data} {leaves : List Data} {lists : LeafLists Data}
  {top : PMMRCache Hash Data}

namespace IMMR

/-- Each range of a stack holds its list of leaves. -/
def Stands (hashes : NodeHash Hash Data) : IMMR Hash Data → LeafLists Data → Prop
  | file mmr, .bottom leaves => (file mmr).Represents hashes leaves
  | cache base top, .over leaves below =>
    (cache base top).Represents hashes leaves ∧ base.Stands hashes below
  | _, _ => False

/-- The overlay right above a depth, if there is one, starts at an allowed leaf. -/
def StartsAbove (allowed : Nat → Prop) : Nat → IMMR Hash Data → Prop
  | 0, _ => True
  | _, file _ => True
  | 1, cache _ top => allowed top.firstLeaf
  | depth + 2, cache base _ => StartsAbove allowed (depth + 1) base

/-- A rewind leaves what the overlay above reads from below. -/
def RewindsKeeping : MmrOperation Data → IMMR Hash Data → Prop
  | .rewind depth numLeaves, mmr => mmr.StartsAbove (· ≤ numLeaves) depth
  | _, _ => True

/-- Each rewind of a run does, as far as the run goes through. -/
def AlongRun (hashes : NodeHash Hash Data) : List (MmrOperation Data) → IMMR Hash Data → Prop
  | [], _ => True
  | operation :: rest, mmr =>
    RewindsKeeping operation mmr ∧
      match step hashes operation mmr with
      | some mmr' => AlongRun hashes rest mmr'
      | none => True

/-- The range reads as one built from nothing by adding the leaves in order. -/
def ReadsAsScratch [DecidableEq Hash] (zero : Hash) (mmr : IMMR Hash Data)
    (leaves : List Data) : Prop :=
  ∃ scratch, leaves.foldlM (MemMMR.add hashes) MemMMR.empty = some scratch ∧
    mmr.getNextLeafIdx = some scratch.getNumLeaves ∧
    scratch.hashes.length = leafPosition scratch.getNumLeaves ∧
    (∀ position, position < leafPosition scratch.getNumLeaves →
      mmr.getHash position = MemMMR.getHash scratch.hashes position) ∧
    (∀ leafIdx, leafIdx < scratch.getNumLeaves → mmr.getLeaf leafIdx = scratch.getLeaf leafIdx) ∧
    mmr.root hashes zero = scratch.root hashes zero ∧ (scratch.root hashes zero).isSome

/-- Every range of the stack does. -/
def AllReadAsScratch [DecidableEq Hash] (hashes : NodeHash Hash Data) (zero : Hash) :
    IMMR Hash Data → LeafLists Data → Prop
  | file mmr, .bottom leaves => (file mmr).ReadsAsScratch hashes zero leaves
  | cache base top, .over leaves below =>
    (cache base top).ReadsAsScratch hashes zero leaves ∧ base.AllReadAsScratch hashes zero below
  | _, _ => False

/-! ## What each operation does -/

variable {hashes : NodeHash Hash Data}

theorem Stands.represents (stands : mmr.Stands hashes lists) : mmr.Represents hashes lists.top := by
  match mmr, lists, stands with
  | file mmr, .bottom leaves, stands => exact stands
  | cache base top, .over leaves below, stands => exact stands.1

theorem rewind_of_long (held : (cache base top).Represents hashes leaves) {numLeaves : Nat}
    (long : leaves.length < numLeaves) : top.rewind numLeaves = top := by
  obtain ⟨below, added, -, first, leaves_eq, added_eq, nodes⟩ := held
  have size : leaves.length = top.firstLeaf + added.length := by
    simp [leaves_eq, length_take_of_le first]
  rw [rewind, if_neg (by omega)]
  split
  · rfl
  obtain ⟨count, rfl⟩ := Nat.exists_eq_add_of_le (show top.firstLeaf ≤ numLeaves by omega)
  have all : top.leaves.takeWhile (fun leaf => decide (leaf.index < top.firstLeaf + count)) =
      top.leaves := by
    rw [added_eq, leavesFrom_takeWhile, take_of_length_le (by omega)]
  have next : top.getNextLeafIdx = leaves.length := by
    rw [getNextLeafIdx_eq added_eq, size]
  have count_nodes : top.nodes.length = leafPosition leaves.length -
      leafPosition top.firstLeaf := by
    rw [nodes, length_drop, nodesOf_length]
  dsimp only
  rw [all, next, take_of_length_le count_nodes.le]

theorem rewind_take (held : (cache base top).Represents hashes leaves) (numLeaves : Nat) :
    (cache base (top.rewind numLeaves)).Represents hashes (leaves.take numLeaves) := by
  obtain long | inside := lt_or_ge leaves.length numLeaves
  · rw [rewind_of_long held long, take_of_length_le long.le]
    exact held
  · exact rewind_represents held inside

variable {below : LeafLists Data}

theorem storeBatch_stands (stands : base.Stands hashes below) {first : Nat}
    (inside : first ≤ below.top.length) (added : List Data) :
    ∃ base', base.storeBatch hashes first (leavesFrom hashes first added) = some base' ∧
      base'.Stands hashes (below.replaceTop (below.top.take first ++ added)) := by
  match base, below, stands with
  | file mmr, .bottom leaves, stands =>
    rw [LeafLists.top] at inside
    obtain ⟨rewound, done, holds⟩ := PMMR.rewind_represents stands inside
    obtain ⟨last, written, holdsLast⟩ := PMMR.foldlM_addLeaf_represents holds added
    rw [length_take_of_le inside] at written
    exact ⟨.file last, by simp [storeBatch, PMMR.storeBatch, done, written], holdsLast⟩
  | cache base top, .over leaves below, stands =>
    have holds := rewind_represents stands.1 inside
    obtain ⟨last, written, holdsLast⟩ := foldlM_add_represents holds first added
    exact ⟨.cache base last, by simp [storeBatch, PMMRCache.batchWrite, written],
      holdsLast, stands.2⟩

theorem flush_stands (held : (cache base top).Represents hashes leaves)
    (stands : base.Stands hashes below) :
    ∃ mmr', flush hashes base top = some mmr' ∧
      mmr'.Stands hashes (.over leaves (below.replaceTop leaves)) := by
  obtain ⟨below', added, under, first, leaves_eq, added_eq, -⟩ := held
  obtain rfl := stands.represents.unique under
  obtain ⟨base', stored, standsBase⟩ := storeBatch_stands stands first added
  rw [← leaves_eq] at standsBase
  have next : top.getNextLeafIdx = leaves.length := by
    rw [getNextLeafIdx_eq added_eq, leaves_eq, length_append, length_take_of_le first]
  have shown : (below.replaceTop leaves).top = leaves := by cases below <;> rfl
  have holds := standsBase.represents
  rw [shown] at holds
  refine ⟨.cache base' ⟨leaves.length, [], []⟩, ?_, (newCache_represents holds).2, standsBase⟩
  simp [flush, added_eq, stored, flushed, next]

/-! ## Steps and runs -/

theorem atDepth_stands {act : IMMR Hash Data → PMMRCache Hash Data → Option (IMMR Hash Data)}
    {expected : List Data → LeafLists Data → LeafLists Data} (allowed : Nat → Prop)
    (acts : ∀ base top leaves below, (cache base top).Represents hashes leaves →
      base.Stands hashes below →
      ∃ mmr', act base top = some mmr' ∧ mmr'.Stands hashes (expected leaves below))
    (keeps : ∀ first leaves below, first ≤ leaves.length → allowed first →
      (expected leaves below).top.take first = leaves.take first ∧
        first ≤ (expected leaves below).top.length) :
    ∀ depth mmr lists, mmr.Stands hashes lists → mmr.StartsAbove allowed depth →
      ∃ mmr', atDepth act depth mmr = some mmr' ∧
        mmr'.Stands hashes (lists.atDepth expected depth) := by
  intro depth mmr
  induction mmr generalizing depth with
  | file mmr =>
    intro lists stands _
    match lists, stands with
    | .bottom leaves, stands => cases depth <;> exact ⟨_, rfl, stands⟩
  | cache base top ih =>
    intro lists stands starts
    match lists, stands with
    | .over leaves below, ⟨held, standsBase⟩ =>
      cases depth with
      | zero => exact acts base top leaves below held standsBase
      | succ depth =>
        obtain ⟨below', added, under, first, leaves_eq, added_eq, nodes⟩ := held
        obtain rfl := standsBase.represents.unique under
        -- The overlay holds the same leaves over a range that begins with what it reads from below.
        have kept : (below.atDepth expected depth).top.take top.firstLeaf =
              below.top.take top.firstLeaf ∧
            top.firstLeaf ≤ (below.atDepth expected depth).top.length := by
          cases below with
          | bottom leaves => cases depth <;> exact ⟨rfl, first⟩
          | «over» belowLeaves lower =>
            cases depth with
            | zero => exact keeps _ _ _ first starts
            | succ depth => exact ⟨rfl, first⟩
        have startsBase : base.StartsAbove allowed depth := by
          cases depth with
          | zero => cases base <;> trivial
          | succ depth => exact starts
        obtain ⟨base', acted, stands'⟩ := ih depth below standsBase startsBase
        have held' : (cache base' top).Represents hashes leaves :=
          ⟨_, added, stands'.represents, kept.2, by rw [kept.1, leaves_eq], added_eq, nodes⟩
        exact ⟨.cache base' top, by rw [atDepth, acted]; rfl, held', stands'⟩

theorem startsAbove_true (depth : Nat) (mmr : IMMR Hash Data) :
    mmr.StartsAbove (fun _ => True) depth := by
  induction mmr generalizing depth with
  | file mmr => cases depth <;> trivial
  | cache base top ih =>
    cases depth with
    | zero => trivial
    | succ depth =>
      cases depth with
      | zero => trivial
      | succ depth => exact ih (depth + 1)

theorem step_stands (operation : MmrOperation Data) (stands : mmr.Stands hashes lists)
    (keeping : RewindsKeeping operation mmr) :
    ∃ mmr', step hashes operation mmr = some mmr' ∧ mmr'.Stands hashes (lists.step operation) := by
  cases operation with
  | add depth data =>
    refine atDepth_stands (fun _ => True) ?_ ?_ depth mmr lists stands (startsAbove_true _ _)
    · intro base top leaves below held standsBase
      obtain ⟨top', added, holds⟩ := add_represents held data
      exact ⟨.cache base top', by rw [added]; rfl, holds, standsBase⟩
    · intro first leaves below short _
      refine ⟨take_append_of_le_length short, ?_⟩
      rw [LeafLists.top, length_append]
      omega
  | rewind depth numLeaves =>
    refine atDepth_stands (· ≤ numLeaves) ?_ ?_ depth mmr lists stands keeping
    · intro base top leaves below held standsBase
      exact ⟨_, rfl, rewind_take held numLeaves, standsBase⟩
    · intro first leaves below short allowed
      rw [LeafLists.top, take_take, min_eq_left allowed, length_take]
      exact ⟨rfl, Nat.le_min.mpr ⟨allowed, short⟩⟩
  | flush depth =>
    refine atDepth_stands (fun _ => True) ?_ ?_ depth mmr lists stands (startsAbove_true _ _)
    · intro base top leaves below held standsBase
      exact flush_stands held standsBase
    · intro first leaves below short _
      exact ⟨rfl, short⟩
  | push =>
    obtain ⟨made, holds⟩ := newCache_represents stands.represents
    exact ⟨.cache mmr ⟨lists.top.length, [], []⟩, by simp [step, made], holds, stands⟩
  | pop =>
    match mmr, lists, stands with
    | file mmr, .bottom leaves, stands => exact ⟨_, rfl, stands⟩
    | cache base top, .over leaves below, stands => exact ⟨_, rfl, stands.2⟩

theorem run_stands (operations : List (MmrOperation Data)) (stands : mmr.Stands hashes lists)
    (keeping : AlongRun hashes operations mmr) :
    ∃ mmr', run hashes operations mmr = some mmr' ∧ mmr'.Stands hashes (lists.run operations) := by
  induction operations generalizing mmr lists with
  | nil => exact ⟨mmr, rfl, stands⟩
  | cons operation rest ih =>
    obtain ⟨next, stepped, standsNext⟩ := step_stands operation stands keeping.1
    have later := keeping.2
    rw [stepped] at later
    obtain ⟨last, ran, standsLast⟩ := ih standsNext later
    exact ⟨last, by rw [run, stepped]; exact ran, standsLast⟩

/-! ## What can be read -/

theorem Represents.readsAsScratch [DecidableEq Hash] {zero : Hash}
    (held : mmr.Represents hashes leaves) : mmr.ReadsAsScratch hashes zero leaves := by
  have size : (⟨nodesOf hashes leaves, leavesFrom hashes 0 leaves⟩ :
      MemMMR Hash Data).getNumLeaves = leaves.length := leavesFrom_length 0
  have root : (⟨nodesOf hashes leaves, leavesFrom hashes 0 leaves⟩ : MemMMR Hash Data).root
      hashes zero = some (rootOf hashes zero leaves) := by
    rw [MemMMR.root, size]
    exact Mmr.root_eq fun position _ => rfl
  refine ⟨_, MemMMR.foldlM_add leaves, ?_, ?_, ?_, ?_, ?_, ?_⟩
  · rw [size, held.getNextLeafIdx_eq]
  · rw [size, nodesOf_length]
  · intro position inside
    rw [size] at inside
    exact held.getHash_eq inside
  · intro leafIdx inside
    rw [size] at inside
    rw [held.getLeaf_eq (getElem?_eq_getElem inside), MemMMR.getLeaf, leavesFrom_getElem?,
      getElem?_eq_getElem inside, zero_add, map_some]
  · rw [held.root_eq, root]
  · rw [root, isSome_some]

theorem Stands.allReadAsScratch [DecidableEq Hash] {zero : Hash}
    (stands : mmr.Stands hashes lists) : mmr.AllReadAsScratch hashes zero lists := by
  induction mmr generalizing lists with
  | file mmr =>
    match lists, stands with
    | .bottom leaves, stands => exact Represents.readsAsScratch stands
  | cache base top ih =>
    match lists, stands with
    | .over leaves below, stands => exact ⟨stands.1.readsAsScratch, ih stands.2⟩

/-- Every run over a stack that stands for lists goes through, and every range of the
stack then reads as one built from nothing over its list, if no range is rewound to
before the first leaf of the overlay above it. -/
theorem run_reads_as_scratch [DecidableEq Hash] (hashes : NodeHash Hash Data) (zero : Hash)
    (operations : List (MmrOperation Data)) (mmr : IMMR Hash Data) (lists : LeafLists Data)
    (stands : mmr.Stands hashes lists) (keeping : AlongRun hashes operations mmr) :
    ∃ mmr', run hashes operations mmr = some mmr' ∧
      mmr'.AllReadAsScratch hashes zero (lists.run operations) := by
  obtain ⟨mmr', ran, stands'⟩ := run_stands operations stands keeping
  exact ⟨mmr', ran, stands'.allReadAsScratch⟩

/-- A leaf or a parent, written out. -/
def writtenOut : NodeHash (List Nat) Nat :=
  ⟨fun position data => [1, position, data], fun position left right =>
    2 :: position :: left ++ right⟩

def emptyFile : IMMR (List Nat) Nat := file ⟨[], fun _ => none⟩

/-- An overlay is flushed, rewound to before its new start and written to by a child,
while the range below grows. -/
def regrownRun : List (MmrOperation Nat) :=
  [.push, .add 0 5, .add 0 6, .flush 0, .rewind 0 1, .add 0 7, .push, .add 1 8, .add 0 9, .flush 0,
    .flush 1, .rewind 1 3]

theorem regrownRun_reads :
    LeafLists.run regrownRun (.bottom []) =
        .over [5, 7, 9] (.over [5, 7, 9] (.bottom [5, 7, 9])) ∧
      ∃ mmr', run writtenOut regrownRun emptyFile = some mmr' ∧
        mmr'.AllReadAsScratch writtenOut [] (LeafLists.run regrownRun (.bottom [])) :=
  ⟨rfl, run_reads_as_scratch writtenOut [] regrownRun emptyFile (.bottom [])
    ⟨rfl, fun _ _ found => nomatch found⟩
    ⟨trivial, trivial, trivial, trivial, trivial, trivial, trivial, trivial, trivial,
      trivial, trivial, le_refl 3, trivial⟩⟩

/-- A range is rewound to before the first leaf of the overlay above it. -/
def cutRun : List (MmrOperation Nat) := [.push, .add 0 5, .push, .rewind 1 0]

/-- The overlay then counts a leaf that cannot be read, so it reads as no list. -/
theorem cutRun_unreadable :
    ∃ mmr', run writtenOut cutRun emptyFile = some mmr' ∧
      ∀ leaves, ¬ mmr'.ReadsAsScratch writtenOut [] leaves := by
  refine ⟨.cache (.cache emptyFile ⟨0, [], []⟩) ⟨1, [], []⟩, by rfl, ?_⟩
  rintro leaves ⟨scratch, -, size, count, nodes, -⟩
  have one : scratch.getNumLeaves = 1 := (some.inj size).symm
  rw [one] at count nodes
  have missing := nodes 0 (by decide)
  rw [MemMMR.getHash, getElem?_eq_getElem (by rw [count]; decide)] at missing
  exact absurd missing (by simp [getHash, PMMRCache.getHash])

/-! ## Leaves that are not there -/

/-- What `GetLeaf` comes to; the last is an access past the end of `m_leaves`. -/
inductive LeafRead (Hash Data : Type) where
  | leaf (leaf : Leaf Hash Data)
  | thrown
  | pastEnd

/-- `GetLeaf`. An overlay throws when the index is greater than the number of its leaves. -/
def readLeaf : IMMR Hash Data → Nat → LeafRead Hash Data
  | file mmr, leafIdx => ((mmr.leafDB leafIdx).map .leaf).getD .thrown
  | cache base top, leafIdx =>
    if leafIdx < top.firstLeaf then base.readLeaf leafIdx
    else if top.leaves.length < leafIdx - top.firstLeaf then .thrown
    else (top.leaves[leafIdx - top.firstLeaf]?.map .leaf).getD .pastEnd

/-- A call on the one overlay over a file. -/
inductive CacheCall (Data : Type) where
  | add (data : Data)
  | rewind (numLeaves : Nat)
  | flush

def CacheCall.operation : CacheCall Data → MmrOperation Data
  | add data => .add 0 data
  | rewind numLeaves => .rewind 0 numLeaves
  | flush => .flush 0

/-- What a call makes of the leaves of the overlay and the largest number of leaves that
were flushed. -/
def CacheCall.follow : List Data × Nat → CacheCall Data → List Data × Nat
  | (leaves, most), add data => (leaves ++ [data], most)
  | (leaves, most), rewind numLeaves => (leaves.take numLeaves, most)
  | (leaves, most), flush => (leaves, max most leaves.length)

theorem leafDB_foldlM {mmr mmr' : PMMR Hash Data} {first : Nat} {added : List Data}
    (written : (leavesFrom hashes first added).foldlM (PMMR.addLeaf hashes) mmr = some mmr')
    {i : Nat} (beyond : first + added.length ≤ i) : mmr'.leafDB i = mmr.leafDB i := by
  induction added generalizing first mmr with
  | nil =>
    cases written
    rfl
  | cons data rest ih =>
    rw [length_cons] at beyond
    obtain ⟨next, stored, later⟩ := bind_eq_some_iff.mp written
    obtain ⟨nodes, -, same⟩ := bind_eq_some_iff.mp stored
    cases same
    rw [ih later (by omega)]
    exact if_neg (by simp only [Leaf.create]; omega)

/-- The overlay holds the leaves, and the file has a leaf wherever one was flushed. -/
def Follows (hashes : NodeHash Hash Data) (mmr : IMMR Hash Data) (past : List Data × Nat) : Prop :=
  ∃ stored top below, mmr = cache (file stored) top ∧
    mmr.Stands hashes (.over past.1 (.bottom below)) ∧ ∀ i, stored.leafDB i = none ↔ past.2 ≤ i

variable {past : List Data × Nat}

theorem Follows.step (follows : Follows hashes mmr past) (call : CacheCall Data) :
    ∃ mmr', step hashes call.operation mmr = some mmr' ∧
      Follows hashes mmr' (call.follow past) := by
  obtain ⟨stored, top, below, rfl, ⟨held, under⟩, absent⟩ := follows
  cases call with
  | add data =>
    obtain ⟨top', added, holds⟩ := add_represents held data
    exact ⟨_, congrArg (Option.map _) added, stored, top', below, rfl, ⟨holds, under⟩, absent⟩
  | rewind numLeaves =>
    exact ⟨_, rfl, stored, _, below, rfl, ⟨rewind_take held numLeaves, under⟩, absent⟩
  | flush =>
    obtain ⟨mmr', flushed, stands⟩ := flush_stands held under
    refine ⟨mmr', flushed, ?_⟩
    obtain ⟨base', written, rfl⟩ := map_eq_some_iff.mp flushed
    obtain ⟨last, batch, rfl⟩ := map_eq_some_iff.mp written
    obtain ⟨rewound, cut, batch⟩ := bind_eq_some_iff.mp batch
    refine ⟨last, _, _, rfl, stands, fun i => ?_⟩
    rw [CacheCall.follow, Nat.max_le]
    by_cases inside : i < past.1.length
    · rw [stands.2.2 i _ (getElem?_eq_getElem inside)]
      exact iff_of_false (Option.some_ne_none _) fun most => absurd most.2 (not_le.mpr inside)
    · rw [and_iff_left (not_lt.mp inside), ← absent i]
      obtain ⟨below', added, -, first, leaves_eq, added_eq, -⟩ := held
      rw [leaves_eq, length_append, length_take_of_le first] at inside
      rw [added_eq] at batch
      rw [leafDB_foldlM batch (not_lt.mp inside)]
      unfold PMMR.rewind at cut
      split at cut <;> cases cut
      rfl

theorem Follows.run (follows : Follows hashes mmr past) (calls : List (CacheCall Data)) :
    ∃ mmr', run hashes (calls.map CacheCall.operation) mmr = some mmr' ∧
      Follows hashes mmr' (calls.foldl CacheCall.follow past) := by
  induction calls generalizing mmr past with
  | nil => exact ⟨mmr, rfl, follows⟩
  | cons call rest ih =>
    obtain ⟨next, stepped, follows⟩ := follows.step call
    obtain ⟨last, ran, follows⟩ := ih follows
    exact ⟨last, by rw [map_cons, IMMR.run, stepped]; exact ran, follows⟩

/-- After any calls the overlay refuses an index at or beyond its leaves unless it is the
next one, and the file refuses exactly the indices that no flush has reached. -/
theorem readLeaf_missing (hashes : NodeHash Hash Data) (calls : List (CacheCall Data)) :
    ∃ stored top, run hashes (calls.map CacheCall.operation)
        (cache (file ⟨[], fun _ => none⟩) ⟨0, [], []⟩) = some (cache (file stored) top) ∧
      (∀ i, top.getNextLeafIdx ≤ i →
        ((cache (file stored) top).readLeaf i = .thrown ↔ i ≠ top.getNextLeafIdx)) ∧
      ∀ i, (file stored).readLeaf i = .thrown ↔ (calls.foldl CacheCall.follow ([], 0)).2 ≤ i := by
  have start : Follows hashes (cache (file ⟨[], fun _ => none⟩) ⟨0, [], []⟩) ([], 0) :=
    ⟨_, _, [], rfl, ⟨⟨[], [], ⟨rfl, nofun⟩, le_refl 0, rfl, rfl, rfl⟩, rfl, nofun⟩,
      fun i => iff_of_true rfl (Nat.zero_le i)⟩
  obtain ⟨_, ran, stored, top, -, rfl, ⟨held, -⟩, absent⟩ := start.run calls
  refine ⟨stored, top, ran, fun i beyond => ?_, fun i => ?_⟩
  · obtain ⟨_, added, -, -, -, added_eq, -⟩ := held
    rw [getNextLeafIdx_eq added_eq] at beyond ⊢
    rw [readLeaf, if_neg (by omega), added_eq, leavesFrom_length]
    split
    · exact iff_of_true rfl (by omega)
    · rw [getElem?_eq_none (by rw [leavesFrom_length]; omega)]
      exact iff_of_false nofun (by omega)
  · rw [← absent i, readLeaf]
    cases stored.leafDB i with
    | none => exact iff_of_true rfl rfl
    | some leaf => exact iff_of_false (by rintro ⟨⟩) (Option.some_ne_none _)

/-- A leaf is flushed and taken back with a second flush: the file has no leaves and still
returns it, and the overlay reads past its end. -/
theorem readLeaf_returns_missing :
    ∃ stored top leaf, run writtenOut ([.add 5, .flush, .rewind 0, .flush].map CacheCall.operation)
        (cache emptyFile ⟨0, [], []⟩) = some (cache (file stored) top) ∧
      stored.getNumLeaves = some 0 ∧ (file stored).readLeaf 0 = .leaf leaf ∧
      top.getNextLeafIdx = 0 ∧ (cache (file stored) top).readLeaf 0 = .pastEnd :=
  ⟨_, _, _, rfl, rfl, rfl, rfl, rfl⟩

end IMMR

end MooncoinFormal.Mweb.Mmr
