import MooncoinFormal.Mweb.CoinSet

/-!
# Views stand for coin sets

A stack of caches on a database represents one coin set. Every operation of a
cache does to its view what the abstract operation does to the coin set, and a
block is applied exactly when the abstract operations succeed, the kernel sums
balance and the header commits to the result.
-/

namespace MooncoinFormal.Mweb

open Primitives Library.Checks Mmr LeafSet CoinsViewCache List LeafSet ICoinsView Option

variable {T : CryptoTypes} {crypto : Crypto T}

/-- Every coin in an action list stands under its own ID, in all caches. -/
def ICoinsView.Keyed (crypto : Crypto T) : ICoinsView T → Prop
  | .db _ => True
  | .cache base top => base.Keyed crypto ∧
      ∀ id utxo, some utxo ∈ top.updates.getActions id → crypto.hashOutput utxo.output = id

structure RepresentsSet (crypto : Crypto T) (view : ICoinsView T)
    (set : CoinSet crypto) : Prop where
  keyed : view.Keyed crypto
  coins : ∀ id, view.getUTXO id = .ok (set.coins id)
  leaves : view.getOutputPMMR.Represents crypto.outputMmr set.leaves
  next : view.getLeafSet.getNextLeafIdx = set.leaves.length
  bits : ∀ i, containsIn view.getLeafSet.getByte i = set.unspent i

namespace CoinsViewUpdates

theorem getActions_addAction (updates : CoinsViewUpdates T) (outputId : T.Hash)
    (action : CoinAction T) (id : T.Hash) :
    (updates.addAction outputId action).getActions id =
      if id = outputId then updates.getActions id ++ [action] else updates.getActions id := by
  by_cases same : id = outputId
  · subst same
    simp [addAction, getActions]
  · simp [addAction, getActions, AList.lookup_insert_ne same, same]

end CoinsViewUpdates

/-! ## Coins under actions -/

def HoldsCoins (base : ICoinsView T) (updates : CoinsViewUpdates T)
    (coins : T.Hash → Option (UTXO T)) : Prop :=
  ∀ id, (base.getUTXO id >>= (updates.getActions id).foldlM applyAction) = .ok (coins id)

def KeyedUpdates (crypto : Crypto T) (updates : CoinsViewUpdates T) : Prop :=
  ∀ id utxo, some utxo ∈ updates.getActions id → crypto.hashOutput utxo.output = id

variable {coins : T.Hash → Option (UTXO T)} {outputId : T.Hash} {updates : CoinsViewUpdates T}
  {view : ICoinsView T} {state : ViewState crypto}

variable {base : ICoinsView T}

section

variable (held : HoldsCoins base updates coins)
include held

theorem HoldsCoins.addAction {action result : CoinAction T}
    (valid : applyAction (coins outputId) action = .ok result) :
    HoldsCoins base (updates.addAction outputId action)
      fun id => if id = outputId then result else coins id := by
  intro id
  have before := held id
  rw [CoinsViewUpdates.getActions_addAction]
  split
  · rename_i same
    subst same
    obtain ⟨utxo, read, folded⟩ := bind_eq_ok.mp before
    simp [read, foldlM_append, folded, valid]
  · rename_i other
    simpa [other] using before

theorem HoldsCoins.added (utxo : UTXO T) (absent : coins outputId = none) :
    HoldsCoins base (updates.addAction outputId (some utxo))
      fun id => if id = outputId then some utxo else coins id :=
  held.addAction (by rw [absent]; rfl)

theorem HoldsCoins.spent {utxo : UTXO T} (found : coins outputId = some utxo) :
    HoldsCoins base (updates.addAction outputId none)
      fun id => if id = outputId then none else coins id :=
  held.addAction (by rw [found]; rfl)

end

theorem KeyedUpdates.addAction (keyed : KeyedUpdates crypto updates) {action : CoinAction T}
    (own : ∀ utxo, action = some utxo → crypto.hashOutput utxo.output = outputId) :
    KeyedUpdates crypto (updates.addAction outputId action) := by
  intro id utxo member
  rw [CoinsViewUpdates.getActions_addAction] at member
  split at member
  · rename_i same
    rcases mem_append.mp member with before | here
    · exact keyed id utxo before
    · rw [same]
      exact own utxo (mem_singleton.mp here).symm
  · exact keyed id utxo member

variable {spent : List (UTXO T)}

section Actions

variable {α : Type} {key : α → T.Hash} {action : α → CoinAction T} {items : List α}

theorem HoldsCoins.addActions {target : T.Hash → Option (UTXO T)}
    (held : HoldsCoins base updates coins) (nodup : (items.map key).Nodup)
    (valid : ∀ item ∈ items, applyAction (coins (key item)) (action item) = .ok (target (key item)))
    (others : ∀ id, id ∉ items.map key → coins id = target id) :
    HoldsCoins base (items.foldl (fun updates item =>
      CoinsViewUpdates.addAction updates (key item) (action item)) updates) target := by
  induction items generalizing updates coins with
  | nil =>
    intro id
    rw [← others id not_mem_nil]
    exact held id
  | cons item rest ih =>
    obtain ⟨first, nodup⟩ := nodup_cons.mp nodup
    obtain ⟨here, later⟩ := forall_mem_cons.mp valid
    refine ih (held.addAction here) nodup (fun other member => ?_) fun id absent => ?_
    · have apart : key other ≠ key item := fun same => first (mem_map.mpr ⟨other, member, same⟩)
      rw [if_neg apart]
      exact later other member
    · split
      · rename_i same
        rw [same]
      · rename_i apart
        exact others id (not_mem_cons_of_ne_of_not_mem apart absent)

theorem KeyedUpdates.addActions (keyed : KeyedUpdates crypto updates)
    (own : ∀ item utxo, action item = some utxo → crypto.hashOutput utxo.output = key item) :
    KeyedUpdates crypto (items.foldl (fun updates item =>
      CoinsViewUpdates.addAction updates (key item) (action item)) updates) := by
  induction items generalizing updates with
  | nil => exact keyed
  | cons item rest ih => exact ih (keyed.addAction (own item))

end Actions

/-! ## The operations of a cache -/

section Cache

variable {base : ICoinsView T} {top : CoinsViewCache T} {set : CoinSet crypto}

variable (rep : RepresentsSet crypto (.cache base top) set)
include rep

/-- A cache's parts, from what its view represents. -/
theorem RepresentsSet.parts :
    KeyedUpdates crypto top.updates ∧ HoldsCoins base top.updates set.coins ∧
      top.outputPMMR.getNextLeafIdx = set.leaves.length ∧
      top.leafSet.nextLeafIdx = set.leaves.length ∧
      ∀ i, contains (leafStore base) top.leafSet i = set.unspent i := by
  refine ⟨rep.keyed.2, rep.coins, ?_, rep.next, rep.bits⟩
  exact some.inj rep.leaves.getNextLeafIdx_eq

theorem RepresentsSet.bounded : LeafSet.Bounded (leafStore base) top.leafSet := by
  obtain ⟨-, -, -, next, bits⟩ := rep.parts
  intro i high
  rw [bits]
  by_contra unspent
  exact absurd (set.unspent_lt (Bool.of_not_eq_false unspent)) (Nat.not_lt.mpr (next ▸ high))

variable (height : Int32)

theorem addUTXO_of_fresh {output : Output T} (fresh : set.coins (crypto.hashOutput output) = none) :
    ∃ top', addUTXO crypto base top height output = .ok top' ∧
      top'.header = top.header ∧
      RepresentsSet crypto (.cache base top') (set.add height output fresh) := by
  obtain ⟨keyed, coins, nextLeaf, next, bits⟩ := rep.parts
  obtain ⟨pmmr, added, holds⟩ := PMMRCache.add_represents rep.leaves (crypto.hashOutput output)
  have read := rep.coins (crypto.hashOutput output)
  refine ⟨{ top with
    outputPMMR := pmmr
    leafSet := add (leafStore base) top.leafSet top.outputPMMR.getNextLeafIdx
    updates := top.updates.addAction (crypto.hashOutput output)
      (some ⟨height, top.outputPMMR.getNextLeafIdx, output⟩) },
    by simp [addUTXO, read, fresh, added, orAssert], rfl, ?_⟩
  refine ⟨⟨rep.keyed.1, keyed.addAction ?_⟩, ?_, holds, ?_, ?_⟩
  · rintro utxo same
    cases same
    rfl
  · rw [nextLeaf]
    exact coins.added _ fresh
  · show (leafStore base).nextLeafIdx (add (leafStore base) top.leafSet _) = _
    rw [nextLeafIdx_add, nextLeaf]
    show max top.leafSet.nextLeafIdx _ = _
    simp [next, CoinSet.add]
  · intro i
    show contains (leafStore base) (add _ _ _) i = _
    rw [contains_add, bits, nextLeaf]
    simp only [CoinSet.add, eq_comm]

theorem addUTXO_of_held {output : Output T} (held : set.coins (crypto.hashOutput output) ≠ none) :
    addUTXO crypto base top height output = .error (.validation .duplicates) := by
  have read := rep.coins (crypto.hashOutput output)
  simp [addUTXO, read, held]

theorem spendUTXO_of_found {utxo : UTXO T} (found : set.coins outputId = some utxo) :
    ∃ top', spendUTXO base top outputId = .ok (utxo, top') ∧
      top'.header = top.header ∧
      RepresentsSet crypto (.cache base top') (set.spend outputId utxo found) := by
  obtain ⟨keyed, coins, -, next, bits⟩ := rep.parts
  have read := rep.coins outputId
  have unspent := (set.coin_leaf outputId utxo found).2.1
  refine ⟨{ top with
    leafSet := remove (leafStore base) top.leafSet utxo.leafIndex
    updates := top.updates.addAction outputId none },
    by simp [spendUTXO, read, found, bits, unspent], rfl, ?_⟩
  refine ⟨⟨rep.keyed.1, keyed.addAction (by rintro _ ⟨⟩)⟩, coins.spent found, rep.leaves, next, ?_⟩
  intro i
  show contains (leafStore base) (remove _ _ _) i = _
  rw [contains_remove, bits]
  rfl

theorem spendUTXO_of_missing (missing : set.coins outputId = none) :
    spendUTXO base top outputId = .error (.validation .utxoMissing) := by
  have read := rep.coins outputId
  simp [spendUTXO, read, missing]

/-- Adding outputs succeeds exactly when it does on the coin set. -/
theorem addOutputs_represents (outputs : List (Output T)) :
    match set.addOutputs height outputs with
    | some set' => ∃ top', addOutputs crypto base height top outputs = .ok top' ∧
        top'.header = top.header ∧ RepresentsSet crypto (.cache base top') set'
    | none => ∃ error, addOutputs crypto base height top outputs = .error error := by
  induction outputs generalizing top set with
  | nil => exact ⟨top, rfl, rfl, rep⟩
  | cons output rest ih =>
    rw [CoinSet.addOutputs]
    by_cases fresh : set.coins (crypto.hashOutput output) = none
    · obtain ⟨next, done, header, holds⟩ := addUTXO_of_fresh rep height fresh
      rw [dif_pos fresh, addOutputs, done, ← header]
      exact ih holds
    · rw [dif_neg fresh]
      exact ⟨_, by simp [addOutputs, addUTXO_of_held rep height fresh]; rfl⟩

/-- Spending inputs succeeds exactly when it does on the coin set. -/
theorem spendInputs_represents (ids : List T.Hash) :
    match set.spendInputs ids with
    | some (spent, set') => ∃ top', spendInputs base top ids = .ok (spent, top') ∧
        top'.header = top.header ∧ RepresentsSet crypto (.cache base top') set'
    | none => ∃ error, spendInputs base top ids = .error error := by
  induction ids generalizing top set with
  | nil => exact ⟨top, rfl, rfl, rep⟩
  | cons outputId rest ih =>
    rw [CoinSet.spendInputs]
    split
    · rename_i spent set' first
      split at first
      · cases first
      rename_i utxo found
      obtain ⟨⟨others, after⟩, rest_first, pair⟩ := map_eq_some_iff.mp first
      cases pair
      obtain ⟨next, done, header, holds⟩ := spendUTXO_of_found rep found
      have later := ih holds
      rw [rest_first] at later
      obtain ⟨last, rest_done, header', holds'⟩ := later
      exact ⟨last, by simp [spendInputs, done, rest_done],
        header'.trans header, holds'⟩
    · rename_i first
      split at first
      · rename_i missing
        exact ⟨_, by simp [spendInputs, spendUTXO_of_missing rep missing]; rfl⟩
      · rename_i utxo found
        obtain ⟨next, done, -, holds⟩ := spendUTXO_of_found rep found
        have later := ih holds
        rw [map_eq_none_iff.mp first] at later
        obtain ⟨error, failed⟩ := later
        exact ⟨error, by simp [spendInputs, done, failed]⟩

end Cache

/-- The comparison with a header reads the coin set only. -/
theorem matchesHeader_iff {set : CoinSet crypto} (rep : RepresentsSet crypto view set)
    (header : Header T) : view.matchesHeader crypto header = true ↔ set.Matches header := by
  simp only [matchesHeader, rep.leaves.root_eq, rep.leaves.getNextLeafIdx_eq,
    leafsetRoot, eq_packBits rep.bits, rep.next, Bool.and_eq_true, decide_eq_true_eq,
    some.injEq, CoinSet.Matches, and_assoc]
  exact and_congr eq_comm (and_congr eq_comm eq_comm)

/-! ## Applying a block -/

/-- What a block does to the coin set: its outputs are added, then its inputs spent. -/
def CoinSet.applyBody (set : CoinSet crypto) (height : Int32) (outputs : List (Output T))
    (ids : List T.Hash) : Option (List (UTXO T) × CoinSet crypto) := do
  let added ← set.addOutputs height outputs
  added.spendInputs ids

section Apply

variable {base : ICoinsView T} {top : CoinsViewCache T} {set : CoinSet crypto} {block : Block T}

variable (rep : RepresentsSet crypto (.cache base top) set)
include rep

theorem RepresentsSet.with_header (header : Header T) :
    RepresentsSet crypto (.cache base { top with header := some header }) set :=
  ⟨rep.keyed, rep.coins, rep.leaves, rep.next, rep.bits⟩

theorem applyBlock_represents {undo : BlockUndo T} {top' : CoinsViewCache T}
    (applied : top.applyBlock crypto base block = .ok (undo, top')) :
    validateForBlock crypto block.body block.header.kernelOffset
        (prevOffset top.header) = .ok () ∧
      ∃ spent set', set.applyBody block.header.height block.body.outputs
          block.body.getSpentIDs = some (spent, set') ∧ set'.Matches block.header ∧
        undo = ⟨top.header, spent, block.body.outputs.map crypto.hashOutput⟩ ∧
        top'.header = some block.header ∧ RepresentsSet crypto (.cache base top') set' := by
  obtain ⟨sums, middle, spent, adds, spends, fits, rfl⟩ := applyBlock_eq_ok.mp applied
  have added := addOutputs_represents (rep.with_header block.header) block.header.height
    block.body.outputs
  cases first : set.addOutputs block.header.height block.body.outputs with
  | none =>
    rw [first] at added
    obtain ⟨error, failed⟩ := added
    rw [failed] at adds
    cases adds
  | some set₁ =>
    rw [first] at added
    obtain ⟨_, same, header, holds⟩ := added
    rw [adds] at same
    cases same
    have spending := spendInputs_represents holds block.body.getSpentIDs
    cases second : set₁.spendInputs block.body.getSpentIDs with
    | none =>
      rw [second] at spending
      obtain ⟨error, failed⟩ := spending
      rw [failed] at spends
      cases spends
    | some result =>
      obtain ⟨coins, set₂⟩ := result
      rw [second] at spending
      obtain ⟨_, same, header', holds'⟩ := spending
      rw [spends] at same
      cases same
      refine ⟨sums, spent, set₂, ?_, (matchesHeader_iff holds' _).mp fits, rfl,
        header'.trans header, holds'⟩
      simp [CoinSet.applyBody, first, second]

theorem applyBlock_of_applyBody (sums : validateForBlock crypto block.body block.header.kernelOffset
      (prevOffset top.header) = .ok ()) {set' : CoinSet crypto}
    (applies : set.applyBody block.header.height block.body.outputs block.body.getSpentIDs =
      some (spent, set')) (fits : set'.Matches block.header) :
    ∃ top', top.applyBlock crypto base block =
        .ok (⟨top.header, spent, block.body.outputs.map crypto.hashOutput⟩, top') := by
  obtain ⟨set₁, first, second⟩ := bind_eq_some_iff.mp applies
  have added := addOutputs_represents (rep.with_header block.header) block.header.height
    block.body.outputs
  rw [first] at added
  obtain ⟨middle, adds, -, holds⟩ := added
  have spending := spendInputs_represents holds block.body.getSpentIDs
  rw [second] at spending
  obtain ⟨last, spends, -, holds'⟩ := spending
  exact ⟨last, applyBlock_eq_ok.mpr ⟨sums, middle, spent, adds, spends,
    (matchesHeader_iff holds' _).mpr fits, rfl⟩⟩

end Apply

structure Represents (crypto : Crypto T) (view : ICoinsView T) (state : ViewState crypto) : Prop
    extends RepresentsSet crypto view state.set where
  header : view.getBestHeader = state.header

/-- Coins, leafset and output range agree with each other and with the best header. -/
def Consistent (crypto : Crypto T) (view : ICoinsView T) : Prop :=
  ∃ state : ViewState crypto, Represents crypto view state

/-- Two views give the same answers: coins, leafset, leaves and root of the output
range, best header. -/
structure SameView (crypto : Crypto T) (first second : ICoinsView T) : Prop where
  coins : ∀ id, first.getUTXO id = second.getUTXO id
  unspent : ∀ i, containsIn first.getLeafSet.getByte i = containsIn second.getLeafSet.getByte i
  nextLeaf : first.getLeafSet.getNextLeafIdx = second.getLeafSet.getNextLeafIdx
  numLeaves : first.getOutputPMMR.getNextLeafIdx = second.getOutputPMMR.getNextLeafIdx
  leaves : ∀ numLeaves, second.getOutputPMMR.getNextLeafIdx = some numLeaves → ∀ i, i < numLeaves →
    first.getOutputPMMR.getLeaf i = second.getOutputPMMR.getLeaf i
  root : first.getOutputPMMR.root crypto.outputMmr T.zeroHash =
    second.getOutputPMMR.root crypto.outputMmr T.zeroHash
  header : first.getBestHeader = second.getBestHeader

theorem sameView_of_represents {first second : ICoinsView T} (left : Represents crypto first state)
    (right : Represents crypto second state) :
    SameView crypto first second where
  coins id := (left.coins id).trans (right.coins id).symm
  unspent i := (left.bits i).trans (right.bits i).symm
  nextLeaf := left.next.trans right.next.symm
  numLeaves := left.leaves.getNextLeafIdx_eq.trans right.leaves.getNextLeafIdx_eq.symm
  leaves numLeaves count i inside := by
    rw [right.leaves.getNextLeafIdx_eq, some.injEq] at count
    obtain ⟨id, found⟩ : ∃ id, state.set.leaves[i]? = some id :=
      ⟨_, List.getElem?_eq_getElem (count ▸ inside)⟩
    rw [left.leaves.getLeaf_eq found, right.leaves.getLeaf_eq found]
  root := left.leaves.root_eq.trans right.leaves.root_eq.symm
  header := left.header.trans right.header.symm

/-- A new cache stands for what its base stands for. -/
theorem newCache_represents {fresh : CoinsViewCache T} (rep : Represents crypto view state)
    (created : view.newCache = some fresh) : Represents crypto (.cache view fresh) state := by
  obtain ⟨created', leaves⟩ := PMMRCache.newCache_represents rep.leaves
  simp only [newCache, created', bind_eq_bind, bind_some, some.injEq] at created
  subst created
  refine ⟨⟨⟨rep.keyed, ?_⟩, ?_, leaves, rep.next, ?_⟩, rep.header⟩
  · intro id utxo member
    cases member
  · intro id
    simp only [getUTXO, rep.coins id]
    rfl
  · intro i
    rw [← rep.bits i]
    rfl

theorem exists_newCache (rep : Represents crypto view state) :
    ∃ fresh, view.newCache = some fresh := by
  obtain ⟨created, -⟩ := PMMRCache.newCache_represents rep.leaves
  simp [newCache, created]

end MooncoinFormal.Mweb
