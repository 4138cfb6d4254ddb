import MooncoinFormal.Mweb.FirstBlock

/-!
# Undoing a block

`UndoBlock` gives spent coins back, takes added ones away and rewinds the leafset
and the output range. Applied to the undo data that `ApplyBlock` returned, it
brings back what the view stood for, down to every answer the view gives.
-/

namespace MooncoinFormal.Mweb

open Primitives Mmr LeafSet CoinsViewCache Numeric List

variable {T : CryptoTypes} {crypto : Crypto T}

section Undo

variable {base : ICoinsView T} {top : CoinsViewCache T} {before after added : CoinSet crypto}
  {height : Int32} {outputs : List (Output T)} {ids : List T.Hash} {spent : List (UTXO T)}

theorem undo_coins (held : HoldsCoins base top.updates after.coins)
    (adds : before.addOutputs height outputs = some added)
    (spends : added.spendInputs ids = some (spent, after)) :
    HoldsCoins base
      ((outputs.map crypto.hashOutput).foldl
        (fun updates id => CoinsViewUpdates.addAction updates id none)
        (spent.foldl (fun updates utxo =>
          CoinsViewUpdates.addAction updates (crypto.hashOutput utxo.output) (some utxo))
          top.updates)) before.coins := by
  obtain ⟨-, nodupOutputs, fresh, others, -⟩ := CoinSet.addOutputs_spec adds
  obtain ⟨-, nodupIds, hashes, found, coins, -⟩ := CoinSet.spendInputs_spec spends
  rw [foldl_map]
  refine HoldsCoins.addActions ?_ nodupOutputs (fun output member => ?_) others
  · refine held.addActions (hashes ▸ nodupIds) (fun utxo member => ?_) fun id absent => ?_
    · have gone : after.coins (crypto.hashOutput utxo.output) = none := by
        rw [coins, if_pos (hashes ▸ mem_map.mpr ⟨utxo, member, rfl⟩)]
      rw [gone, found utxo member]
      rfl
    · rw [coins, if_neg (hashes ▸ absent)]
  · obtain ⟨absent, held⟩ := fresh _ (mem_map_of_mem member)
    obtain ⟨utxo, there⟩ := Option.ne_none_iff_exists'.mp held
    rw [absent, there]
    rfl

theorem undo_bits (rep : RepresentsSet crypto (.cache base top) after)
    (adds : before.addOutputs height outputs = some added)
    (spends : added.spendInputs ids = some (spent, after)) (leaves : List Nat)
    (given : ∀ i, i < before.leaves.length →
      (i ∈ leaves ↔ i ∈ spent.map UTXO.leafIndex)) (i : Nat) :
    LeafSet.contains (leafStore base)
      (LeafSet.rewind (leafStore base) top.leafSet before.leaves.length leaves) i =
        before.unspent i := by
  obtain ⟨-, -, -, -, bits⟩ := rep.parts
  rw [contains_rewind rep.bounded, bits]
  obtain ⟨-, -, -, -, kept⟩ := CoinSet.addOutputs_spec adds
  obtain ⟨-, -, -, found, -, unspent⟩ := CoinSet.spendInputs_spec spends
  by_cases low : i < before.leaves.length
  · rw [decide_eq_true low, Bool.true_and, unspent, ← kept i low]
    by_cases back : i ∈ spent.map UTXO.leafIndex
    · -- a leaf that the block spent was unspent before
      obtain ⟨utxo, member, rfl⟩ := mem_map.mp back
      have set := (added.coin_leaf _ utxo (found utxo member)).2.1
      rw [set, decide_eq_true ((given _ low).mpr back), Bool.true_or]
    · rw [decide_eq_false (fun member => back ((given i low).mp member)), decide_eq_false back]
      rfl
  · rw [decide_eq_false low, Bool.false_and]
    by_contra set
    exact low (before.unspent_lt (Bool.of_not_eq_false (Ne.symm set)))

end Undo

theorem undoBlock_represents {base : ICoinsView T} {top : CoinsViewCache T}
    {before : ViewState crypto} {after : CoinSet crypto} {height : Int32}
    {outputs : List (Output T)} {ids : List T.Hash} {spent : List (UTXO T)}
    (rep : RepresentsSet crypto (.cache base top) after)
    (applied : before.set.applyBody height outputs ids = some (spent, after)) :
    ∃ top', top.undoBlock crypto base ⟨before.header, spent, outputs.map crypto.hashOutput⟩ =
        .ok top' ∧ Represents crypto (.cache base top') before := by
  obtain ⟨added, adds, spends⟩ := Option.bind_eq_some_iff.mp applied
  obtain ⟨leavesAdded, -⟩ := CoinSet.addOutputs_spec adds
  obtain ⟨leavesSame, -⟩ := CoinSet.spendInputs_spec spends
  have keyed : KeyedUpdates crypto ((outputs.map crypto.hashOutput).foldl
      (fun updates id => CoinsViewUpdates.addAction updates id none)
      (spent.foldl (fun updates utxo => CoinsViewUpdates.addAction updates
        (crypto.hashOutput utxo.output) (some utxo)) top.updates)) := by
    refine (rep.parts.1.addActions ?_).addActions nofun
    rintro utxo _ ⟨⟩
    rfl
  have coins := undo_coins rep.parts.2.1 adds spends
  have longer : before.set.leaves.length ≤ after.leaves.length := by
    rw [leavesSame, leavesAdded, length_append]
    omega
  have rewound := PMMRCache.rewind_represents rep.leaves longer
  have leaves : after.leaves.take before.set.leaves.length = before.set.leaves := by
    rw [leavesSame, leavesAdded, take_left]
  rw [leaves] at rewound
  cases best : before.header with
  | none =>
    have empty := before.unstarted best
    have bits := undo_bits rep adds spends []
      (fun i low => by rw [empty] at low; cases low)
    rw [empty, length_nil] at rewound bits
    refine ⟨_, rfl, ⟨⟨rep.keyed.1, keyed⟩, coins, ?_, ?_, bits⟩, best.symm⟩
    · rw [empty]
      exact rewound
    · rw [empty]
      rfl
  | some header =>
    have committed := before.committed header best
    have bits := undo_bits rep adds spends (spent.map UTXO.leafIndex) fun _ _ => Iff.rfl
    rw [← committed.2.1] at rewound bits
    have holds : RepresentsSet crypto (.cache base {
        header := some header
        leafSet := LeafSet.rewind (leafStore base) top.leafSet header.numTXOs
          (spent.map UTXO.leafIndex)
        outputPMMR := top.outputPMMR.rewind header.numTXOs
        updates := _ }) before.set :=
      ⟨⟨rep.keyed.1, keyed⟩, coins, rewound, committed.2.1, bits⟩
    refine ⟨_, ?_, holds, best.symm⟩
    simp [undoBlock, (matchesHeader_iff holds header).mpr committed]

/-- Undoing a block that was applied succeeds, and the view stands for the same
state as before. -/
theorem undoBlock_succeeds {base : ICoinsView T} {top top' : CoinsViewCache T} {block : Block T}
    {undo : BlockUndo T} {state : ViewState crypto}
    (rep : Represents crypto (.cache base top) state)
    (applied : top.applyBlock crypto base block = .ok (undo, top')) :
    ∃ top'', top'.undoBlock crypto base undo = .ok top'' ∧
      Represents crypto (.cache base top'') state := by
  obtain ⟨-, spent, after, body, -, rfl, -, holds⟩ :=
    applyBlock_represents rep.toRepresentsSet applied
  have header : top.header = state.header := rep.header
  rw [header]
  exact undoBlock_represents holds body

/-- On a consistent view, undoing a block that was applied succeeds and gives
back every answer of the view. -/
theorem undoBlock_applyBlock {base : ICoinsView T} {top top' : CoinsViewCache T}
    {block : Block T} {undo : BlockUndo T} (consistent : Consistent crypto (.cache base top))
    (applied : top.applyBlock crypto base block = .ok (undo, top')) :
    ∃ top'', top'.undoBlock crypto base undo = .ok top'' ∧
      SameView crypto (.cache base top'') (.cache base top) := by
  obtain ⟨state, rep⟩ := consistent
  obtain ⟨top'', undone, restored⟩ := undoBlock_succeeds rep applied
  exact ⟨top'', undone, sameView_of_represents restored rep⟩

/-- The first block, which also spends one of its own outputs, is undone. -/
theorem undoBlock_firstBlock :
    ∃ undo top' top'',
      emptyCache.applyBlock mweb emptyView firstBlock =
        .ok (undo, top') ∧
      top'.undoBlock mweb emptyView undo = .ok top'' ∧
      SameView mweb (.cache emptyView top'')
        (.cache emptyView emptyCache) := by
  obtain ⟨undo, top', applied⟩ := firstBlock_applied
  obtain ⟨top'', undone, same⟩ :=
    undoBlock_applyBlock ⟨_, unstarted_represents mweb⟩ applied
  exact ⟨undo, top', top'', applied, undone, same⟩

end MooncoinFormal.Mweb
