import MooncoinFormal.Mweb.BodyBinding
import MooncoinFormal.Mweb.Undo
import MooncoinFormal.Primitives.Ideal

/-!
# Flushing a cache

A cache writes its action lists, the bytes of its leafset, the leaves of its
range and its header to the view below. Over every run of applied and undone
blocks and of child caches that were flushed, the view below then gives the
cache's answers, unless the cache has no best header while the view below has
one, or the view below is the database and leaves of its hash file were replaced
by others. In the first case `Flush` returns early and the view below keeps its
state; in the second the hash file keeps the hashes that were to be replaced.
-/

namespace MooncoinFormal.Mweb

open Primitives Library.Checks Library.MountainRange Mmr LeafSet CoinsViewCache CoinsViewUpdates
  List DBTransaction ICoinsView

variable {T : CryptoTypes} {crypto : Crypto T}

/-! ## Writing action lists -/

variable {actions : List (CoinAction T)} {coins : T.Hash → Option (UTXO T)}
  {transaction : DBTransaction T.Hash (UTXO T)}
  {entries : List (Sigma fun _ : T.Hash => List (CoinAction T))} {view : CoinsViewDB T}
  {top : CoinsViewCache T} {before : List T.Hash} {set : CoinSet crypto} {base : ICoinsView T}

theorem foldlM_writeAction {id : T.Hash} {current final : Option (UTXO T)}
    (keyed : ∀ utxo, some utxo ∈ actions → crypto.hashOutput utxo.output = id)
    (valid : actions.foldlM applyAction current = .ok final)
    (now : transaction.commit coins id = current)
    (readable : current ≠ none → (transaction.get coins id).isSome = true) :
    ∃ written, actions.foldlM (CoinsViewDB.writeAction crypto coins id) transaction = .ok written ∧
      written.commit coins id = final ∧
      ∀ other, other ≠ id →
        written.batch other = transaction.batch other ∧
          written.added other = transaction.added other := by
  induction actions generalizing current transaction with
  | nil =>
    cases valid
    exact ⟨transaction, rfl, now, fun _ _ => ⟨rfl, rfl⟩⟩
  | cons action rest ih =>
    obtain ⟨next, step, valid⟩ := bind_eq_ok.mp valid
    have rest_keyed : ∀ utxo, some utxo ∈ rest → crypto.hashOutput utxo.output = id :=
      fun utxo member => keyed utxo (mem_cons_of_mem _ member)
    cases action with
    | some utxo =>
      have hash := keyed utxo mem_cons_self
      cases current with
      | some _ => cases step
      | none =>
        cases step
        obtain ⟨written, done, committed, others⟩ :=
          ih rest_keyed valid
            (show (transaction.put id utxo).commit coins id = some utxo by
              simp [commit, put])
            (by simp [DBTransaction.get, DBTransaction.put])
        refine ⟨written, ?_, committed, ?_⟩
        · simpa [CoinsViewDB.writeAction, hash] using done
        · intro other different
          simpa [put, different] using others other different
    | none =>
      cases current with
      | none => cases step
      | some _ =>
        cases step
        have found := readable (Option.some_ne_none _)
        obtain ⟨written, done, committed, others⟩ :=
          ih rest_keyed valid
            (show (transaction.delete id).commit coins id = none by
              simp [commit, delete]) (absurd rfl)
        refine ⟨written, ?_, committed, ?_⟩
        · simpa [CoinsViewDB.writeAction, found] using done
        · intro other different
          simpa [delete, different] using others other different

theorem foldlM_entries {target : T.Hash → Option (UTXO T)} (nodup : entries.NodupKeys)
    (keyed : ∀ entry ∈ entries, ∀ utxo, some utxo ∈ entry.2 → crypto.hashOutput utxo.output =
      entry.1)
    (valid : ∀ entry ∈ entries, entry.2.foldlM applyAction (coins entry.1) = .ok (target entry.1))
    (untouched : ∀ entry ∈ entries, transaction.batch entry.1 = none ∧ transaction.added entry.1 =
      []) :
    ∃ written, entries.foldlM (fun transaction entry =>
        entry.2.foldlM (CoinsViewDB.writeAction crypto coins entry.1) transaction) transaction =
          .ok written ∧
      (∀ entry ∈ entries, written.commit coins entry.1 = target entry.1) ∧
      ∀ id, id ∉ entries.keys → written.batch id = transaction.batch id := by
  induction entries generalizing transaction with
  | nil => exact ⟨transaction, rfl, nofun, fun _ _ => rfl⟩
  | cons entry rest ih =>
    obtain ⟨id, actions⟩ := entry
    obtain ⟨fresh, nodup⟩ := nodupKeys_cons.mp nodup
    obtain ⟨batch, added⟩ := untouched ⟨id, actions⟩ mem_cons_self
    obtain ⟨next, done, committed, others⟩ :=
      foldlM_writeAction (keyed ⟨id, actions⟩ mem_cons_self)
        (valid ⟨id, actions⟩ mem_cons_self)
        (show transaction.commit coins id = coins id by simp [commit, batch])
        (fun held => by simpa [DBTransaction.get, added, Option.isSome_iff_ne_none] using held)
    have apart : ∀ entry ∈ rest, entry.1 ≠ id := by
      rintro entry member rfl
      exact fresh (mem_map.mpr ⟨entry, member, rfl⟩)
    obtain ⟨written, rest_done, rest_committed, rest_others⟩ :=
      ih nodup (forall_mem_cons.mp keyed).2
        (forall_mem_cons.mp valid).2
        (fun entry member => by
          obtain ⟨sameBatch, sameAdded⟩ := others entry.1 (apart entry member)
          rw [sameBatch, sameAdded]
          exact untouched entry (mem_cons_of_mem _ member))
    refine ⟨written, by simpa [done] using rest_done, ?_, ?_⟩
    · intro entry member
      rcases mem_cons.mp member with rfl | later
      · rw [← committed, commit, commit, rest_others id fresh]
      · exact rest_committed entry later
    · intro other absent
      rw [keys_cons, mem_cons, not_or] at absent
      rw [rest_others other absent.2, (others other absent.1).1]

theorem writeBatch_db {updates : CoinsViewUpdates T} (keyed : KeyedUpdates crypto updates)
    (held : HoldsCoins (.db view) updates coins) (header : Option (Header T)) :
    view.writeBatch crypto updates header = .ok { view with header := header, coins := coins } := by
  have actions : ∀ entry ∈ updates.entries, updates.getActions entry.1 = entry.2 := by
    intro entry member
    rw [getActions, AList.mem_lookup_iff.mpr member]
    rfl
  obtain ⟨written, done, committed, others⟩ := foldlM_entries updates.nodupKeys
    (fun entry member utxo inside => keyed entry.1 utxo (actions entry member ▸ inside))
    (fun entry member => actions entry member ▸ held entry.1)
    (show ∀ entry ∈ updates.entries,
      (⟨fun _ => none, fun _ => []⟩ : DBTransaction T.Hash (UTXO T)).batch entry.1 = none ∧ _ from
      fun _ _ => ⟨rfl, rfl⟩)
  have result : written.commit view.coins = coins := by
    funext id
    by_cases member : id ∈ updates.entries.keys
    · obtain ⟨entry, inside, rfl⟩ := mem_map.mp member
      exact committed entry inside
    · -- no action for this ID
      have idle := held id
      rw [getActions, AList.lookup_eq_none.mpr member] at idle
      rw [commit, others id member]
      exact Except.ok.inj idle
  simp [CoinsViewDB.writeBatch, done, result]

theorem getActions_foldl_writeAction {outputId : T.Hash}
    (keyed : ∀ utxo, some utxo ∈ actions → crypto.hashOutput utxo.output = outputId)
    (updates : CoinsViewUpdates T) (id : T.Hash) :
    getActions
        (actions.foldl (writeAction crypto outputId) updates) id =
      if id = outputId then updates.getActions id ++ actions else updates.getActions id := by
  induction actions generalizing updates with
  | nil => simp
  | cons action rest ih =>
    have step : writeAction crypto outputId updates action = updates.addAction outputId action := by
      cases action with
      | none => rfl
      | some utxo => rw [writeAction, keyed utxo mem_cons_self]
    rw [foldl_cons, step, ih fun utxo member => keyed utxo (mem_cons_of_mem _ member),
      getActions_addAction]
    split <;> simp

theorem getActions_foldl_entries (nodup : entries.NodupKeys)
    (keyed : ∀ entry ∈ entries, ∀ utxo, some utxo ∈ entry.2 → crypto.hashOutput utxo.output =
      entry.1) (updates : CoinsViewUpdates T) (id : T.Hash) :
    getActions (entries.foldl (fun current entry =>
        entry.2.foldl (writeAction crypto entry.1) current) updates) id =
      updates.getActions id ++ (entries.dlookup id).getD [] := by
  induction entries generalizing updates with
  | nil => simp
  | cons entry rest ih =>
    obtain ⟨outputId, actions⟩ := entry
    obtain ⟨fresh, nodup⟩ := nodupKeys_cons.mp nodup
    rw [foldl_cons, ih nodup (forall_mem_cons.mp keyed).2,
      getActions_foldl_writeAction (keyed ⟨outputId, actions⟩ mem_cons_self)]
    by_cases same : id = outputId
    · subst same
      rw [if_pos rfl, dlookup_cons_eq, dlookup_eq_none.mpr fresh]
      simp
    · rw [if_neg same, dlookup_cons_ne _ _ same]

theorem getActions_writeBatch {base : CoinsViewCache T} (keyed : KeyedUpdates crypto top.updates)
    (header : Option (Header T)) (id : T.Hash) :
    (base.writeBatch crypto top.updates header).updates.getActions id =
      base.updates.getActions id ++ top.updates.getActions id := by
  refine getActions_foldl_entries top.updates.nodupKeys ?_ base.updates id
  intro entry member utxo inside
  refine keyed entry.1 utxo ?_
  rw [getActions, AList.mem_lookup_iff.mpr member]
  exact inside

/-! ## Flushing -/

/-- The range below can take the leaves that the cache writes to it. -/
def TakesLeaves (crypto : Crypto T) (base : ICoinsView T) (top : CoinsViewCache T) : Prop :=
  ∃ before after, base.getOutputPMMR.Represents crypto.outputMmr before ∧
    (cache base top).getOutputPMMR.Represents crypto.outputMmr after ∧
    base.getOutputPMMR.Takes top.outputPMMR.firstLeaf before after

theorem flushTo_db (rep : RepresentsSet crypto (.cache (.db view) top) set)
    (under : (IMMR.file view.outputPMMR).Represents crypto.outputMmr before) :
    ∃ leafDB, top.flushTo crypto (.db view) = .ok (.db {
        header := top.header
        coins := set.coins
        leafSet := view.leafSet.applyUpdates top.leafSet.nextLeafIdx top.leafSet.modifiedBytes
        outputPMMR :=
          ⟨committedNodes crypto.outputMmr top.outputPMMR.firstLeaf before set.leaves, leafDB⟩ }) ∧
      ∀ i data, set.leaves[i]? = some data →
        leafDB i = some (Leaf.create crypto.outputMmr i data) := by
  obtain ⟨keyed, coins, -, -, -⟩ := rep.parts
  obtain ⟨below, added, under', first, leaves, added_eq, -⟩ := rep.leaves
  obtain rfl := under.unique under'
  obtain ⟨leafDB, stored, held⟩ := PMMR.batchWrite_eq under first added
  rw [← added_eq, ← leaves] at stored
  rw [← leaves] at held
  exact ⟨leafDB, by simp [flushTo, writeBatch_db keyed coins, stored, orAssert], held⟩

theorem flushTo_represents (rep : RepresentsSet crypto (.cache base top) set)
    (takes : TakesLeaves crypto base top) :
    ∃ base', top.flushTo crypto base = .ok base' ∧ base'.getBestHeader = top.header ∧
      RepresentsSet crypto base' set := by
  obtain ⟨keyed, coins, -, next, bits⟩ := rep.parts
  obtain ⟨before, after, under, above, takes⟩ := takes
  obtain rfl := above.unique rep.leaves
  obtain ⟨bytes, nextLeaf⟩ := getByte_applyUpdates rep.bounded
  cases base with
  | db view =>
    obtain ⟨leafDB, flushed, stored⟩ := flushTo_db rep under
    obtain ⟨below, added, under', first, leaves, -, -⟩ := rep.leaves
    obtain rfl := under.unique under'
    have new := committedNodes_eq crypto.outputMmr
      (by rw [leaves, take_append_of_le_length (by rw [length_take_of_le first]),
        take_take, Nat.min_self])
      (by simp [leaves, length_take_of_le first]) takes
    refine ⟨_, flushed, rfl, trivial, fun _ => rfl, ⟨new, stored⟩, nextLeaf.trans next, ?_⟩
    intro i
    rw [← bits i]
    exact congrArg (containsIn · i) bytes
  | cache below middle =>
    obtain ⟨pmmr, written, leaves⟩ := PMMRCache.flush_represents under rep.leaves takes
    obtain ⟨file, stored, rfl⟩ := Option.map_eq_some_iff.mp written
    have flushed : top.flushTo crypto (.cache below middle) = .ok (.cache below {
        middle.writeBatch crypto top.updates top.header with
        leafSet := middle.leafSet.applyUpdates below.getLeafSet.getByte top.leafSet.nextLeafIdx
          top.leafSet.modifiedBytes
        outputPMMR := file }) := by
      simp [flushTo, stored, orAssert]
    refine ⟨_, flushed, rfl, ⟨rep.keyed.1.1, ?_⟩, ?_, leaves, nextLeaf.trans next, ?_⟩
    · intro id utxo member
      rw [getActions_writeBatch keyed] at member
      rcases mem_append.mp member with before | here
      · exact rep.keyed.1.2 id utxo before
      · exact keyed id utxo here
    · intro id
      have read := coins id
      simp only [getUTXO, getActions_writeBatch keyed]
      rw [getUTXO, bind_assoc] at read
      simpa [foldlM_append] using read
    · intro i
      rw [← bits i]
      exact congrArg (containsIn · i) bytes

/-- With a best header, the view below then stands for the cache's state. -/
theorem flush_represents {state : ViewState crypto}
    (rep : Represents crypto (.cache base top) state) (started : top.header ≠ none)
    (takes : TakesLeaves crypto base top) :
    ∃ base' top', top.flush crypto base = .ok (base', top') ∧ Represents crypto base' state := by
  obtain ⟨header, best⟩ := Option.ne_none_iff_exists'.mp started
  obtain ⟨base', written, written_header, holds⟩ := flushTo_represents rep.toRepresentsSet takes
  refine ⟨base', ⟨some header, top.leafSet.flushed, top.outputPMMR.flushed, ∅⟩, ?_, holds,
    written_header.trans rep.header⟩
  simp [flush, best, written]

theorem takesLeaves_cache {middle : CoinsViewCache T}
    (under : (cache base middle).getOutputPMMR.Represents crypto.outputMmr before)
    (rep : RepresentsSet crypto (.cache (.cache base middle) top) set) :
    TakesLeaves crypto (.cache base middle) top :=
  ⟨before, set.leaves, under, rep.leaves, trivial⟩

theorem takesLeaves_of_root (free : crypto.outputMmr.CollisionFree T.zeroHash)
    (under : (IMMR.file view.outputPMMR).Represents crypto.outputMmr before)
    (rep : RepresentsSet crypto (.cache (.db view) top) set) {base' : ICoinsView T}
    (flushed : top.flushTo crypto (.db view) = .ok base')
    (same : base'.getOutputPMMR.root crypto.outputMmr T.zeroHash = (cache (.db view)
      top).getOutputPMMR.root crypto.outputMmr T.zeroHash) : TakesLeaves crypto (.db view) top := by
  refine ⟨before, set.leaves, under, rep.leaves, ?_⟩
  obtain ⟨leafDB, written, -⟩ := flushTo_db rep under
  rw [written] at flushed
  cases flushed
  obtain ⟨below, added, under', first, leaves, -, -⟩ := rep.leaves
  obtain rfl := under.unique under'
  refine takes_of_root free first ?_
  have length : (committedNodes crypto.outputMmr top.outputPMMR.firstLeaf before
    set.leaves).length =
      leafPosition set.leaves.length := by
    have deep := leafPosition_strictMono.monotone first
    rw [committedNodes, length_take, length_append, length_drop, nodesOf_length, nodesOf_length]
    omega
  rw [rep.leaves.root_eq] at same
  change root crypto.outputMmr T.zeroHash _ (PMMR.getHash _) = _
  simpa [getOutputPMMR, IMMR.root, IMMR.getNextLeafIdx, PMMR.getNumLeaves, length,
    getLeafIndex_leafPosition, IMMR.getHash] using same

theorem flush_of_unstarted (unstarted : top.header = none) :
    top.flush crypto base = .ok (base, top) := by
  simp [flush, unstarted]

/-! ## Runs of a cache -/

/-- The state was reached by blocks with the given undo data, the latest first. -/
def Undoable : ViewState crypto → List (BlockUndo T) → Prop
  | _, [] => True
  | state, undo :: earlier => ∃ before : ViewState crypto, ∃ height outputs ids spent,
      before.set.applyBody height outputs ids = some (spent, state.set) ∧
        undo = ⟨before.header, spent, outputs.map crypto.hashOutput⟩ ∧ Undoable before earlier

/-- What can be done to a cache: apply a block, undo the latest one, or run a
child cache on it and flush the child. The list holds the undo data of the blocks
that can still be undone; a flush without a best header changes nothing. -/
inductive Runs (crypto : Crypto T) :
    ICoinsView T → List (BlockUndo T) → ICoinsView T → List (BlockUndo T) → Prop where
  | start (view : ICoinsView T) (undos : List (BlockUndo T)) : Runs crypto view undos view undos
  | apply {view base : ICoinsView T} {history undos : List (BlockUndo T)}
      {top top' : CoinsViewCache T} {block : Block T} {undo : BlockUndo T}
      (earlier : Runs crypto view history (.cache base top) undos)
      (applied : top.applyBlock crypto base block = .ok (undo, top')) :
      Runs crypto view history (.cache base top') (undo :: undos)
  | undo {view base : ICoinsView T} {history undos : List (BlockUndo T)}
      {top top' : CoinsViewCache T} {undo : BlockUndo T}
      (earlier : Runs crypto view history (.cache base top) (undo :: undos))
      (undone : top.undoBlock crypto base undo = .ok top') :
      Runs crypto view history (.cache base top') undos
  | child {view base base' : ICoinsView T} {history undos childUndos : List (BlockUndo T)}
      {top fresh child child' : CoinsViewCache T}
      (earlier : Runs crypto view history (.cache base top) undos)
      (created : (cache base top).newCache = some fresh)
      (ran : Runs crypto (.cache (.cache base top) fresh) undos (.cache (.cache base top) child)
        childUndos)
      (flushed : child.flush crypto (.cache base top) = .ok (base', child')) :
      Runs crypto view history base' (if child.header = none then undos else childUndos)

/-- Every view of a run stands for a state whose blocks can be undone. -/
theorem Runs.represents {view view' : ICoinsView T} {history undos : List (BlockUndo T)}
    (run : Runs crypto view history view' undos)
    (initial : ∃ state : ViewState crypto, Represents crypto view state ∧ Undoable state history) :
    ∃ state : ViewState crypto, Represents crypto view' state ∧ Undoable state undos := by
  induction run with
  | start view undos => exact initial
  | apply earlier applied ih =>
    obtain ⟨state, rep, undoable⟩ := ih initial
    obtain ⟨-, spent, after, body, fits, rfl, header, holds⟩ :=
      applyBlock_represents rep.toRepresentsSet applied
    exact ⟨after.under _ fits, ⟨holds, header⟩, state, _, _, _, _, body,
      by rw [← rep.header]; rfl, undoable⟩
  | undo earlier undone ih =>
    obtain ⟨state, rep, before, height, outputs, ids, spent, body, rfl, undoable⟩ := ih initial
    obtain ⟨_, restored, holds⟩ := undoBlock_represents rep.toRepresentsSet body
    rw [undone] at restored
    cases restored
    exact ⟨before, holds, undoable⟩
  | child earlier created ran flushed ih ran_ih =>
    obtain ⟨state, rep, undoable⟩ := ih initial
    obtain ⟨childState, childRep, childUndoable⟩ :=
      ran_ih ⟨state, newCache_represents rep created, undoable⟩
    split
    · rename_i unstarted
      rw [flush_of_unstarted unstarted] at flushed
      cases flushed
      exact ⟨state, rep, undoable⟩
    · rename_i started
      have takes := takesLeaves_cache rep.leaves childRep.toRepresentsSet
      obtain ⟨_, _, written, holds⟩ := flush_represents childRep started takes
      rw [flushed] at written
      cases written
      exact ⟨childState, holds, childUndoable⟩

/-- When a flush gives the view below the cache's answers: the cache has a best header and
the range below can take its leaves, or neither has a best header. -/
def FlushCarries (crypto : Crypto T) (base : ICoinsView T) (top : CoinsViewCache T) : Prop :=
  if top.header = none then base.getBestHeader = none else TakesLeaves crypto base top

/-- After any run, `Flush` gives the view below the cache's answers exactly then. -/
theorem flush_sameView_iff (free : crypto.outputMmr.CollisionFree T.zeroHash)
    {base : ICoinsView T} {fresh top : CoinsViewCache T} {history undos : List (BlockUndo T)}
    (initial : ∃ state : ViewState crypto, Represents crypto base state ∧ Undoable state history)
    (created : base.newCache = some fresh)
    (run : Runs crypto (.cache base fresh) history (.cache base top) undos) :
    ∃ base' top', top.flush crypto base = .ok (base', top') ∧
      (SameView crypto base' (.cache base top) ↔ FlushCarries crypto base top) := by
  obtain ⟨first, base_rep, undoable⟩ := initial
  obtain ⟨state, rep, -⟩ := run.represents ⟨first, newCache_represents base_rep created, undoable⟩
  rw [FlushCarries]
  split
  · rename_i unstarted
    refine ⟨base, top, flush_of_unstarted unstarted, ?_⟩
    constructor
    · intro same
      exact same.header.trans unstarted
    · -- neither has seen an extension block, so both are empty
      intro below
      have none_below := first.unstarted (base_rep.header.symm.trans below)
      have none_here := state.unstarted (rep.header.symm.trans unstarted)
      have sets : first.set = state.set := by
        rw [first.set.eq_empty none_below, state.set.eq_empty none_here]
      refine sameView_of_represents ⟨?_, ?_⟩ rep
      · rw [← sets]
        exact base_rep.toRepresentsSet
      · exact below.trans (unstarted.symm.trans rep.header)
  · rename_i started
    by_cases takes : TakesLeaves crypto base top
    · obtain ⟨base', top', flushed, holds⟩ := flush_represents rep started takes
      exact ⟨base', top', flushed, fun _ => takes, fun _ => sameView_of_represents holds rep⟩
    · cases base with
      | cache below middle =>
        exact absurd (takesLeaves_cache base_rep.leaves rep.toRepresentsSet) takes
      | db view =>
        obtain ⟨leafDB, written, -⟩ := flushTo_db rep.toRepresentsSet base_rep.leaves
        obtain ⟨header, best⟩ := Option.ne_none_iff_exists'.mp started
        refine ⟨_, _, by simp only [flush, best, written]; rfl, ?_, fun held => absurd held takes⟩
        intro same
        exact takesLeaves_of_root free base_rep.leaves rep.toRepresentsSet written same.root

theorem empty_undoable (crypto : Crypto T) :
    ∃ state : ViewState crypto, Represents crypto (.db (CoinsViewDB.empty T)) state ∧
      Undoable state [] :=
  ⟨ViewState.empty crypto, empty_represents crypto, trivial⟩

theorem takesLeaves_empty
    (rep : RepresentsSet crypto (.cache (.db (CoinsViewDB.empty T)) top) set) :
    TakesLeaves crypto (.db (CoinsViewDB.empty T)) top := by
  have under := (empty_represents crypto).leaves
  obtain ⟨below, added, under', first, -⟩ := rep.leaves
  obtain rfl := under.unique under'
  exact ⟨_, set.leaves, under, rep.leaves, .inl (Nat.le_zero.mp first)⟩

end MooncoinFormal.Mweb

namespace MooncoinFormal.Primitives.Numeric

open Mweb Mmr LeafSet Library.Checks

/-- The extension block's part of the cryptography without collisions. -/
abbrev idealMweb : Crypto types := (ideal []).toCrypto

def peginBody : TxBody types := ⟨[], [keptOutput], [peginKernel 20 (5, 0)]⟩

def peginBlock : Block types where
  header :=
    { height := 1
      outputRoot := rootOf idealMweb.outputMmr (0 : Nat) (peginBody.getOutputIDs idealMweb)
      kernelRoot := (kernelRoot idealMweb peginBody.kernels).getD (0 : Nat)
      leafsetRoot := idealMweb.hashLeafset (rootBytes (packBits fun i => decide (i = 0)) 1)
      kernelOffset := (0 : Int)
      stealthOffset := (0 : Int)
      numTXOs := 1
      numKernels := 1 }
  body := peginBody

theorem peginBlock_applied :
    ∃ undo top, emptyCache.applyBlock idealMweb emptyView peginBlock = .ok (undo, top) := by
  have succeeds : (emptyCache.applyBlock idealMweb emptyView peginBlock).isOk = true := by
    decide +kernel
  obtain ⟨⟨undo, top⟩, applied⟩ := exists_of_isOk succeeds
  exact ⟨undo, top, applied⟩

end MooncoinFormal.Primitives.Numeric

namespace MooncoinFormal.Mweb

open Primitives Numeric Mmr

/-- Once a first block was applied, the database is given the cache's answers. -/
theorem flush_firstBlock :
    ∃ undo top base' top',
      Runs idealMweb (.cache emptyView emptyCache) []
        (.cache emptyView top) [undo] ∧
      top.flush idealMweb emptyView = .ok (base', top') ∧
      SameView idealMweb base' (.cache emptyView top) := by
  obtain ⟨undo, top, applied⟩ := peginBlock_applied
  have run := Runs.apply (.start _ []) applied
  obtain ⟨-, spent, after, body, fits, rfl, header, holds⟩ :=
    applyBlock_represents (unstarted_represents idealMweb).toRepresentsSet applied
  obtain ⟨base', top', flushed, same⟩ :=
    flush_sameView_iff (ideal_collisionFree []).outputMmr (empty_undoable idealMweb)
      (newCache_empty types) run
  refine ⟨_, top, base', top', run, flushed, same.mpr ?_⟩
  rw [FlushCarries, if_neg (by rw [header]; exact Option.some_ne_none _)]
  exact takesLeaves_empty holds

/-- The first block is flushed to the database and undone in a new cache: the flush
of that cache returns early, and the database keeps the block. -/
theorem flush_keeps_undone_block :
    ∃ first flushed base fresh top undo,
      Runs mweb (.cache emptyView emptyCache) []
        (.cache emptyView first) [undo] ∧
      first.flush mweb emptyView = .ok (base, flushed) ∧
      base.newCache = some fresh ∧
      Runs mweb (.cache base fresh) [undo] (.cache base top) [] ∧
      top.flush mweb base = .ok (base, top) ∧
      base.getBestHeader = some firstBlock.header ∧
      (ICoinsView.cache base top).getBestHeader = none ∧
      ¬ SameView mweb base (.cache base top) := by
  obtain ⟨undo, first, ran⟩ := firstBlock_applied
  have start := unstarted_represents mweb
  obtain ⟨-, spent, after, body, fits, rfl, header, holds⟩ :=
    applyBlock_represents start.toRepresentsSet ran
  have started : first.header ≠ none := by rw [header]; exact Option.some_ne_none _
  have rep : Represents mweb (.cache emptyView first) (after.under _ fits) :=
    ⟨holds, header⟩
  obtain ⟨base, flushed, written, base_rep⟩ :=
    flush_represents rep started (takesLeaves_empty holds)
  obtain ⟨fresh, created⟩ : ∃ fresh, base.newCache = some fresh := by
    obtain ⟨created, -⟩ := PMMRCache.newCache_represents base_rep.leaves
    simp [ICoinsView.newCache, created]
  obtain ⟨top, undone, undone_rep⟩ := undoBlock_represents
    (newCache_represents base_rep created).toRepresentsSet body
  have unstarted : top.header = none := undone_rep.header
  refine ⟨first, flushed, base, fresh, top, _, .apply (.start _ []) ran, written, created,
    .undo (.start _ _) undone, flush_of_unstarted unstarted, base_rep.header, unstarted, ?_⟩
  intro same
  have absurd := base_rep.header.symm.trans (same.header.trans unstarted)
  cases absurd

end MooncoinFormal.Mweb
