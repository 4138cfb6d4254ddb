import MooncoinFormal.Primitives.Numeric
import MooncoinFormal.Wallet.Wallet

/-!
# Conflict and abandonment of descendants

`MarkConflicted` and `AbandonTransaction` walk from a transaction to the wallet
transactions that spend its outputs. For each output they go on to one spender only, the
first in `mapTxSpends`. An unconfirmed descendant is settled exactly when it is reached
that way.
-/

namespace MooncoinFormal.Wallet

open Primitives Library Relation List Option Prod

namespace CWallet

variable {T : CryptoTypes} (crypto : BlockCrypto T) (wallet : CWallet T)

def Unconfirmed (hash : T.Hash) : Prop :=
  ∃ wtx, wallet.mapWallet hash = some wtx ∧ wtx.confirm.status = .unconfirmed

/-- One transaction of the wallet spends an output of another. -/
def Spends (parent child : T.Hash) : Prop :=
  ∃ wtx, wallet.mapWallet parent = some wtx ∧
    ∃ index ∈ wtx.getOutputs crypto, child ∈ wallet.spenders index

/-- Unconfirmed transactions that spend an output, directly or through unconfirmed ones. -/
def Descends : T.Hash → T.Hash → Prop :=
  TransGen fun parent child => wallet.Spends crypto parent child ∧ wallet.Unconfirmed child

/-- No descendant is left unconfirmed. -/
def Settled (hashTx : T.Hash) (final : CWallet T) : Prop :=
  ∀ hash, wallet.Descends crypto hashTx hash → ¬ final.Unconfirmed hash

variable (verdict : Verdict T)

/-- Where a loop goes on from a transaction. -/
def visits (parent : T.Hash) : List T.Hash :=
  match wallet.mapWallet parent with
  | some wtx =>
    match verdict wtx with
    | some (some _) => wallet.firstSpenders crypto wtx
    | _ => []
  | none => []

/-- Every descendant is visited by the loop. -/
def Covered (hashTx : T.Hash) : Prop :=
  ∀ hash, wallet.Descends crypto hashTx hash →
    ReflTransGen (fun parent child => child ∈ wallet.visits crypto verdict parent) hashTx hash

/-- A verdict that changes every unconfirmed transaction, and leaves none. -/
structure Settling : Prop where
  changes : ∀ {wtx}, wtx.confirm.status = .unconfirmed → verdict wtx ≠ some none
  settles : ∀ {wtx confirm}, verdict wtx = some (some confirm) → confirm.status ≠ .unconfirmed

variable {crypto} {wallet} {verdict : Verdict T} {hash hashTx : T.Hash} {start final : CWallet T}

theorem mem_spenders {index : OutputIndex T} :
    hash ∈ wallet.spenders index ↔ (index, hash) ∈ wallet.mapTxSpends := by
  simp [spenders]

theorem visits_inside (hashTx parent : T.Hash) :
    wallet.visits crypto verdict parent ⊆ hashTx :: wallet.mapTxSpends.map snd := by
  intro child visited
  unfold visits at visited
  split at visited
  · split at visited
    · obtain ⟨index, -, first⟩ := mem_filterMap.mp visited
      have listed := mem_spenders.mp (mem_of_mem_head? first)
      exact mem_cons_of_mem _ (mem_map_of_mem listed)
    · cases visited
  · cases visited

theorem unconfirmed_setWtx {now : T.Hash} {wtx : CWalletTx T}
    (settled : wtx.confirm.status ≠ .unconfirmed) :
    (wallet.setWtx now wtx).Unconfirmed hash ↔ hash ≠ now ∧ wallet.Unconfirmed hash := by
  by_cases own : hash = now
  · rw [own, Unconfirmed, setWtx_self]
    simpa using settled
  · rw [Unconfirmed, setWtx_of_ne _ own]
    exact (and_iff_right own).symm

theorem unconfirmed_sweep (settling : Settling verdict) {todo done : List T.Hash} {fuel : Nat}
    (apart : Worklist.Apart todo done) (spends : wallet.mapTxSpends = start.mapTxSpends)
    (same : ∀ other ∉ done, wallet.mapWallet other = start.mapWallet other)
    (settled : ∀ other ∈ done, ¬ wallet.Unconfirmed other)
    (run : sweep crypto verdict fuel todo done wallet = some final) :
    final.Unconfirmed hash ↔ wallet.Unconfirmed hash ∧
      hash ∉ Worklist.close (start.visits crypto verdict) fuel todo done := by
  have finished : ∀ {wallet : CWallet T}
    {done : List T.Hash}, (∀ other ∈ done, ¬ wallet.Unconfirmed other) →
      (wallet.Unconfirmed hash ↔ wallet.Unconfirmed hash ∧ hash ∉ done) :=
    fun settled => ⟨fun unconfirmed => ⟨unconfirmed, fun visited => settled _ visited unconfirmed⟩,
      And.left⟩
  induction fuel generalizing todo done wallet with
  | zero =>
    obtain rfl : wallet = final := some.inj run
    exact finished settled
  | succ fuel ih =>
    cases todo with
    | nil =>
      obtain rfl : wallet = final := some.inj run
      exact finished settled
    | cons now todo =>
      simp only [sweep, bind_eq_bind, bind_eq_some_iff] at run
      obtain ⟨wtx, there, decision, decided, run⟩ := run
      have later : ∀ {other}, other ∉ now :: done → other ≠ now ∧ other ∉ done := fun absent =>
        not_or.mp (mt mem_cons.mpr absent)
      have next : start.visits crypto verdict now =
          (decision.map fun _ => wallet.firstSpenders crypto wtx).getD [] := by
        rw [visits, ← same now (apart.apart now mem_cons_self), there]
        dsimp only
        rw [decided]
        cases decision with
        | none => rfl
        | some confirm => simp only [firstSpenders, spenders, spends, map_some, getD_some]
      rw [Worklist.close, next]
      cases decision with
      | none =>
        -- Nothing is changed, so the transaction was not unconfirmed.
        refine ih (apart.visit []) spends (fun other absent => same other (later absent).2) ?_ run
        rintro other member ⟨wtx', there', unconfirmed⟩
        obtain rfl | earlier := mem_cons.mp member
        · rw [there] at there'
          obtain rfl := some.inj there'
          exact settling.changes unconfirmed decided
        · exact settled other earlier ⟨wtx', there', unconfirmed⟩
      | some confirm =>
        have changed : ∀ {other},
            (wallet.setWtx now { wtx with confirm := confirm }).Unconfirmed other ↔
            other ≠ now ∧ wallet.Unconfirmed other := unconfirmed_setWtx (settling.settles decided)
        have others : ∀ other ∉ now :: done,
            (wallet.setWtx now { wtx with confirm := confirm }).mapWallet other =
              start.mapWallet other :=
          fun other absent => (setWtx_of_ne _ (later absent).1).trans (same other (later absent).2)
        have settled' : ∀ other ∈ now :: done,
            ¬ (wallet.setWtx now { wtx with confirm := confirm }).Unconfirmed other := by
          intro other member unconfirmed
          obtain ⟨different, before⟩ := changed.mp unconfirmed
          exact settled other ((mem_cons.mp member).resolve_left different) before
        refine (@ih (wallet.setWtx now _) _ _ (apart.visit _) spends others settled' run).trans ?_
        rw [changed]
        refine and_congr_left fun absent => and_iff_right ?_
        rintro rfl
        exact absent (Worklist.subset_close mem_cons_self)

theorem settled_sweepFrom_iff (settling : Settling verdict)
    (run : start.sweepFrom crypto verdict hashTx = some final) :
    start.Settled crypto hashTx final ↔ start.Covered crypto verdict hashTx := by
  have apart : Worklist.Apart [hashTx] ([] : List T.Hash) := ⟨nodup_singleton _, fun _ _ => nofun⟩
  have enough : (hashTx :: start.mapTxSpends.map snd).length ≤
      start.mapTxSpends.length + 1 + ([] : List T.Hash).length := by simp
  obtain ⟨-, visited⟩ := Worklist.close_spec apart nodup_nil (by simp) (nil_subset _) nofun
    (fun item _ => @visits_inside _ crypto start verdict hashTx item) enough
  refine forall₂_congr fun hash descends => ?_
  have unconfirmed : start.Unconfirmed hash := by
    cases descends with
    | single step => exact step.2
    | tail _ step => exact step.2
  rw [unconfirmed_sweep settling apart rfl (fun _ _ => rfl) nofun run, visited]
  simp [unconfirmed]

theorem settling_conflictVerdict {hashBlock : T.Hash} {height : Int}
    (below : height ≤ wallet.lastBlockHeight) :
    Settling (wallet.conflictVerdict hashBlock height) := by
  constructor
  · intro wtx unconfirmed none
    have deep : wallet.conflictconfirms height < wallet.depth wtx.confirm := by
      rw [depth, unconfirmed, conflictconfirms]
      dsimp only
      omega
    rw [conflictVerdict, if_pos deep] at none
    cases none
  · intro wtx confirm decided
    unfold conflictVerdict at decided
    split at decided
    · obtain rfl := some.inj (some.inj decided)
      nofun
    · cases decided

theorem settling_abandonVerdict : Settling wallet.abandonVerdict := by
  constructor
  · intro wtx unconfirmed none
    have zero : wallet.depth wtx.confirm = 0 := by rw [depth, unconfirmed]
    rw [abandonVerdict, zero, if_neg (lt_irrefl 0),
      if_pos ⟨rfl, by rw [unconfirmed]; nofun⟩] at none
    split at none <;> cases none
  · intro wtx confirm decided
    unfold abandonVerdict at decided
    split at decided
    · cases decided
    · split at decided
      · split at decided
        · cases decided
        · obtain rfl := some.inj (some.inj decided)
          nofun
      · cases decided

/-- After a conflict with a block that is not above the tip, and after an abandonment, no
descendant is left unconfirmed exactly when each is reached through first spenders. -/
theorem settled_descendants_iff (crypto : BlockCrypto T) (wallet : CWallet T) (hashTx : T.Hash) :
    (∀ hashBlock height final, height ≤ wallet.lastBlockHeight →
      wallet.markConflicted crypto hashBlock height hashTx = some final →
      (wallet.Settled crypto hashTx final ↔
        wallet.Covered crypto (wallet.conflictVerdict hashBlock height) hashTx)) ∧
    ∀ final, wallet.abandonTransaction crypto hashTx = some (true, final) →
      (wallet.Settled crypto hashTx final ↔
        wallet.Covered crypto wallet.abandonVerdict hashTx) := by
  constructor
  · intro hashBlock height final below run
    have known : ¬ 0 ≤ wallet.conflictconfirms height := by
      rw [conflictconfirms]
      omega
    rw [markConflicted, if_neg known] at run
    exact settled_sweepFrom_iff (settling_conflictVerdict below) run
  · intro final run
    simp only [abandonTransaction, bind_eq_bind, bind_eq_some_iff] at run
    obtain ⟨origtx, -, run⟩ := run
    split at run
    · cases run
    · obtain ⟨abandoned, swept, result⟩ := bind_eq_some_iff.mp run
      obtain rfl : abandoned = final := (Prod.mk.inj (some.inj result)).2
      exact settled_sweepFrom_iff settling_abandonVerdict swept

/-- A transaction and two that spend its output, the second in place of the first. -/
def sampleTxs : List (CTransaction Numeric.types) :=
  let tx (prevout : COutPoint Numeric.types) (nSequence : UInt32) : CTransaction Numeric.types :=
    ⟨[⟨prevout, [], nSequence, []⟩], [⟨5, []⟩], 2, 0, none, false⟩
  let parent := tx ⟨(7 : Nat), 0⟩ 0
  let output := ⟨parent.getHash Numeric.crypto, 0⟩
  [parent, tx output 1, tx output 2]

def sampleHashes : List Nat := sampleTxs.map (CTransaction.getHash Numeric.crypto)

def walletOf (txs : List (CTransaction Numeric.types)) : CWallet Numeric.types :=
  txs.foldl (fun wallet tx => wallet.addToWallet Numeric.crypto tx none (.without .unconfirmed))
    empty

def sampleWallet : CWallet Numeric.types := walletOf sampleTxs

def sampleStatuses (wallet : CWallet Numeric.types) : List (Option Status) :=
  sampleHashes.map fun hash => (wallet.mapWallet hash).map fun wtx => wtx.confirm.status

/-- The second spender stays unconfirmed. -/
theorem second_spender_unconfirmed :
    (sampleWallet.markConflicted Numeric.crypto (9 : Nat) 0 (sampleHashes.headD 0)).map
        sampleStatuses =
      some [some .conflicted, some .conflicted, some .unconfirmed] ∧
    (sampleWallet.abandonTransaction Numeric.crypto (sampleHashes.headD 0)).map
        (map id sampleStatuses) =
      some (true, [some .abandoned, some .abandoned, some .unconfirmed]) := by
  decide +kernel

/-- The same without the second spender. -/
def chainWallet : CWallet Numeric.types := walletOf (sampleTxs.take 2)

/-- Every descendant is a first spender and is settled. -/
theorem first_spender_settled :
    ∃ final, chainWallet.markConflicted Numeric.crypto (9 : Nat) 0
      (sampleHashes.headD 0) = some final ∧
      chainWallet.Settled Numeric.crypto (sampleHashes.headD 0) final := by
  have runs : (chainWallet.markConflicted Numeric.crypto (9 : Nat) 0
    (sampleHashes.headD 0)).isSome = true := by decide +kernel
  obtain ⟨final, run⟩ := isSome_iff_exists.mp runs
  refine ⟨final, run, ((settled_descendants_iff _ _ _).1 _ _ _ (by decide) run).mpr ?_⟩
  intro hash descends
  obtain ⟨parent, -, ⟨_, -, _, -, spends⟩, -⟩ := TransGen.tail'_iff.mp descends
  have visited : ∀ child ∈ chainWallet.mapTxSpends.map snd, child = sampleHashes.headD 0 ∨
      child ∈ chainWallet.visits Numeric.crypto (chainWallet.conflictVerdict (9 : Nat) 0)
        (sampleHashes.headD 0) := by decide +kernel
  obtain rfl | first := visited hash (mem_map_of_mem (mem_spenders.mp spends))
  · exact .refl
  · exact .single first

end CWallet

end MooncoinFormal.Wallet
