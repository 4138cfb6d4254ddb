import MooncoinFormal.Coins.Update

/-!
# Entries that a transaction does not touch

The cache keeps its entries at all outpoints that a transaction neither spends nor
creates, and has an entry for every output that was added. What lies below the cache
and the coins of the extension block stay as they are. Nothing here asks for a coherent
cache.
-/

namespace MooncoinFormal.Coins

open Primitives Library.Checks List UInt32

variable {T : CryptoTypes} {vout : List CTxOut} {txid : T.Hash}

/-- The indices of outputs are different while they fit into 32 bits. -/
theorem index_not_mem_createdFrom {i j : Nat} (before : i < j) (fits : j + vout.length ≤ 2 ^ 32) :
    ⟨txid, ofNat i⟩ ∉ createdFrom txid j vout := by
  induction vout generalizing j with
  | nil => exact nofun
  | cons txout rest ih =>
    rw [length_cons] at fits
    have later := ih (Nat.lt_succ_of_lt before) (by omega)
    rw [createdFrom]
    split
    · exact later
    · intro member
      rcases mem_cons.mp member with same | inside
      · have index := congrArg (fun outpoint => outpoint.n.toNat) same
        simp only [toNat_ofNat'] at index
        omega
      · exact later inside

theorem mem_createdFrom_of_getElem? {i n : Nat} {txout : CTxOut} (at_ : vout[n]? = some txout)
    (spendable : txout.scriptPubKey.isUnspendable = false) :
    ⟨txid, ofNat (i + n)⟩ ∈ createdFrom txid i vout := by
  induction vout generalizing i n with
  | nil => cases at_
  | cons first rest ih =>
    cases n with
    | zero =>
      cases at_
      exact mem_createdFrom spendable
    | succ n =>
      have inside := @ih (i + 1) n at_
      rw [add_right_comm, add_assoc] at inside
      exact createdFrom_subset inside

namespace CCoinsViewCache

variable {view view' : CCoinsViewCache T} {outpoint other : COutPoint T} {moved : Option Coin}

/-- The second view has the base, the extension block coins and the best block of the
first. -/
structure SameBelow (view view' : CCoinsViewCache T) : Prop where
  base : view'.base = view.base
  mwebView : view'.mwebView = view.mwebView
  hashBlock : view'.hashBlock = view.hashBlock

theorem SameBelow.trans {view'' : CCoinsViewCache T} (first : view.SameBelow view')
    (second : view'.SameBelow view'') : view.SameBelow view'' :=
  ⟨second.base.trans first.base, second.mwebView.trans first.mwebView,
    second.hashBlock.trans first.hashBlock⟩

/-- It also has the entries of the first at all outpoints that are not touched. -/
structure Untouched (touched : List (COutPoint T)) (view view' : CCoinsViewCache T) : Prop
    extends SameBelow view view' where
  entries : ∀ other, other ∉ touched → view'.cacheCoins other = view.cacheCoins other

variable {outpoints : List (COutPoint T)} {vprevout : List Coin}

theorem Untouched.refl (view : CCoinsViewCache T) : Untouched [] view view :=
  ⟨⟨rfl, rfl, rfl⟩, fun _ _ => rfl⟩

theorem Untouched.trans {touched touched' : List (COutPoint T)} {view'' : CCoinsViewCache T}
    (first : Untouched touched view view') (second : Untouched touched' view' view'') :
    Untouched (touched ++ touched') view view'' := by
  refine ⟨first.toSameBelow.trans second.toSameBelow, fun other absent => ?_⟩
  rw [mem_append, not_or] at absent
  rw [second.entries other absent.2, first.entries other absent.1]

theorem untouched_setEntry (view : CCoinsViewCache T) (outpoint : COutPoint T)
    (entry : Option CCoinsCacheEntry) : Untouched [outpoint] view (view.setEntry outpoint entry) :=
  ⟨⟨rfl, rfl, rfl⟩, fun _ absent => cacheCoins_setEntry_of_ne _ _ (mt mem_singleton.mpr absent)⟩

theorem untouched_spendCoin
    (spent : view.spendCoin outpoint = some (moved, view')) : Untouched [outpoint] view view' := by
  rcases (spendCoin_cases spent).2 with ⟨-, -, -, rfl⟩ | ⟨-, rfl⟩ <;> exact untouched_setEntry _ _ _

theorem untouched_spendInputs
    (spent : view.spendInputs outpoints = .ok (vprevout, view')) :
    Untouched outpoints view view' := by
  induction outpoints generalizing view vprevout with
  | nil =>
    cases spent
    exact .refl _
  | cons outpoint rest ih =>
    obtain ⟨moved, middle, later, first, spentRest, -⟩ := spendInputs_cons spent
    exact (untouched_spendCoin first).trans (ih spentRest)

variable {fCoinbase hogEx : Bool} {nHeight i : Nat}

theorem untouched_addOutputs
    (added : addOutputs txid fCoinbase hogEx nHeight view i vout = .ok view') :
    Untouched (createdFrom txid i vout) view view' := by
  induction vout generalizing view i with
  | nil =>
    cases added
    exact .refl _
  | cons txout rest ih =>
    simp only [addOutputs, bind_eq_ok] at added
    obtain ⟨middle, first, later⟩ := added
    rw [createdFrom]
    rcases (addCoin_eq_ok.mp first).2 with ⟨unspendable, rfl⟩ | ⟨spendable, -, rfl⟩
    · rw [if_pos (by exact unspendable)]
      exact ih later
    · rw [if_neg (by exact Bool.eq_false_iff.mp spendable)]
      exact (untouched_setEntry _ _ _).trans (ih later)

/-- No output of a transaction that is not the coinbase lands on a cached coin. -/
theorem not_mem_createdFrom_of_entry {hogEx : Bool} {entry : CCoinsCacheEntry}
    (cached : view.cacheCoins other = some entry) (unspent : entry.coin ≠ none)
    (added : addOutputs txid false hogEx nHeight view i vout = .ok view') :
    other ∉ createdFrom txid i vout := by
  induction vout generalizing view i with
  | nil => exact nofun
  | cons txout rest ih =>
    simp only [addOutputs, bind_eq_ok] at added
    obtain ⟨middle, first, later⟩ := added
    rcases (addCoin_eq_ok.mp first).2 with ⟨unspendable, rfl⟩ | ⟨spendable, free, rfl⟩
    · have skip : txout.scriptPubKey.isUnspendable = true := unspendable
      rw [createdFrom, skip, if_pos rfl]
      exact ih cached later
    · have kept : txout.scriptPubKey.isUnspendable = false := spendable
      have differ : other ≠ ⟨txid, ofNat i⟩ := by
        rintro rfl
        have empty := free rfl
        rw [entryFor, cached] at empty
        exact unspent empty
      rw [createdFrom, kept, if_neg Bool.false_ne_true, mem_cons, not_or]
      exact ⟨differ, ih (by rw [cacheCoins_setEntry_of_ne _ _ differ, cached]) later⟩

/-- Every output that can be spent has its coin in the cache after it was added. -/
theorem entry_of_addOutputs {nHeight i n : Nat} {txout : CTxOut}
    (fits : i + vout.length ≤ 2 ^ 32) (at_ : vout[n]? = some txout)
    (spendable : txout.scriptPubKey.isUnspendable = false)
    (added : addOutputs txid fCoinbase hogEx nHeight view i vout = .ok view') :
    ∃ entry, view'.cacheCoins ⟨txid, ofNat (i + n)⟩ = some entry ∧
      entry.coin = some (newCoin fCoinbase hogEx nHeight (i + n) txout) := by
  induction vout generalizing view i n with
  | nil => cases at_
  | cons first rest ih =>
    rw [length_cons] at fits
    simp only [addOutputs, bind_eq_ok] at added
    obtain ⟨middle, here, later⟩ := added
    cases n with
    | zero =>
      cases at_
      rcases (addCoin_eq_ok.mp here).2 with ⟨unspendable, -⟩ | ⟨-, -, rfl⟩
      · exact absurd (spendable.symm.trans unspendable) Bool.false_ne_true
      · rw [(untouched_addOutputs later).entries _ (index_not_mem_createdFrom (by omega)
          (by omega))]
        exact ⟨_, cacheCoins_setEntry_self _, rfl⟩
    | succ n =>
      have found := @ih middle (i + 1) n (by omega) at_ later
      rwa [add_right_comm, add_assoc] at found

/-! ## Whole transactions -/

variable {crypto : BlockCrypto T} {tx : CTransaction T} {nHeight : Nat} {vprevout : List Coin}

theorem untouched_updateCoins (plain : tx.mwebTx = none)
    (updated : view.updateCoins crypto tx nHeight = .ok (vprevout, view')) :
    Untouched (spentOutPoints tx ++ createdOutPoints crypto tx) view view' := by
  obtain ⟨middle, spent, added⟩ := (updateCoins_eq_ok plain).mp updated
  exact (untouched_spendInputs spent).trans (untouched_addOutputs added)

end CCoinsViewCache

end MooncoinFormal.Coins
