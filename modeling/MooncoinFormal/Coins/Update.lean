import MooncoinFormal.Coins.View

/-!
# What a transaction does to the coins

`AddCoins` and `UpdateCoins`: a transaction takes the coins that it spends off the
map and puts its own outputs on it. The spent coins are kept, in the order of the
inputs, to undo the transaction later.
-/

namespace MooncoinFormal.Coins

open Primitives Library.Checks List UInt32

variable {T : CryptoTypes}

/-- The outpoints a transaction spends; the input of a coinbase spends nothing. -/
def spentOutPoints (tx : CTransaction T) : List (COutPoint T) :=
  if tx.isCoinBase then [] else tx.vin.map CTxIn.prevout

/-- The outpoints of outputs that are added, from an index on. -/
def createdFrom (txid : T.Hash) : (i : Nat) → List CTxOut → List (COutPoint T)
  | _, [] => []
  | i, txout :: rest =>
    if txout.scriptPubKey.isUnspendable then createdFrom txid (i + 1) rest
    else ⟨txid, ofNat i⟩ :: createdFrom txid (i + 1) rest

def createdOutPoints (crypto : BlockCrypto T) (tx : CTransaction T) : List (COutPoint T) :=
  createdFrom (tx.getHash crypto) 0 tx.vout

variable {txid : T.Hash} {nHeight : Nat} {vprevout : List Coin} {rest : List CTxOut}

theorem mem_createdFrom {i : Nat} {txout : CTxOut}
    (spendable : txout.scriptPubKey.isUnspendable = false) :
    ⟨txid, ofNat i⟩ ∈ createdFrom txid i (txout :: rest) := by
  simp [createdFrom, spendable]

theorem createdFrom_subset {i : Nat} {txout : CTxOut} :
    createdFrom txid (i + 1) rest ⊆ createdFrom txid i (txout :: rest) := by
  intro outpoint member
  rw [createdFrom]
  split
  · exact member
  · exact mem_cons_of_mem _ member

variable (view : CCoinsViewCache T) {tx : CTransaction T}

namespace CCoinsViewCache

/-- The loop of `UpdateCoins` over the inputs. -/
def spendInputs : CCoinsViewCache T → List (COutPoint T) →
    Except CoinsError (List Coin × CCoinsViewCache T)
  | view, [] => .ok ([], view)
  | view, outpoint :: rest =>
    match view.spendCoin outpoint with
    | none => .error .assertion
    | some (moved, view) => do
        let (vprevout, view) ← view.spendInputs rest
        .ok (moved.getD Coin.cleared :: vprevout, view)

/-- The coin that the output at an index becomes. The first output of a HogEx is
not subject to the maturity of peg-outs. -/
def newCoin (fCoinbase hogEx : Bool) (nHeight i : Nat) (txout : CTxOut) : Coin :=
  ⟨txout, fCoinbase, BitVec.ofNat 31 nHeight, hogEx && decide (0 < i)⟩

/-- The loop of `AddCoins`. -/
def addOutputs (txid : T.Hash) (fCoinbase hogEx : Bool) (nHeight : Nat) :
    CCoinsViewCache T → (i : Nat) → List CTxOut → Except CoinsError (CCoinsViewCache T)
  | view, _, [] => .ok view
  | view, i, txout :: rest => do
      let view ← view.addCoin ⟨txid, ofNat i⟩ (newCoin fCoinbase hogEx nHeight i txout) fCoinbase
      addOutputs txid fCoinbase hogEx nHeight view (i + 1) rest

variable (crypto : BlockCrypto T)

def addCoins (view : CCoinsViewCache T) (tx : CTransaction T) (nHeight : Nat) :
    Except CoinsError (CCoinsViewCache T) :=
  addOutputs (tx.getHash crypto) tx.isCoinBase tx.isHogEx nHeight view 0 tx.vout

/-- The height that coins of the extension block have while they are in the mempool. -/
def mempoolHeight : Int32 := 0x7fffffff

def addMwebTx (view : CCoinsViewCache T) (tx : CTransaction T) :
    Except CoinsError (CCoinsViewCache T) :=
  match tx.mwebTx with
  | none => .ok view
  | some mwebTx =>
    let base := view.base.mwebView
    match (do
      let added ← Mweb.CoinsViewCache.addOutputs crypto.toCrypto base mempoolHeight view.mwebView
        mwebTx.body.outputs
      Mweb.CoinsViewCache.spendInputs base added mwebTx.body.getSpentIDs) with
    | .ok (_, top) => .ok { view with mwebView := top }
    | .error error => .error (.mweb error)

/-- `UpdateCoins`, with the coins for the undo data. -/
def updateCoins (view : CCoinsViewCache T) (tx : CTransaction T) (nHeight : Nat) :
    Except CoinsError (List Coin × CCoinsViewCache T) := do
  let (vprevout, view) ← view.spendInputs (spentOutPoints tx)
  let view ← view.addCoins crypto tx nHeight
  let view ← view.addMwebTx crypto tx
  .ok (vprevout, view)

/-! ## What the loops do to the map -/

section Loops

variable {crypto} {view view' : CCoinsViewCache T}

theorem spendInputs_cons {outpoint : COutPoint T} {rest : List (COutPoint T)}
    (spent : view.spendInputs (outpoint :: rest) = .ok (vprevout, view')) :
    ∃ moved middle later, view.spendCoin outpoint = some (moved, middle) ∧
      middle.spendInputs rest = .ok (later, view') ∧
      moved.getD Coin.cleared :: later = vprevout := by
  rw [CCoinsViewCache.spendInputs] at spent
  cases first : view.spendCoin outpoint with
  | none => simp [first] at spent
  | some result =>
    obtain ⟨moved, middle⟩ := result
    simp only [first, bind_eq_ok, Prod.exists, Except.ok.injEq, Prod.mk.injEq] at spent
    obtain ⟨later, after, spentRest, same, rfl⟩ := spent
    exact ⟨moved, middle, later, rfl, spentRest, same⟩

theorem Coherent.spendInputs (coherent : view.Coherent) {outpoints : List (COutPoint T)}
    (nodup : outpoints.Nodup) (spent : view.spendInputs outpoints = .ok (vprevout, view')) :
    vprevout = outpoints.map (fun outpoint => (view.getCoin outpoint).getD Coin.cleared) ∧
      view.Follows view' ∧
      ∀ other, view'.getCoin other = if other ∈ outpoints then none else view.getCoin other := by
  induction outpoints generalizing view vprevout with
  | nil =>
    cases spent
    exact ⟨rfl, Follows.refl coherent, fun other => by simp⟩
  | cons outpoint rest ih =>
    obtain ⟨moved, middle, later, first, spentRest, rfl⟩ := spendInputs_cons spent
    obtain ⟨rfl, follows, map⟩ := coherent.spendCoin first
    obtain ⟨absent, nodup⟩ := nodup_cons.mp nodup
    obtain ⟨rfl, followsRest, mapRest⟩ := ih follows.coherent nodup spentRest
    refine ⟨?_, follows.trans followsRest, fun other => ?_⟩
    · rw [map_cons]
      congr 1
      refine map_congr_left fun place member => ?_
      rw [map, if_neg (fun same : place = outpoint => absent (same ▸ member))]
    · rw [mapRest, map]
      by_cases inRest : other ∈ rest
      · rw [if_pos inRest, if_pos (mem_cons_of_mem _ inRest)]
      · rw [if_neg inRest]
        by_cases same : other = outpoint <;> simp [same, inRest]

/-- Added outputs were not on the map before, unless they may overwrite, and a coin on
the map after them was there before or is one of them. -/
theorem Coherent.addOutputs (coherent : view.Coherent) {fCoinbase hogEx : Bool} {i : Nat}
    {vout : List CTxOut} (height : BitVec.ofNat 31 nHeight ≠ 0)
    (allowed : fCoinbase = true ∨ ∀ outpoint ∈ createdFrom txid i vout, view.Covers outpoint)
    (added : addOutputs txid fCoinbase hogEx nHeight view i vout = .ok view') :
    view.Follows view' ∧
      (∀ other, other ∉ createdFrom txid i vout → view'.getCoin other = view.getCoin other) ∧
      (fCoinbase = false → ∀ other ∈ createdFrom txid i vout, view.getCoin other = none) ∧
      ∀ other coin, view'.getCoin other = some coin → view.getCoin other = some coin ∨
        ∃ n txout, vout[n]? = some txout ∧ other = ⟨txid, ofNat (i + n)⟩ ∧
          coin = newCoin fCoinbase hogEx nHeight (i + n) txout := by
  induction vout generalizing view i with
  | nil =>
    cases added
    exact ⟨Follows.refl coherent, fun _ _ => rfl, fun _ => nofun, fun _ _ => .inl⟩
  | cons txout rest ih =>
    simp only [CCoinsViewCache.addOutputs, bind_eq_ok] at added
    obtain ⟨middle, first, later⟩ := added
    have height' : (newCoin fCoinbase hogEx nHeight i txout).nHeight ≠ 0 := height
    obtain ⟨follows, map, fresh⟩ := coherent.addCoin height'
      (fun spendable => allowed.imp_right fun covers => covers _ (mem_createdFrom spendable)) first
    obtain ⟨followsRest, mapRest, freshRest, originRest⟩ := ih follows.coherent
      (allowed.imp_right fun covers outpoint member =>
        follows.covers _ (covers outpoint (createdFrom_subset member))) later
    refine ⟨follows.trans followsRest, fun other absent => ?_, fun plain other member => ?_,
      fun other coin found => ?_⟩
    · rw [mapRest other fun member => absent (createdFrom_subset member), map, if_neg]
      rintro ⟨rfl, spendable⟩
      exact absent (mem_createdFrom spendable)
    · rw [createdFrom] at member
      have later : other ∈ createdFrom txid (i + 1) rest → view.getCoin other = none := by
        intro inRest
        have none := freshRest plain other inRest
        rw [map] at none
        split at none
        · cases none
        · exact none
      split at member
      · exact later member
      · rename_i spendable
        rcases mem_cons.mp member with rfl | inRest
        · exact fresh plain (Bool.eq_false_iff.mpr spendable)
        · exact later inRest
    · rcases originRest other coin found with before | ⟨n, out, at_, rfl, rfl⟩
      · rw [map] at before
        split at before
        · rename_i here
          cases before
          exact .inr ⟨0, txout, rfl, here.1, rfl⟩
        · exact .inl before
      · exact .inr ⟨n + 1, out, by simpa using at_, by rw [add_assoc, add_comm 1],
          by rw [add_assoc, add_comm 1]⟩

/-- The coin is the one that the transaction makes at the outpoint. -/
def Makes (crypto : BlockCrypto T) (tx : CTransaction T) (nHeight : Nat) (outpoint : COutPoint T)
    (coin : Coin) : Prop :=
  ∃ n txout, tx.vout[n]? = some txout ∧ outpoint = ⟨tx.getHash crypto, ofNat n⟩ ∧
    coin = newCoin tx.isCoinBase tx.isHogEx nHeight n txout

/-- What a transaction does to the map. -/
structure Updates (crypto : BlockCrypto T) (tx : CTransaction T) (nHeight : Nat)
    (view view' : CCoinsViewCache T) : Prop where
  follows : view.Follows view'
  map : ∀ other, other ∉ createdOutPoints crypto tx →
    view'.getCoin other = if other ∈ spentOutPoints tx then none else view.getCoin other
  fresh : tx.isCoinBase = false → ∀ other ∈ createdOutPoints crypto tx, other ∉ spentOutPoints tx →
    view.getCoin other = none
  origin : ∀ other coin, view'.getCoin other = some coin →
    view.getCoin other = some coin ∨ Makes crypto tx nHeight other coin

/-- The two loops of a transaction that carries no extension block data. -/
theorem updateCoins_eq_ok (plain : tx.mwebTx = none) :
    view.updateCoins crypto tx nHeight = .ok (vprevout, view') ↔
      ∃ middle, view.spendInputs (spentOutPoints tx) = .ok (vprevout, middle) ∧
        addOutputs (tx.getHash crypto) tx.isCoinBase tx.isHogEx nHeight middle 0 tx.vout =
          .ok view' := by
  simp only [updateCoins, bind_eq_ok, Prod.exists, addMwebTx, plain, Except.ok.injEq, Prod.mk.injEq,
    exists_eq_left', addCoins]
  constructor
  · rintro ⟨undo, middle, spent, after, added, rfl, rfl⟩
    exact ⟨middle, spent, added⟩
  · rintro ⟨middle, spent, added⟩
    exact ⟨_, middle, spent, _, added, rfl, rfl⟩

/-- `UpdateCoins` keeps the coins it spends for the undo data. -/
theorem Coherent.updateCoins (coherent : view.Coherent)
    (height : BitVec.ofNat 31 nHeight ≠ 0) (plain : tx.mwebTx = none)
    (nodup : (spentOutPoints tx).Nodup)
    (allowed : tx.isCoinBase = true ∨ ∀ outpoint ∈ createdOutPoints crypto tx, view.Covers outpoint)
    (updated : view.updateCoins crypto tx nHeight = .ok (vprevout, view')) :
    vprevout = (spentOutPoints tx).map (fun outpoint => (view.getCoin outpoint).getD Coin.cleared) ∧
      Updates crypto tx nHeight view view' := by
  obtain ⟨middle, spent, added⟩ := (updateCoins_eq_ok plain).mp updated
  obtain ⟨rfl, follows, map⟩ := coherent.spendInputs nodup spent
  have allowed' := allowed.imp_right fun covers outpoint member =>
    follows.covers _ (covers outpoint member)
  obtain ⟨followsAdd, mapAdd, fresh, origin⟩ := follows.coherent.addOutputs height allowed' added
  refine ⟨rfl, follows.trans followsAdd, fun other absent => ?_,
    fun regular other member kept => ?_, fun other coin found => ?_⟩
  · rw [mapAdd other absent, map]
  · have none := fresh regular other member
    rwa [map, if_neg kept] at none
  · rcases origin other coin found with before | made
    · rw [map] at before
      split at before
      · cases before
      · exact .inl before
    · simp only [zero_add] at made
      exact .inr made

end Loops

end CCoinsViewCache

end MooncoinFormal.Coins
