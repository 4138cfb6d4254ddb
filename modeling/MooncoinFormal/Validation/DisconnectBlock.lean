import MooncoinFormal.Mweb.Undo
import MooncoinFormal.Validation.ConnectBlock

/-!
# Disconnecting a block

`DisconnectBlock` of `validation.cpp`: the transactions are undone from the last to
the first. Outputs are taken off the map again, and the coins that were spent come
back from the undo data.
-/

namespace MooncoinFormal.Validation

open Primitives Coins Library.Checks CCoinsViewCache List UInt32 Except

variable {T : CryptoTypes}

/-- `DISCONNECT_FAILED`, or a failed assertion of the coins code. -/
inductive DisconnectError where
  | failed
  | assertion

abbrev Disconnected (T : CryptoTypes) := Except DisconnectError (Bool × CCoinsViewCache T)

/-! ## One transaction -/

def maxOutputsPerBlock : Nat := CBlock.maxBlockWeight / (CBlock.witnessScaleFactor * 9)

variable (view : CCoinsViewCache T)

/-- `AccessByTxid`: some unspent output of the transaction. -/
def accessByTxid (txid : T.Hash) : Option Coin :=
  (range maxOutputsPerBlock).findSome? fun n => view.getCoin ⟨txid, ofNat n⟩

/-- Old undo data has the metadata of a coin only for the last spend of the
outputs of a transaction. -/
def withMetadata (out : COutPoint T) (undo : Coin) : Except DisconnectError Coin :=
  if undo.nHeight = 0 then
    match accessByTxid view out.hash with
    | some alternate =>
      .ok { undo with nHeight := alternate.nHeight, fCoinBase := alternate.fCoinBase }
    | none => .error .failed
  else .ok undo

def orThrow {α : Type} : Except CoinsError α → Except DisconnectError α
  | .ok value => .ok value
  | .error _ => .error .assertion

/-- `ApplyTxInUndo`: whether it was clean, and the view. -/
def applyTxInUndo (out : COutPoint T) (undo : Coin) : Disconnected T := do
  let undo ← withMetadata view out undo
  let after ← orThrow (view.addCoin out undo (view.haveCoin out))
  .ok (!view.haveCoin out, after)

/-- The output in the block is the one that was taken off the map. -/
def matchesOutput (nHeight : Nat) (fCoinbase : Bool) (txout : CTxOut)
    (moved : Option Coin) : Bool :=
  let coin := moved.getD Coin.cleared
  decide (txout = coin.out) && decide (nHeight = coin.nHeight.toNat) &&
    decide (fCoinbase = coin.fCoinBase)

/-- The loop over the outputs of a transaction, from an index on. -/
def removeOutputs (txid : T.Hash) (fCoinbase : Bool) (nHeight : Nat) :
    CCoinsViewCache T → (i : Nat) → List CTxOut → Bool × CCoinsViewCache T
  | view, _, [] => (true, view)
  | view, i, txout :: rest =>
    if txout.scriptPubKey.isUnspendable then removeOutputs txid fCoinbase nHeight view (i + 1) rest
    else
      match view.spendCoin ⟨txid, ofNat i⟩ with
      | none => (false, (removeOutputs txid fCoinbase nHeight view (i + 1) rest).2)
      | some (moved, view) =>
        let (fClean, view) := removeOutputs txid fCoinbase nHeight view (i + 1) rest
        (fClean && matchesOutput nHeight fCoinbase txout moved, view)

/-- The loop over the inputs of a transaction, the last one first. -/
def restoreInputs : CCoinsViewCache T → List (COutPoint T × Coin) → Disconnected T
  | view, [] => .ok (true, view)
  | view, (out, undo) :: rest => do
      let (later, view) ← restoreInputs view rest
      let (fClean, view) ← applyTxInUndo view out undo
      .ok (later && fClean, view)

variable (crypto : BlockCrypto T)

/-- One turn of the loop over the transactions; the first one has no undo data. -/
def disconnectTx (nHeight : Nat) (view : CCoinsViewCache T) (tx : CTransaction T)
    (txundo : Option (List Coin)) : Disconnected T :=
  let removed := removeOutputs (tx.getHash crypto) tx.isCoinBase nHeight view 0 tx.vout
  match txundo with
  | none => .ok removed
  | some vprevout => do
      ensure (vprevout.length = tx.vin.length) .failed
      let (fClean, view) ← restoreInputs removed.2 ((tx.vin.map CTxIn.prevout).zip vprevout)
      .ok (removed.1 && fClean, view)

def disconnectTxs (nHeight : Nat) :
    CCoinsViewCache T → List (CTransaction T × Option (List Coin)) → Disconnected T
  | view, [] => .ok (true, view)
  | view, (tx, txundo) :: rest => do
      let (later, view) ← disconnectTxs nHeight view rest
      let (fClean, view) ← disconnectTx crypto nHeight view tx txundo
      .ok (later && fClean, view)

/-- `UndoBlock` on the view of the extension block. -/
def disconnectMweb (view : CCoinsViewCache T) (mwundo : Option (Mweb.BlockUndo T)) :
    Except DisconnectError (CCoinsViewCache T) :=
  match mwundo with
  | none => .ok view
  | some mwundo =>
    match view.mwebView.undoBlock crypto.toCrypto view.base.mwebView mwundo with
    | .ok mwebView => .ok { view with mwebView := mwebView }
    | .error _ => .error .failed

/-- `DisconnectBlock` with what was read from the undo file; the flag tells
`DISCONNECT_OK` from `DISCONNECT_UNCLEAN`. -/
def Connection.disconnectBlock (connection : Connection T) (view : CCoinsViewCache T)
    (block : CBlock T) (read : Option (CBlockUndo T)) : Disconnected T :=
  match read with
  | none => .error .failed
  | some blockUndo => do
      ensure (blockUndo.vtxundo.length + 1 = block.vtx.length) .failed
      let (fClean, view) ← disconnectTxs connection.crypto connection.chain.nextHeight view
        (block.vtx.zip (none :: blockUndo.vtxundo.map some))
      let view ← disconnectMweb connection.crypto view blockUndo.mwundo
      .ok (fClean, { view with hashBlock := connection.hashPrevBlock })

/-! ## What the loops do to the map -/

section Loops

variable {crypto} {view after : CCoinsViewCache T}

theorem removeOutputs_spec (coherent : view.Coherent) (txid : T.Hash) (fCoinbase : Bool)
    (nHeight i : Nat) (vout : List CTxOut) :
    view.Follows (removeOutputs txid fCoinbase nHeight view i vout).2 ∧
      ∀ other, (removeOutputs txid fCoinbase nHeight view i vout).2.getCoin other =
        if other ∈ createdFrom txid i vout then none else view.getCoin other := by
  induction vout generalizing view i with
  | nil => exact ⟨CCoinsViewCache.Follows.refl coherent, fun other => by
    simp [createdFrom, removeOutputs]⟩
  | cons txout rest ih =>
    rw [removeOutputs, createdFrom]
    split
    · exact ih coherent (i + 1)
    cases spent : view.spendCoin ⟨txid, ofNat i⟩ with
    | none =>
      obtain ⟨follows, map⟩ := ih coherent (i + 1)
      refine ⟨follows, fun other => ?_⟩
      have unknown : view.getCoin ⟨txid, ofNat i⟩ = none := by
        cases found : view.getCoin ⟨txid, ofNat i⟩ with
        | none => rfl
        | some coin =>
          obtain ⟨_, here⟩ := spendCoin_of_getCoin found
          rw [spent] at here
          cases here
      rw [map]
      by_cases same : other = ⟨txid, ofNat i⟩
      · simp [same, unknown]
      · simp [same]
    | some result =>
      obtain ⟨-, first, mapFirst⟩ := coherent.spendCoin spent
      obtain ⟨follows, map⟩ := ih first.coherent (i + 1)
      refine ⟨first.trans follows, fun other => ?_⟩
      rw [map, mapFirst]
      by_cases same : other = ⟨txid, ofNat i⟩
      · simp [same]
      · simp [same]

/-- A step of undoing succeeds on a condition, and what it leaves when it does. -/
abbrev Undoes {ε : Type} (step : Except ε (Bool × CCoinsViewCache T)) (condition : Prop)
    (leaves : CCoinsViewCache T → Prop) : Prop :=
  (condition → ∃ fClean after, step = .ok (fClean, after)) ∧
    ∀ fClean after, step = .ok (fClean, after) → leaves after

/-- Two steps of undoing, one after the other. -/
theorem Undoes.bind {ε : Type} {first : Except ε (Bool × CCoinsViewCache T)}
    {whole condition condition' : Prop} {leaves leaves' : CCoinsViewCache T → Prop}
    (undoes : Undoes first condition leaves)
    (next : CCoinsViewCache T → Except ε (Bool × CCoinsViewCache T))
    (parts : whole → condition' ∧ condition)
    (later : ∀ middle, leaves middle → Undoes (next middle) condition' leaves') :
    Undoes (do
      let (later, view) ← first
      let (fClean, view) ← next view
      .ok (later && fClean, view)) whole leaves' := by
  constructor
  · intro holds
    obtain ⟨clean, middle, done⟩ := undoes.1 (parts holds).2
    obtain ⟨fClean, after, finished⟩ :=
      (later middle (undoes.2 clean middle done)).1 (parts holds).1
    exact ⟨clean && fClean, after, by simp [done, finished, Bind.bind, Except.bind]⟩
  · intro fClean after finished
    simp only [bind_eq_ok, Prod.exists, ok.injEq, Prod.mk.injEq] at finished
    obtain ⟨clean, middle, done, clean', _, finished, -, rfl⟩ := finished
    exact (later middle (undoes.2 clean middle done)).2 clean' _ finished

theorem applyTxInUndo_spec (coherent : view.Coherent) (out : COutPoint T) {undo : Coin}
    (height : undo.nHeight ≠ 0) (spendable : undo.out.scriptPubKey.isUnspendable = false) :
    Undoes (applyTxInUndo view out undo) (undo.isSpent = false) fun after => view.Follows after ∧
      ∀ other, after.getCoin other = if other = out then some undo else view.getCoin other := by
  have metadata : withMetadata view out undo = .ok undo := if_neg height
  have unfolded : applyTxInUndo view out undo = (do
      let after ← orThrow (view.addCoin out undo (view.haveCoin out))
      .ok (!view.haveCoin out, after)) := by
    rw [applyTxInUndo, metadata]
    rfl
  have place : view.haveCoin out = true ∨ view.getCoin out = none := by
    cases found : view.getCoin out with
    | none => exact .inr rfl
    | some coin => exact .inl (by rw [haveCoin, found]; rfl)
  rw [unfolded]
  constructor
  · intro unspent
    obtain ⟨after, added⟩ := addCoin_succeeds unspent place
    exact ⟨!view.haveCoin out, after, by rw [added]; rfl⟩
  · intro fClean after restored
    simp only [bind_eq_ok, ok.injEq, Prod.mk.injEq] at restored
    obtain ⟨_, added, -, rfl⟩ := restored
    cases result : view.addCoin out undo (view.haveCoin out) with
    | error error => simp [result, orThrow] at added
    | ok view' =>
      simp only [result, orThrow, ok.injEq] at added
      subst added
      obtain ⟨follows, map, -⟩ := coherent.addCoin height
        (fun _ => place.imp_right covers_of_getCoin) result
      exact ⟨follows, fun other => by rw [map]; simp [spendable]⟩

theorem restoreInputs_spec (coherent : view.Coherent) (outpoints : List (COutPoint T))
    (undo : COutPoint T → Coin) (coins : ∀ out ∈ outpoints, (undo out).nHeight ≠ 0 ∧
      (undo out).out.scriptPubKey.isUnspendable = false) :
    Undoes (restoreInputs view (outpoints.map fun out => (out, undo out)))
      (∀ out ∈ outpoints, (undo out).isSpent = false) fun after =>
        view.Follows after ∧
          ∀ other, after.getCoin other =
            if other ∈ outpoints then some (undo other) else view.getCoin other := by
  induction outpoints with
  | nil =>
    refine ⟨fun _ => ⟨true, view, rfl⟩, ?_⟩
    rintro fClean after ⟨⟩
    exact ⟨CCoinsViewCache.Follows.refl coherent, fun other => by simp⟩
  | cons out rest ih =>
    obtain ⟨height, spendable⟩ := coins out mem_cons_self
    refine (ih (forall_mem_cons.mp coins).2).bind (applyTxInUndo · out (undo out))
      forall_mem_cons.mp
      fun middle ⟨follows, map⟩ => ?_
    obtain ⟨succeeds, spec⟩ := applyTxInUndo_spec follows.coherent out height spendable
    refine ⟨succeeds, fun fClean after applied => ?_⟩
    obtain ⟨followsFirst, mapFirst⟩ := spec fClean after applied
    refine ⟨follows.trans followsFirst, fun other => ?_⟩
    rw [mapFirst, map]
    by_cases same : other = out
    · simp [same]
    · simp [same]

end Loops

end MooncoinFormal.Validation
