import MooncoinFormal.Mempool.Pool

/-!
# The wallet

`wallet.cpp`: the transactions of the wallet with their confirmation, the
multimap from outputs to the wallet transactions that spend them, and the maps from
MWEB outputs and kernels to the transactions they come from. A block can hold an
MWEB output or spend of the wallet without the wallet having the transaction; the
wallet then keeps a record in place of the transaction, under the ID of the output.

Ownership tests and the keychain are parameters. Notifications, the database, order
positions, times and the spent marks of keys are left out.
-/

namespace MooncoinFormal.Wallet

open Primitives CTransaction Mweb Library Function

variable {T : CryptoTypes}

/-- `mw::Coin`, without its keys. -/
structure Coin (T : CryptoTypes) where
  addressIndex : UInt32
  amount : CAmount
  outputId : T.Hash
  deriving DecidableEq

def Coin.isMine (coin : Coin T) : Bool :=
  decide (coin.addressIndex ≠ 0xffffffff)

/-- `MWEB::WalletTxInfo`, which is made from a received coin or a spent output. -/
inductive WalletTxInfo (T : CryptoTypes) where
  | received (coin : Coin T)
  | spent (outputId : T.Hash)
  deriving DecidableEq

def WalletTxInfo.getHash : WalletTxInfo T → T.Hash
  | .received coin => coin.outputId
  | .spent outputId => outputId

inductive Status where
  | unconfirmed
  | confirmed
  | conflicted
  | abandoned
  deriving DecidableEq, Repr

structure Confirmation (T : CryptoTypes) where
  status : Status
  blockHeight : Int
  hashBlock : T.Hash
  nIndex : Int
  deriving DecidableEq

def Confirmation.without (status : Status) : Confirmation T := ⟨status, 0, T.zeroHash, 0⟩

structure CWalletTx (T : CryptoTypes) where
  tx : CTransaction T
  mwebWtxInfo : Option (WalletTxInfo T)
  confirm : Confirmation T
  fInMempool : Bool
  pegoutIndices : List (T.Hash × Nat)

/-- `CTransaction::IsNull`. -/
def isNull (tx : CTransaction T) : Bool := tx.vin.isEmpty && tx.vout.isEmpty

variable (crypto : BlockCrypto T)

/-- `CWalletTx::GetHash`, of a transaction with its record. -/
def hashOf (tx : CTransaction T) (info : Option (WalletTxInfo T)) : T.Hash :=
  match info with
  | some info => if isNull tx then info.getHash else tx.getHash crypto
  | none => tx.getHash crypto

namespace CWalletTx

def getInputs (wtx : CWalletTx T) : List (OutputIndex T) :=
  wtx.tx.getInputs ++ match wtx.mwebWtxInfo with
    | some (.spent outputId) => [.inr outputId]
    | _ => []

def getOutputs (wtx : CWalletTx T) : List (OutputIndex T) :=
  wtx.tx.getOutputs crypto ++ match wtx.mwebWtxInfo with
    | some (.received coin) => [.inr coin.outputId]
    | _ => []

end CWalletTx

structure CWallet (T : CryptoTypes) where
  mapWallet : T.Hash → Option (CWalletTx T)
  mapTxSpends : List (OutputIndex T × T.Hash)
  mapOutputsMWEB : T.Hash → Option T.Hash
  mapKernelsMWEB : T.Hash → Option T.Hash
  coins : T.Hash → Option (Coin T)
  lastBlockHeight : Int

namespace CWallet

/-- A wallet that holds no transactions. -/
def empty : CWallet T := ⟨fun _ => none, [], fun _ => none, fun _ => none, fun _ => none, 0⟩

variable (wallet : CWallet T)

/-- `CWalletTx::GetDepthInMainChain`. -/
def depth (confirm : Confirmation T) : Int :=
  match confirm.status with
  | .unconfirmed | .abandoned => 0
  | .confirmed => wallet.lastBlockHeight - confirm.blockHeight + 1
  | .conflicted => -(wallet.lastBlockHeight - confirm.blockHeight + 1)

/-- `mapTxSpends.equal_range`. -/
def spenders (index : OutputIndex T) : List T.Hash :=
  (wallet.mapTxSpends.filter fun entry => entry.1 = index).map Prod.snd

/-- Whether `GetCoin` finds a coin of the wallet. -/
def hasCoin (outputId : T.Hash) : Bool := (wallet.coins outputId).any Coin.isMine

def setWtx (hash : T.Hash) (wtx : CWalletTx T) : CWallet T :=
  { wallet with mapWallet := update wallet.mapWallet hash (some wtx) }

theorem setWtx_self {hash : T.Hash} {wtx : CWalletTx T} :
    (wallet.setWtx hash wtx).mapWallet hash = some wtx := update_self _ _ _

theorem setWtx_of_ne {hash other : T.Hash} {wtx : CWalletTx T} (different : other ≠ hash) :
    (wallet.setWtx hash wtx).mapWallet other = wallet.mapWallet other :=
  update_of_ne different _ _

/-- `std::map::insert` of several keys with one value. -/
def insertAll (map : T.Hash → Option T.Hash) (keys : List T.Hash) (value : T.Hash) :
    T.Hash → Option T.Hash :=
  fun key => (map key).or (if key ∈ keys then some value else none)

/-- `AddToSpends` and `AddMWEBOrigins` of a new transaction. -/
def addOrigins (hash : T.Hash) (wtx : CWalletTx T) : CWallet T :=
  { wallet with
    mapTxSpends := wallet.mapTxSpends ++
      (if wtx.tx.isCoinBase then [] else wtx.getInputs.map fun index => (index, hash))
    mapOutputsMWEB := insertAll wallet.mapOutputsMWEB (wtx.tx.getOutputIDs crypto ++
      match wtx.mwebWtxInfo with
      | some (.received coin) => [coin.outputId]
      | _ => []) hash
    mapKernelsMWEB := insertAll wallet.mapKernelsMWEB (wtx.tx.getKernelIDs crypto) hash }

/-- What `AddToWallet` does to a transaction that is there. -/
def updated (wtx : CWalletTx T) (tx : CTransaction T) (info : Option (WalletTxInfo T))
    (confirm : Confirmation T) : CWalletTx T :=
  let wtx := { wtx with confirm := confirm }
  let wtx := if tx.hasWitness && !wtx.tx.hasWitness then { wtx with tx := tx } else wtx
  if isNull wtx.tx && !isNull tx then { wtx with tx := tx, mwebWtxInfo := info } else wtx

def addToWallet (tx : CTransaction T) (info : Option (WalletTxInfo T)) (confirm : Confirmation T) :
    CWallet T :=
  let hash := hashOf crypto tx info
  match wallet.mapWallet hash with
  | some wtx => wallet.setWtx hash (updated wtx tx info confirm)
  | none =>
    let wtx := ⟨tx, info, confirm, false, []⟩
    (wallet.setWtx hash wtx).addOrigins crypto hash wtx

/-! ## Conflicts and abandonment -/

/-- The spenders that the loops put on their list: for each output the one that
`mapTxSpends.find` returns. -/
def firstSpenders (wtx : CWalletTx T) : List T.Hash :=
  (wtx.getOutputs crypto).filterMap fun index => (wallet.spenders index).head?

/-- What a loop does to a transaction: nothing, or its new confirmation; or an assertion
fails. -/
abbrev Verdict (T : CryptoTypes) := CWalletTx T → Option (Option (Confirmation T))

/-- The loop over `todo`. -/
def sweep (verdict : Verdict T) : Nat → (todo done : List T.Hash) → CWallet T → Option (CWallet T)
  | 0, _, _, wallet => some wallet
  | _ + 1, [], _, wallet => some wallet
  | fuel + 1, now :: todo, done, wallet => do
    let wtx ← wallet.mapWallet now
    match ← verdict wtx with
    | none => sweep verdict fuel todo (now :: done) wallet
    | some confirm =>
      sweep verdict fuel (Worklist.push (now :: done) todo (wallet.firstSpenders crypto wtx))
        (now :: done) (wallet.setWtx now { wtx with confirm := confirm })

/-- Every transaction is visited once, and all but the first are spenders. -/
def sweepFrom (verdict : Verdict T) (hashTx : T.Hash) : Option (CWallet T) :=
  sweep crypto verdict (wallet.mapTxSpends.length + 1) [hashTx] [] wallet

def conflictconfirms (conflictingHeight : Int) : Int :=
  -(wallet.lastBlockHeight - conflictingHeight + 1)

def conflictVerdict (hashBlock : T.Hash) (conflictingHeight : Int) : Verdict T := fun wtx =>
  some (if wallet.conflictconfirms conflictingHeight < wallet.depth wtx.confirm then
    some ⟨.conflicted, conflictingHeight, hashBlock, 0⟩ else none)

def markConflicted (hashBlock : T.Hash) (conflictingHeight : Int) (hashTx : T.Hash) :
    Option (CWallet T) :=
  if 0 ≤ wallet.conflictconfirms conflictingHeight then some wallet
  else wallet.sweepFrom crypto (wallet.conflictVerdict hashBlock conflictingHeight) hashTx

def abandonVerdict : Verdict T := fun wtx =>
  if 0 < wallet.depth wtx.confirm then none
  else if wallet.depth wtx.confirm = 0 ∧ wtx.confirm.status ≠ .abandoned then
    if wtx.fInMempool = true then none else some (some (.without .abandoned))
  else some none

def abandonTransaction (hashTx : T.Hash) : Option (Bool × CWallet T) := do
  let origtx ← wallet.mapWallet hashTx
  if wallet.depth origtx.confirm ≠ 0 ∨ origtx.fInMempool = true then return (false, wallet)
  let abandoned ← wallet.sweepFrom crypto wallet.abandonVerdict hashTx
  return (true, abandoned)

end CWallet

end MooncoinFormal.Wallet
