import MooncoinFormal.Primitives.Numeric
import MooncoinFormal.Wallet.Wallet

/-!
# The credit of a transaction

`CWallet::GetCredit` adds up what a transaction pays to the wallet: its transparent and
MWEB outputs, the received coin of a record and, where no input is the wallet's, the
peg-outs. For the peg-outs the ownership test is the wrong way round.
-/

namespace MooncoinFormal.Wallet

open Primitives Mweb Option List

/-- `isminefilter`, and the codes of `isminetype`. -/
abbrev IsMineFilter := UInt8

def ismineNo : IsMineFilter := 0
def ismineSpendable : IsMineFilter := 2

namespace CWallet

/- `IsMine` of a script is the largest code that a key manager gives it. -/
variable {T : CryptoTypes} (crypto : BlockCrypto T) (wallet : CWallet T)
  (scriptIsMine : CScript → IsMineFilter) (filter : IsMineFilter)

/-- `IsMine` of a `CTxOutput`, of which the outpoint is not read. -/
def outputIsMine : CTxOut ⊕ T.Hash → IsMineFilter
  | .inl txout => scriptIsMine txout.scriptPubKey
  | .inr outputId => if wallet.hasCoin outputId then ismineSpendable else ismineNo

def getValue : CTxOut ⊕ T.Hash → CAmount
  | .inl txout => txout.nValue
  | .inr outputId => ((wallet.coins outputId).map Coin.amount).getD 0

variable (tx : CTransaction T) (info : Option (WalletTxInfo T))

/-- The outputs that are counted: those of the transaction and the received coin. -/
def creditOutputs : List (CTxOut ⊕ T.Hash) :=
  tx.vout.map .inl ++ (tx.getOutputIDs crypto).map .inr ++
    match info with
    | some (.received coin) => [.inr coin.outputId]
    | _ => []

/-- What is the wallet's of an amount. -/
def owned (mine : IsMineFilter) (amount : CAmount) : CAmount :=
  if mine &&& filter ≠ 0 then amount else 0

def getPegOuts : List PegOutCoin :=
  match tx.mwebTx with
  | none => []
  | some mwebTx => mwebTx.body.getPegOuts

/-- What is the wallet's of the outputs and the received coin. -/
def ownOutputs : List CAmount :=
  (creditOutputs crypto tx info).map fun output =>
    owned filter (wallet.outputIsMine scriptIsMine output) (wallet.getValue output)

variable {crypto wallet scriptIsMine filter}

variable (crypto wallet scriptIsMine filter)

end CWallet

end MooncoinFormal.Wallet
