import MooncoinFormal.Mweb.FirstBlock
import MooncoinFormal.Validation.ConnectBlock

/-!
# Blocks in the cryptography that computes

A view over any finite list of coins, a chain of any height and the block that
commits to a list of transactions, in the cryptography of `Primitives.Numeric`.
Scripts always pass.
-/

namespace MooncoinFormal.Primitives.Numeric

open Coins Validation List

def engine : ScriptEngine types where
  checkInputScripts _ _ _ := true
  checkInputScripts_withoutMweb _ _ _ := rfl
  checkInputScripts_stripped _ _ _ _ := rfl

theorem one_lt_height : 1 < 2 ^ 31 := by decide

theorem seven_lt_height : 7 < 2 ^ 31 := by decide

/-- The next block after a number of blocks, under the given rules. -/
def connectionAt (height : Nat) (bounded : height < 2 ^ 31) (rules : Params types) :
    Connection types where
  crypto := crypto
  engine := engine
  params := rules
  chain := (replicate height genesis).flatten
  fScriptChecks := true
  nHeight_lt := by simpa [Chain.nextHeight, genesis] using bounded

def plainParams : Params types := { params with mwebEnabled := fun _ => false }

def viewOf (coins : List (COutPoint types × Coin)) (valid : ∀ entry ∈ coins, entry.2.Valid) :
    CCoinsViewCache types where
  base :=
    { getCoin := fun outpoint => (coins.find? fun entry => entry.1 = outpoint).map Prod.snd
      mwebView := emptyView
      valid := by
        intro outpoint coin found
        obtain ⟨entry, listed, rfl⟩ := Option.map_eq_some_iff.mp found
        exact valid entry (mem_of_find?_eq_some listed) }
  cacheCoins _ := none
  hashBlock := (0 : Nat)
  mwebView := emptyCache

section Views

variable {coins : List (COutPoint types × Coin)} {valid : ∀ entry ∈ coins, entry.2.Valid}

theorem viewOf_coherent : (viewOf coins valid).Coherent := ⟨nofun, nofun, nofun⟩

theorem mem_of_viewOf_getCoin {outpoint : COutPoint types} {coin : Coin}
    (found : (viewOf coins valid).getCoin outpoint = some coin) : (outpoint, coin) ∈ coins := by
  rw [CCoinsViewCache.getCoin_of_absent rfl] at found
  obtain ⟨⟨_, _⟩, listed, rfl⟩ := Option.map_eq_some_iff.mp found
  have same := find?_some listed
  simp only [decide_eq_true_eq] at same
  exact same ▸ mem_of_find?_eq_some listed

end Views

/-- A block without extension block that commits to its transactions. -/
def blockOf (vtx : List (CTransaction types)) : CBlock types :=
  let root := (blockMerkleRoot crypto ⟨⟨1, (0 : Nat), (0 : Nat), 0, 0, 0⟩, vtx, none⟩).1
  ⟨⟨1, (0 : Nat), root, 0, 0, 0⟩, vtx, none⟩

end MooncoinFormal.Primitives.Numeric
