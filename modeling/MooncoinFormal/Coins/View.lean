import MooncoinFormal.Mweb.CoinsView
import MooncoinFormal.Primitives.Hashing

/-!
# The cache of unspent outputs

`coins.h` and `coins.cpp`: a cache of coins over another view. An entry is dirty
when it may differ from what lies below, and fresh when nothing unspent lies
below; a fresh entry is dropped when it is spent. What a coherent cache answers is
a plain map from outpoints to coins, and the lemmas here read each operation as a
change of that map.
-/

namespace MooncoinFormal.Coins

open Primitives Library.Checks Option Function

variable {T : CryptoTypes}

structure Coin where
  out : CTxOut
  fCoinBase : Bool
  /-- A bit field of 31 bits. -/
  nHeight : BitVec 31
  fPegout : Bool
  deriving DecidableEq

namespace Coin

def isSpent (coin : Coin) : Bool := coin.out.isNull

/-- `Clear`. -/
def cleared : Coin := ⟨⟨-1, []⟩, false, 0, false⟩

/-- What holds of every coin that a view gives out: `AddCoin` asserts that it is not
spent and skips scripts that cannot be spent, and the outputs of the block at
height zero are never added. -/
structure Valid (coin : Coin) : Prop where
  unspent : coin.isSpent = false
  spendable : coin.out.scriptPubKey.isUnspendable = false
  height : coin.nHeight ≠ 0

end Coin

/-! ## Views -/

/-- `CCoinsView`, as seen from the cache above it. -/
structure CCoinsView (T : CryptoTypes) where
  getCoin : COutPoint T → Option Coin
  mwebView : Mweb.ICoinsView T
  valid : ∀ outpoint coin, getCoin outpoint = some coin → coin.Valid

/-- A coin of the cache, or none where the cached coin is spent. -/
structure CCoinsCacheEntry where
  coin : Option Coin
  dirty : Bool
  fresh : Bool

structure CCoinsViewCache (T : CryptoTypes) where
  base : CCoinsView T
  cacheCoins : COutPoint T → Option CCoinsCacheEntry
  hashBlock : T.Hash
  mwebView : Mweb.CoinsViewCache T

/-- What the coins code throws, or a failed assertion. -/
inductive CoinsError where
  | assertion
  | overwrite
  | mweb (error : Mweb.MwError)

variable {coin : Coin} (view : CCoinsViewCache T) (outpoint : COutPoint T)

variable (entry : Option CCoinsCacheEntry)

namespace CCoinsViewCache

def setEntry : CCoinsViewCache T :=
  { view with cacheCoins := update view.cacheCoins outpoint entry }

/-- `FetchCoin`: the entry, copied from below when the cache has none. -/
def fetchCoin : Option (CCoinsCacheEntry × CCoinsViewCache T) :=
  match view.cacheCoins outpoint with
  | some entry => some (entry, view)
  | none =>
    (view.base.getCoin outpoint).map fun coin =>
      (⟨some coin, false, false⟩, view.setEntry outpoint (some ⟨some coin, false, false⟩))

/-- `GetCoin` and `AccessCoin`: the answer does not depend on whether the entry is
copied into the cache. -/
def getCoin : Option Coin :=
  (view.fetchCoin outpoint).bind fun fetched => fetched.1.coin

def haveCoin : Bool :=
  (view.getCoin outpoint).isSome

def addCoin (coin : Coin) (possibleOverwrite : Bool) : Except CoinsError (CCoinsViewCache T) := do
  ensure (coin.isSpent = false) .assertion
  if coin.out.scriptPubKey.isUnspendable then .ok view
  else
    let entry := (view.cacheCoins outpoint).getD ⟨none, false, false⟩
    if possibleOverwrite then .ok (view.setEntry outpoint (some ⟨some coin, true, entry.fresh⟩))
    else do
      ensure (entry.coin = none) .overwrite
      .ok (view.setEntry outpoint (some ⟨some coin, true, entry.fresh || !entry.dirty⟩))

/-- `SpendCoin`, with the coin it moves out; that is none when the cached coin is
spent already. -/
def spendCoin : Option (Option Coin × CCoinsViewCache T) :=
  (view.fetchCoin outpoint).map fun fetched =>
    (fetched.1.coin,
      if fetched.1.fresh then fetched.2.setEntry outpoint none
      else fetched.2.setEntry outpoint (some ⟨none, true, false⟩))

def getMwebCoin (outputId : T.Hash) : Option (Mweb.Output T) :=
  match (Mweb.ICoinsView.cache view.base.mwebView view.mwebView).getUTXO outputId with
  | .ok utxo => utxo.map Mweb.UTXO.output
  | .error _ => none

/-! ## The cache as a map -/

/-- A fresh entry lies over nothing unspent, and an entry that is not dirty is what
lies below. -/
structure Coherent : Prop where
  fresh : ∀ outpoint entry, view.cacheCoins outpoint = some entry → entry.fresh = true →
    view.base.getCoin outpoint = none
  clean : ∀ outpoint entry, view.cacheCoins outpoint = some entry → entry.dirty = false →
    entry.coin = view.base.getCoin outpoint
  valid : ∀ outpoint entry coin, view.cacheCoins outpoint = some entry →
    entry.coin = some coin → coin.Valid

/-- Nothing unspent below is missing from the cache at the outpoint. -/
def Covers : Prop :=
  view.cacheCoins outpoint = none → view.base.getCoin outpoint = none

/-- The second view comes from the first by operations on coins. -/
structure Follows (view' : CCoinsViewCache T) : Prop where
  base : view'.base = view.base
  hashBlock : view'.hashBlock = view.hashBlock
  mwebView : view'.mwebView = view.mwebView
  coherent : view'.Coherent
  covers : ∀ outpoint, view.Covers outpoint → view'.Covers outpoint

section Map

variable {view view' view'' : CCoinsViewCache T} {outpoint other : COutPoint T}

theorem getCoin_of_entry {entry : CCoinsCacheEntry}
    (cached : view.cacheCoins outpoint = some entry) :
    view.getCoin outpoint = entry.coin := by
  simp [getCoin, fetchCoin, cached]

theorem getCoin_of_absent (absent : view.cacheCoins outpoint = none) :
    view.getCoin outpoint = view.base.getCoin outpoint := by
  cases below : view.base.getCoin outpoint <;> simp [getCoin, fetchCoin, absent, below]

/-- The map depends on the cached coins and the view below only. -/
theorem getCoin_congr (base : view'.base = view.base)
    (cached : view'.cacheCoins = view.cacheCoins) :
    view'.getCoin outpoint = view.getCoin outpoint := by
  cases entry : view.cacheCoins outpoint with
  | none => rw [getCoin_of_absent entry, getCoin_of_absent (by rw [cached, entry]), base]
  | some found => rw [getCoin_of_entry entry, getCoin_of_entry (by rw [cached, entry])]

theorem getCoin_with (view : CCoinsViewCache T) (hash : T.Hash) (top : Mweb.CoinsViewCache T)
    (outpoint : COutPoint T) :
    getCoin { view with hashBlock := hash, mwebView := top } outpoint = view.getCoin outpoint :=
  getCoin_congr rfl rfl

theorem covers_of_getCoin (unknown : view.getCoin outpoint = none) : view.Covers outpoint := by
  intro absent
  rw [← getCoin_of_absent absent, unknown]

theorem Coherent.valid_getCoin (coherent : view.Coherent)
    (found : view.getCoin outpoint = some coin) : coin.Valid := by
  cases cached : view.cacheCoins outpoint with
  | none => exact view.base.valid _ _ ((getCoin_of_absent cached).symm.trans found)
  | some entry => exact coherent.valid _ _ _ cached ((getCoin_of_entry cached).symm.trans found)

theorem Follows.refl (coherent : view.Coherent) : view.Follows view :=
  ⟨rfl, rfl, rfl, coherent, fun _ covers => covers⟩

theorem Follows.trans (first : view.Follows view') (second : view'.Follows view'') :
    view.Follows view'' :=
  ⟨second.base.trans first.base, second.hashBlock.trans first.hashBlock,
    second.mwebView.trans first.mwebView, second.coherent,
    fun outpoint covers => second.covers outpoint (first.covers outpoint covers)⟩

theorem cacheCoins_setEntry_self :
    (view.setEntry outpoint entry).cacheCoins outpoint = entry := update_self _ _ _

theorem cacheCoins_setEntry_of_ne (view : CCoinsViewCache T) (entry : Option CCoinsCacheEntry)
    (differ : other ≠ outpoint) :
    (view.setEntry outpoint entry).cacheCoins other = view.cacheCoins other :=
  update_of_ne differ _ _

theorem getCoin_setEntry :
    (view.setEntry outpoint entry).getCoin other =
      if other = outpoint then
        match entry with
        | some entry => entry.coin
        | none => view.base.getCoin outpoint
      else view.getCoin other := by
  by_cases same : other = outpoint
  · subst same
    rw [if_pos rfl]
    cases entry with
    | none => exact getCoin_of_absent (cacheCoins_setEntry_self _)
    | some entry => exact getCoin_of_entry (cacheCoins_setEntry_self _)
  · rw [if_neg same]
    have kept := cacheCoins_setEntry_of_ne view entry same
    cases cached : view.cacheCoins other with
    | none => rw [getCoin_of_absent cached]; exact getCoin_of_absent (kept.trans cached)
    | some found => rw [getCoin_of_entry cached]; exact getCoin_of_entry (kept.trans cached)

variable {entry : Option CCoinsCacheEntry}

theorem cacheCoins_setEntry_cases {found : CCoinsCacheEntry}
    (cached : (view.setEntry outpoint entry).cacheCoins other = some found) :
    other = outpoint ∧ entry = some found ∨ view.cacheCoins other = some found := by
  by_cases same : other = outpoint
  · subst same
    rw [cacheCoins_setEntry_self] at cached
    exact .inl ⟨rfl, cached⟩
  · rw [cacheCoins_setEntry_of_ne _ _ same] at cached
    exact .inr cached

theorem setEntry_setEntry (first second : Option CCoinsCacheEntry) :
    (view.setEntry outpoint first).setEntry outpoint second = view.setEntry outpoint second := by
  simp [setEntry]

/-- Setting an entry keeps a cache coherent when the entry itself is, and dropping one does
when nothing unspent lies below. -/
theorem Coherent.setEntry (coherent : view.Coherent)
    (dropped : entry = none → view.base.getCoin outpoint = none)
    (fresh : ∀ found, entry = some found → found.fresh = true → view.base.getCoin outpoint = none)
    (clean : ∀ found, entry = some found → found.dirty = false →
      found.coin = view.base.getCoin outpoint)
    (valid : ∀ found coin, entry = some found → found.coin = some coin → coin.Valid) :
    view.Follows (view.setEntry outpoint entry) := by
  refine ⟨rfl, rfl, rfl, ⟨?_, ?_, ?_⟩, ?_⟩
  · intro place found cached flag
    rcases cacheCoins_setEntry_cases cached with ⟨rfl, new⟩ | before
    · exact fresh found new flag
    · exact coherent.fresh place found before flag
  · intro place found cached flag
    rcases cacheCoins_setEntry_cases cached with ⟨rfl, new⟩ | before
    · exact clean found new flag
    · exact coherent.clean place found before flag
  · intro place found coin cached isCoin
    rcases cacheCoins_setEntry_cases cached with ⟨rfl, new⟩ | before
    · exact valid found coin new isCoin
    · exact coherent.valid place found coin before isCoin
  · intro place covers absent
    by_cases same : place = outpoint
    · subst same
      exact dropped ((cacheCoins_setEntry_self _).symm.trans absent)
    · rw [cacheCoins_setEntry_of_ne _ _ same] at absent
      exact covers absent

variable {moved : Option Coin}

/-- A spent coin is given out. Its entry is dropped if it is fresh, and emptied otherwise. -/
theorem spendCoin_cases (spent : view.spendCoin outpoint = some (moved, view')) :
    moved = view.getCoin outpoint ∧
      ((∃ entry, view.cacheCoins outpoint = some entry ∧ entry.fresh = true ∧
          view' = view.setEntry outpoint none) ∨
        (∀ entry, view.cacheCoins outpoint = some entry → entry.fresh = false) ∧
          view' = view.setEntry outpoint (some ⟨none, true, false⟩)) := by
  obtain ⟨⟨entry, middle⟩, fetched, result⟩ := map_eq_some_iff.mp spent
  obtain ⟨rfl, rfl⟩ := Prod.mk.inj result
  refine ⟨by rw [getCoin, fetched]; rfl, ?_⟩
  rw [fetchCoin] at fetched
  cases cached : view.cacheCoins outpoint with
  | none =>
    simp only [cached, map_eq_some_iff, Prod.mk.injEq] at fetched
    obtain ⟨coin, -, rfl, rfl⟩ := fetched
    exact .inr ⟨nofun, setEntry_setEntry _ _⟩
  | some found =>
    simp only [cached, Option.some.injEq, Prod.mk.injEq] at fetched
    obtain ⟨rfl, rfl⟩ := fetched
    cases fresh : found.fresh with
    | true => exact .inl ⟨found, rfl, fresh, rfl⟩
    | false =>
      refine .inr ⟨?_, rfl⟩
      rintro _ ⟨⟩
      exact fresh

/-- Spending a coin gives it out and takes it off the map. -/
theorem Coherent.spendCoin (coherent : view.Coherent)
    (spent : view.spendCoin outpoint = some (moved, view')) :
    moved = view.getCoin outpoint ∧ view.Follows view' ∧
      ∀ other, view'.getCoin other = if other = outpoint then none else view.getCoin other := by
  obtain ⟨isCoin, ⟨entry, cached, fresh, rfl⟩ | ⟨-, rfl⟩⟩ := spendCoin_cases spent
  · have nothing := coherent.fresh _ _ cached fresh
    refine ⟨isCoin, coherent.setEntry (fun _ => nothing) nofun nofun nofun, fun other => ?_⟩
    rw [getCoin_setEntry, nothing]
  · refine ⟨isCoin, coherent.setEntry nofun ?_ ?_ ?_, fun other => getCoin_setEntry _⟩
    · rintro _ ⟨⟩ ⟨⟩
    · rintro _ ⟨⟩ ⟨⟩
    · rintro _ _ ⟨⟩ ⟨⟩

theorem spendCoin_of_getCoin (found : view.getCoin outpoint = some coin) :
    ∃ after, view.spendCoin outpoint = some (some coin, after) := by
  obtain ⟨fetched, entry, isCoin⟩ := bind_eq_some_iff.mp found
  exact ⟨_, by rw [CCoinsViewCache.spendCoin, entry, map_some, isCoin]⟩

/-- The entry that `AddCoin` finds or makes. -/
def entryFor (view : CCoinsViewCache T) (outpoint : COutPoint T) : CCoinsCacheEntry :=
  (view.cacheCoins outpoint).getD ⟨none, false, false⟩

theorem entryFor_coin_eq_none (covers : view.Covers outpoint) :
    (view.entryFor outpoint).coin = none ↔ view.getCoin outpoint = none := by
  cases cached : view.cacheCoins outpoint with
  | none => simp [entryFor, cached, getCoin_of_absent cached, covers cached]
  | some entry => simp [entryFor, cached, getCoin_of_entry cached]

variable {possibleOverwrite : Bool}

/-- A coin whose script cannot be spent is skipped. Any other one is put into the entry of
its outpoint, which has to be empty unless it may be overwritten. -/
theorem addCoin_eq_ok :
    view.addCoin outpoint coin possibleOverwrite = .ok view' ↔ coin.isSpent = false ∧
      (coin.out.scriptPubKey.isUnspendable = true ∧ view' = view ∨
        coin.out.scriptPubKey.isUnspendable = false ∧
          (possibleOverwrite = false → (view.entryFor outpoint).coin = none) ∧
          view' = view.setEntry outpoint (some ⟨some coin, true, (view.entryFor outpoint).fresh ||
            !possibleOverwrite && !(view.entryFor outpoint).dirty⟩)) := by
  simp only [CCoinsViewCache.addCoin, bind_eq_ok, ensure_eq_ok, exists_const]
  refine and_congr_right fun _ => ?_
  cases coin.out.scriptPubKey.isUnspendable with
  | true => simp [eq_comm]
  | false => cases possibleOverwrite <;> simp [entryFor, bind_eq_ok, ensure_eq_ok, @eq_comm _ view']

/-- Adding a coin puts it on the map unless its script cannot be spent. -/
theorem Coherent.addCoin (coherent : view.Coherent) (height : coin.nHeight ≠ 0)
    (allowed : coin.out.scriptPubKey.isUnspendable = false → possibleOverwrite = true ∨ view.Covers
      outpoint) (added : view.addCoin outpoint coin possibleOverwrite = .ok view') :
    view.Follows view' ∧
      (∀ other, view'.getCoin other =
        if other = outpoint ∧ coin.out.scriptPubKey.isUnspendable = false then some coin
        else view.getCoin other) ∧
      (possibleOverwrite = false → coin.out.scriptPubKey.isUnspendable = false →
        view.getCoin outpoint = none) := by
  obtain ⟨unspent, ⟨unspendable, rfl⟩ | ⟨spendable, free, rfl⟩⟩ := addCoin_eq_ok.mp added
  · simp only [unspendable, Bool.true_eq_false, and_false, if_false]
    exact ⟨Follows.refl coherent, fun _ => trivial, nofun⟩
  have covers : possibleOverwrite = false → view.Covers outpoint := by
    rintro rfl
    exact (allowed spendable).resolve_left nofun
  simp only [spendable, and_true]
  refine ⟨coherent.setEntry nofun ?_ ?_ ?_, fun other => getCoin_setEntry _,
    fun plain _ => (entryFor_coin_eq_none (covers plain)).mp (free plain)⟩
  · rintro _ ⟨⟩ fresh
    simp only [Bool.or_eq_true, Bool.and_eq_true, Bool.not_eq_true'] at fresh
    cases cached : view.cacheCoins outpoint with
    | none => exact covers (fresh.resolve_left (by simp [entryFor, cached])).1 cached
    | some entry =>
      simp only [entryFor, cached, getD_some] at fresh free
      rcases fresh with fresh | ⟨plain, clean⟩
      · exact coherent.fresh _ _ cached fresh
      · rw [← coherent.clean _ _ cached clean, free plain]
  · rintro _ ⟨⟩ ⟨⟩
  · rintro _ _ ⟨⟩ ⟨⟩
    exact ⟨unspent, spendable, height⟩

theorem addCoin_succeeds (unspent : coin.isSpent = false)
    (room : possibleOverwrite = true ∨ view.getCoin outpoint = none) :
    ∃ after, view.addCoin outpoint coin possibleOverwrite = .ok after := by
  cases spendable : coin.out.scriptPubKey.isUnspendable with
  | true => exact ⟨view, addCoin_eq_ok.mpr ⟨unspent, .inl ⟨spendable, rfl⟩⟩⟩
  | false =>
    refine ⟨_, addCoin_eq_ok.mpr ⟨unspent, .inr ⟨spendable, ?_, rfl⟩⟩⟩
    rintro rfl
    have unknown := room.resolve_left nofun
    exact (entryFor_coin_eq_none (covers_of_getCoin unknown)).mpr unknown

end Map

end CCoinsViewCache

end MooncoinFormal.Coins
