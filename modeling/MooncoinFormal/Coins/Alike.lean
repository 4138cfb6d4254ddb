import MooncoinFormal.Coins.Frame

/-!
# Views that differ in peg-out marks

Two runs over the same transactions whose flags differ keep caches with the same
entries, except that a coin of one may be marked as a peg-out where that of the other
is not. The relation carries a set of outpoints that the second run has marked; what
the first run does to its cache, the second can do to its own.
-/

namespace MooncoinFormal.Library

theorem rel_cases {α β : Type} {R : α → β → Prop} {a : Option α} {b : Option β}
    (related : Option.Rel R a b) :
    a = none ∧ b = none ∨ ∃ x y, a = some x ∧ b = some y ∧ R x y := by
  cases related with
  | none => exact .inl ⟨rfl, rfl⟩
  | some here => exact .inr ⟨_, _, rfl, rfl, here⟩

theorem rel_mono {α β : Type} {R S : α → β → Prop} {a : Option α} {b : Option β}
    (related : Option.Rel R a b) (weaker : ∀ {x y}, R x y → S x y) : Option.Rel S a b := by
  cases related with
  | none => exact .none
  | some here => exact .some (weaker here)

end MooncoinFormal.Library

namespace MooncoinFormal.Coins

open Primitives Library Library.Checks CCoinsViewCache UInt32 List

variable {T : CryptoTypes}

/-- The outpoints of the outputs, from an index on, whose coins `AddCoins` marks as peg-outs. -/
def markedFrom (txid : T.Hash) (hogEx : Bool) : (i : Nat) → List CTxOut → List (COutPoint T)
  | _, [] => []
  | i, txout :: rest =>
    if (hogEx && decide (0 < i)) = true ∧ txout.scriptPubKey.isUnspendable = false then
      ⟨txid, ofNat i⟩ :: markedFrom txid hogEx (i + 1) rest
    else markedFrom txid hogEx (i + 1) rest

variable {txid : T.Hash}

theorem markedFrom_subset {hogEx : Bool} {i : Nat} {txout : CTxOut} {rest : List CTxOut} :
    markedFrom txid hogEx (i + 1) rest ⊆ markedFrom txid hogEx i (txout :: rest) := by
  intro outpoint member
  rw [markedFrom]
  split
  · exact mem_cons_of_mem _ member
  · exact member

/-- A marked outpoint is that of an output other than the first which can be spent. -/
theorem exists_of_mem_markedFrom {hogEx : Bool} {i : Nat} {vout : List CTxOut}
    {outpoint : COutPoint T} (member : outpoint ∈ markedFrom txid hogEx i vout) :
    hogEx = true ∧ ∃ n txout, 0 < i + n ∧ vout[n]? = some txout ∧
      txout.scriptPubKey.isUnspendable = false ∧ outpoint = ⟨txid, ofNat (i + n)⟩ := by
  induction vout generalizing i with
  | nil => cases member
  | cons txout rest ih =>
    have cases : (((hogEx && decide (0 < i)) = true ∧ txout.scriptPubKey.isUnspendable = false) ∧
        outpoint = ⟨txid, ofNat i⟩) ∨ outpoint ∈ markedFrom txid hogEx (i + 1) rest := by
      rw [markedFrom] at member
      split at member
      · rename_i mark
        exact (mem_cons.mp member).imp_left fun here => ⟨mark, here⟩
      · exact .inr member
    obtain ⟨mark, rfl⟩ | later := cases
    · rw [Bool.and_eq_true, decide_eq_true_eq] at mark
      exact ⟨mark.1.1, 0, txout, mark.1.2, rfl, mark.2, rfl⟩
    · obtain ⟨flag, n, out, -, at_, spendable, rfl⟩ := ih later
      exact ⟨flag, n + 1, out, by omega, at_, spendable, by rw [Nat.add_right_comm]; rfl⟩

variable (expected : Prop)

/-- The coins are the same up to the mark; the second is marked only if the first is or the
mark is expected. -/
structure SameCoin (coin coin' : Coin) : Prop where
  out : coin'.out = coin.out
  fCoinBase : coin'.fCoinBase = coin.fCoinBase
  nHeight : coin'.nHeight = coin.nHeight
  fPegout : coin'.fPegout = true → coin.fPegout = true ∨ expected

structure SameEntry (entry entry' : CCoinsCacheEntry) : Prop where
  coin : Option.Rel (SameCoin expected) entry.coin entry'.coin
  dirty : entry'.dirty = entry.dirty
  fresh : entry'.fresh = entry.fresh

/-- The views agree but for marks of the second at the given outpoints. -/
structure Alike (marked : Set (COutPoint T)) (view view' : CCoinsViewCache T) : Prop where
  base : view'.base = view.base
  mwebView : view'.mwebView = view.mwebView
  entries : ∀ outpoint, Option.Rel (SameEntry (outpoint ∈ marked)) (view.cacheCoins outpoint)
    (view'.cacheCoins outpoint)

theorem SameCoin.refl (coin : Coin) : SameCoin expected coin coin :=
  ⟨rfl, rfl, rfl, .inl⟩

theorem SameCoin.mono {expected expected' : Prop} {coin coin' : Coin}
    (same : SameCoin expected coin coin') (weaker : expected → expected') :
    SameCoin expected' coin coin' :=
  ⟨same.out, same.fCoinBase, same.nHeight, fun mark => (same.fPegout mark).imp_right weaker⟩

theorem SameEntry.refl (entry : CCoinsCacheEntry) : SameEntry expected entry entry := by
  refine ⟨?_, rfl, rfl⟩
  cases entry.coin with
  | none => exact .none
  | some coin => exact .some (.refl expected coin)

theorem SameEntry.mono {expected expected' : Prop} {entry entry' : CCoinsCacheEntry}
    (same : SameEntry expected entry entry') (weaker : expected → expected') :
    SameEntry expected' entry entry' :=
  ⟨rel_mono same.coin fun same => same.mono weaker, same.dirty, same.fresh⟩

namespace Alike

variable {marked marked' : Set (COutPoint T)} {view view' after : CCoinsViewCache T}
  {outpoint : COutPoint T}

theorem refl (marked : Set (COutPoint T)) (view : CCoinsViewCache T) : Alike marked view view := by
  refine ⟨rfl, rfl, fun outpoint => ?_⟩
  cases view.cacheCoins outpoint with
  | none => exact .none
  | some entry => exact .some (.refl _ entry)

variable (alike : Alike marked view view')
include alike

theorem mono (more : marked ⊆ marked') : Alike marked' view view' :=
  ⟨alike.base, alike.mwebView, fun outpoint =>
    rel_mono (alike.entries outpoint) fun same => same.mono fun member => more member⟩

theorem setEntry {entry entry' : Option CCoinsCacheEntry}
    (same : Option.Rel (SameEntry (outpoint ∈ marked)) entry entry') :
    Alike marked (view.setEntry outpoint entry) (view'.setEntry outpoint entry') := by
  refine ⟨alike.base, alike.mwebView, fun other => ?_⟩
  by_cases here : other = outpoint
  · subst here
    rw [cacheCoins_setEntry_self, cacheCoins_setEntry_self]
    exact same
  · rw [cacheCoins_setEntry_of_ne _ _ here, cacheCoins_setEntry_of_ne _ _ here]
    exact alike.entries other

/-! ## Reading -/

/-- A fetched entry is alike, and so is the view with the entry copied. -/
theorem fetchCoin (outpoint : COutPoint T) :
    Option.Rel (fun fetched fetched' => SameEntry (outpoint ∈ marked) fetched.1 fetched'.1 ∧
      Alike marked fetched.2 fetched'.2) (view.fetchCoin outpoint) (view'.fetchCoin outpoint) := by
  unfold CCoinsViewCache.fetchCoin
  rw [alike.base]
  rcases rel_cases (alike.entries outpoint) with ⟨none, none'⟩ | ⟨entry, entry', cached,
    cached', same⟩
  · rw [none, none']
    cases view.base.getCoin outpoint with
    | none => exact .none
    | some coin => exact .some ⟨.refl _ _, alike.setEntry (.some (.refl _ _))⟩
  · rw [cached, cached']
    exact .some ⟨same, alike⟩

theorem getCoin (outpoint : COutPoint T) :
    Option.Rel (SameCoin (outpoint ∈ marked)) (view.getCoin outpoint) (view'.getCoin outpoint) := by
  unfold CCoinsViewCache.getCoin
  rcases rel_cases (alike.fetchCoin outpoint) with ⟨none, none'⟩ | ⟨entry, entry', found,
    found', same⟩
  · rw [none, none']
    exact .none
  · rw [found, found']
    exact same.1.coin

theorem haveCoin (outpoint : COutPoint T) : view'.haveCoin outpoint = view.haveCoin outpoint := by
  unfold CCoinsViewCache.haveCoin
  rcases rel_cases (alike.getCoin outpoint) with ⟨none, none'⟩ | ⟨coin, coin', found, found', -⟩
  · rw [none, none']
  · rw [found, found']
    rfl

theorem getD_getCoin {β : Type} (read : Coin → β)
    (ignores : ∀ expected coin coin', SameCoin expected coin coin' → read coin' = read coin)
    (outpoint : COutPoint T) :
    read ((view'.getCoin outpoint).getD Coin.cleared) =
      read ((view.getCoin outpoint).getD Coin.cleared) := by
  rcases rel_cases (alike.getCoin outpoint) with ⟨none, none'⟩ | ⟨coin, coin', found, found', same⟩
  · rw [none, none']
  · rw [found, found']
    exact ignores _ _ _ same

/-! ## Writing -/

theorem spendCoin {moved : Option Coin} (spent : view.spendCoin outpoint = some (moved, after)) :
    ∃ moved' after', view'.spendCoin outpoint = some (moved', after') ∧
      Alike marked after after' := by
  unfold CCoinsViewCache.spendCoin at spent ⊢
  rcases rel_cases (alike.fetchCoin outpoint) with
    ⟨none, -⟩ | ⟨fetched, fetched', found, found', same, alike⟩
  · rw [none] at spent
    cases spent
  · rw [found, Option.map_some] at spent
    rw [found']
    refine ⟨_, _, rfl, ?_⟩
    rw [← (Prod.mk.inj (Option.some.inj spent)).2, same.fresh]
    split
    · exact alike.setEntry .none
    · exact alike.setEntry (.some (.refl _ _))

theorem spendInputs {outpoints : List (COutPoint T)} {vprevout : List Coin}
    (spent : view.spendInputs outpoints = .ok (vprevout, after)) :
    ∃ vprevout' after', view'.spendInputs outpoints = .ok (vprevout', after') ∧
      Alike marked after after' := by
  induction outpoints generalizing view view' vprevout with
  | nil =>
    cases spent
    exact ⟨[], view', rfl, alike⟩
  | cons outpoint rest ih =>
    obtain ⟨moved, middle, later, first, spentRest, -⟩ := spendInputs_cons spent
    obtain ⟨moved', middle', first', alike⟩ := alike.spendCoin first
    obtain ⟨later', last', spentRest', alike⟩ := ih alike spentRest
    refine ⟨moved'.getD Coin.cleared :: later', last', ?_, alike⟩
    simp only [spendInputs, first', spentRest']
    rfl

theorem addCoin {coin coin' : Coin} {possibleOverwrite : Bool}
    (same : coin.out.scriptPubKey.isUnspendable = false → SameCoin (outpoint ∈ marked) coin coin')
    (out : coin'.out = coin.out)
    (added : view.addCoin outpoint coin possibleOverwrite = .ok after) :
    ∃ after', view'.addCoin outpoint coin' possibleOverwrite = .ok after' ∧
      Alike marked after after' := by
  have entries : SameEntry (outpoint ∈ marked) (view.entryFor outpoint)
      (view'.entryFor outpoint) := by
    unfold entryFor
    rcases rel_cases (alike.entries outpoint) with ⟨none, none'⟩ | ⟨entry, entry', cached,
      cached', same⟩
    · rw [none, none']
      exact .refl _ _
    · rw [cached, cached']
      exact same
  simp only [addCoin_eq_ok, Coin.isSpent, out] at added ⊢
  obtain ⟨unspent, ⟨unspendable, rfl⟩ | ⟨spendable, free, rfl⟩⟩ := added
  · exact ⟨view', ⟨unspent, .inl ⟨unspendable, rfl⟩⟩, alike⟩
  · refine ⟨_, ⟨unspent, .inr ⟨spendable, fun plain => ?_, rfl⟩⟩, ?_⟩
    · rcases rel_cases entries.coin with ⟨-, empty'⟩ | ⟨held, held', isCoin, -⟩
      · exact empty'
      · rw [free plain] at isCoin
        cases isCoin
    · rw [entries.fresh, entries.dirty]
      exact alike.setEntry (.some ⟨.some (same spendable), rfl, rfl⟩)

/-- Outputs are added under another flag, where the marks that it makes are expected. -/
theorem addOutputs {fCoinbase hogEx hogEx' : Bool} {nHeight i : Nat} {vout : List CTxOut}
    (expected : ∀ outpoint ∈ markedFrom txid hogEx' i vout, outpoint ∈ marked)
    (added : addOutputs txid fCoinbase hogEx nHeight view i vout = .ok after) :
    ∃ after', addOutputs txid fCoinbase hogEx' nHeight view' i vout = .ok after' ∧
      Alike marked after after' := by
  induction vout generalizing view view' i with
  | nil =>
    cases added
    exact ⟨view', rfl, alike⟩
  | cons txout rest ih =>
    simp only [addOutputs, bind_eq_ok] at added ⊢
    obtain ⟨middle, first, added⟩ := added
    let coin := newCoin fCoinbase hogEx nHeight i txout
    have same : coin.out.scriptPubKey.isUnspendable = false →
        SameCoin ((⟨txid, ofNat i⟩ : COutPoint T) ∈ marked) coin
          (newCoin fCoinbase hogEx' nHeight i txout) := by
      refine fun spendable => ⟨rfl, rfl, rfl, fun mark => .inr (expected _ ?_)⟩
      rw [markedFrom, if_pos ⟨mark, spendable⟩]
      exact mem_cons_self
    obtain ⟨middle', first', alike⟩ := alike.addCoin same rfl first
    obtain ⟨last, added', alike⟩ :=
      ih alike (fun outpoint member => expected outpoint (markedFrom_subset member)) added
    exact ⟨last, ⟨middle', first', added'⟩, alike⟩

end Alike

end MooncoinFormal.Coins
