import Mathlib
import MooncoinFormal.Coins.Update

/-!
# The total value of the coins

A cache that adds a coin where only the view below has one marks it as fresh, and
spending it brings the coin below back. The value that such entries hide is counted
with the coins: then every coin that is spent takes its value off, and every coin that
is added brings no more than its value, whatever was at its outpoint before.
-/

namespace MooncoinFormal.Coins

open Primitives Library.Checks List Bool

variable {T : CryptoTypes}

theorem finsum_of_agree {α : Type} {f g : α → Int} {a : α} (finite : f.support.Finite)
    (agree : ∀ b, b ≠ a → g b = f b) : g.support.Finite ∧ ∑ᶠ b, g b = ∑ᶠ b, f b + (g a - f a) := by
  have single : (fun b => g b - f b).support ⊆ {a} := by
    intro b nonzero
    by_contra other
    exact nonzero (sub_eq_zero.mpr (agree b other))
  have small : (fun b => g b - f b).support.Finite := (Set.finite_singleton a).subset single
  have split : g = fun b => f b + (g b - f b) := by
    funext b
    omega
  constructor
  · rw [split]
    exact (finite.union small).subset (Function.support_add _ _)
  · calc ∑ᶠ b, g b = ∑ᶠ b, (f b + (g b - f b)) := by rw [← split]
      _ = ∑ᶠ b, f b + ∑ᶠ b, (g b - f b) := finsum_add_distrib finite small
      _ = ∑ᶠ b, f b + (g a - f a) := by
          rw [finsum_eq_single (fun b => g b - f b) a fun b other =>
            sub_eq_zero.mpr (agree b other)]

def valueOf : Option Coin → Int
  | none => 0
  | some coin => coin.out.nValue.toInt

variable (view : CCoinsViewCache T) {vprevout : List Coin}

namespace CCoinsViewCache

noncomputable def totalValue : Int :=
  ∑ᶠ outpoint, valueOf (view.getCoin outpoint)

/-- The value at an outpoint, with what a fresh entry hides. -/
def held (outpoint : COutPoint T) : Int :=
  match view.cacheCoins outpoint with
  | none => valueOf (view.base.getCoin outpoint)
  | some entry =>
    valueOf entry.coin + if entry.fresh then valueOf (view.base.getCoin outpoint) else 0

/-- Clean entries repeat the view below, and no value that is counted is negative. -/
structure Accounted : Prop where
  clean : ∀ outpoint entry, view.cacheCoins outpoint = some entry → entry.dirty = false →
    entry.coin = view.base.getCoin outpoint
  visible : ∀ outpoint, 0 ≤ valueOf (view.getCoin outpoint)
  hidden : ∀ outpoint entry, view.cacheCoins outpoint = some entry → entry.fresh = true →
    0 ≤ valueOf (view.base.getCoin outpoint)
  finite : view.held.support.Finite

variable {view view' : CCoinsViewCache T} {outpoint : COutPoint T} {other : COutPoint T}
  (entry : Option CCoinsCacheEntry)

theorem held_setEntry_of_ne (differ : other ≠ outpoint) :
    (view.setEntry outpoint entry).held other = view.held other := by
  rw [held, held, cacheCoins_setEntry_of_ne view entry differ]
  rfl

/-- An entry that keeps the account. -/
theorem Accounted.setEntry (accounted : view.Accounted) (outpoint : COutPoint T)
    (entry : Option CCoinsCacheEntry) (dirty : ∀ found, entry = some found → found.dirty = true)
    (visible : ∀ found, entry = some found → 0 ≤ valueOf found.coin)
    (hidden : (entry = none ∨ ∃ found, entry = some found ∧ found.fresh = true) →
      0 ≤ valueOf (view.base.getCoin outpoint)) :
    (view.setEntry outpoint entry).Accounted ∧
      ∑ᶠ place, (view.setEntry outpoint entry).held place =
        ∑ᶠ place, view.held place + ((view.setEntry outpoint entry).held outpoint -
          view.held outpoint) := by
  obtain ⟨finite, total⟩ := finsum_of_agree accounted.finite
    fun place differ => @held_setEntry_of_ne _ view _ place entry differ
  refine ⟨⟨?_, ?_, ?_, finite⟩, total⟩
  · intro place found cached clean
    rcases cacheCoins_setEntry_cases cached with ⟨rfl, new⟩ | before
    · rw [dirty found new] at clean
      cases clean
    · exact accounted.clean place found before clean
  · intro place
    rw [getCoin_setEntry]
    split
    · cases entry with
      | none => exact hidden (.inl rfl)
      | some found => exact visible found rfl
    · exact accounted.visible place
  · intro place found cached fresh
    rcases cacheCoins_setEntry_cases cached with ⟨rfl, new⟩ | before
    · exact hidden (.inr ⟨found, new, fresh⟩)
    · exact accounted.hidden place found before fresh

theorem held_setEntry_self :
    (view.setEntry outpoint entry).held outpoint =
      match entry with
      | none => valueOf (view.base.getCoin outpoint)
      | some entry =>
        valueOf entry.coin + if entry.fresh then valueOf (view.base.getCoin outpoint) else 0 := by
  rw [held, cacheCoins_setEntry_self]
  rfl

theorem getCoin_setEntry_of_ne (differ : other ≠ outpoint) :
    (view.setEntry outpoint entry).getCoin other = view.getCoin other := by
  rw [getCoin_setEntry, if_neg differ]

section

variable (accounted : view.Accounted)
include accounted

/-- A coin that is spent takes its value off. -/
theorem Accounted.spendCoin {moved : Option Coin}
    (spent : view.spendCoin outpoint = some (moved, view')) :
    moved = view.getCoin outpoint ∧ view'.Accounted ∧
      (∀ other, other ≠ outpoint → view'.getCoin other = view.getCoin other) ∧
      ∑ᶠ place, view'.held place = ∑ᶠ place, view.held place - valueOf moved := by
  obtain ⟨rfl, ⟨entry, cached, fresh, rfl⟩ | ⟨stale, rfl⟩⟩ := spendCoin_cases spent
  · -- the coin below comes back
    obtain ⟨kept, total⟩ :=
      accounted.setEntry outpoint none nofun nofun fun _ => accounted.hidden _ _ cached fresh
    refine ⟨rfl, kept, fun other differ => getCoin_setEntry_of_ne _ differ, ?_⟩
    rw [total, held_setEntry_self, held, cached, getCoin_of_entry cached]
    simp [fresh, sub_eq_add_neg]
  · obtain ⟨kept, total⟩ := accounted.setEntry outpoint (some ⟨none, true, false⟩)
      (by rintro _ ⟨⟩; rfl) (by rintro _ ⟨⟩; exact le_rfl) (by rintro (⟨⟨⟩⟩ | ⟨_, ⟨⟩, ⟨⟩⟩))
    refine ⟨rfl, kept, fun other differ => getCoin_setEntry_of_ne _ differ, ?_⟩
    have here : view.held outpoint = valueOf (view.getCoin outpoint) := by
      cases cached : view.cacheCoins outpoint with
      | none => rw [held, cached, getCoin_of_absent cached]
      | some entry => simp [held, cached, getCoin_of_entry cached, stale entry cached]
    rw [total, held_setEntry_self, here]
    simp [valueOf, sub_eq_add_neg]

/-- A coin that is added brings no more than its value. -/
theorem Accounted.addCoin {coin : Coin} {possibleOverwrite : Bool}
    (nonneg : 0 ≤ coin.out.nValue.toInt)
    (added : view.addCoin outpoint coin possibleOverwrite = .ok view') :
    view'.Accounted ∧
      ∑ᶠ place, view'.held place ≤ ∑ᶠ place, view.held place + coin.out.nValue.toInt := by
  obtain ⟨-, ⟨-, rfl⟩ | ⟨-, free, rfl⟩⟩ := addCoin_eq_ok.mp added
  · exact ⟨accounted, by omega⟩
  -- the entry that was there is empty, or may be overwritten
  have visible := accounted.visible outpoint
  generalize fresh_eq : ((view.entryFor outpoint).fresh ||
    !possibleOverwrite && !(view.entryFor outpoint).dirty) = fresh
  have covered : (fresh = true → 0 ≤ valueOf (view.base.getCoin outpoint)) ∧
      (if fresh then valueOf (view.base.getCoin outpoint) else 0) ≤ view.held outpoint := by
    cases cached : view.cacheCoins outpoint with
    | none =>
      rw [getCoin_of_absent cached] at visible
      rw [held, cached]
      refine ⟨fun _ => visible, ?_⟩
      dsimp only
      split <;> omega
    | some entry =>
      rw [getCoin_of_entry cached] at visible
      simp only [entryFor, cached, Option.getD_some] at fresh_eq free
      rw [held, cached]
      cases isFresh : entry.fresh with
      | true =>
        have hidden := accounted.hidden _ _ cached isFresh
        refine ⟨fun _ => hidden, ?_⟩
        dsimp only
        split <;> omega
      | false =>
        rw [isFresh, Bool.false_or] at fresh_eq
        subst fresh_eq
        simp only [and_eq_true, not_eq_true', isFresh, false_eq_true, if_false]
        -- a clean entry is empty only where there is nothing below
        have nothing : possibleOverwrite = false ∧ entry.dirty = false →
            valueOf (view.base.getCoin outpoint) = 0 := by
          rintro ⟨plain, clean⟩
          rw [← accounted.clean _ _ cached clean, free plain]
          rfl
        refine ⟨fun both => (nothing both).ge, ?_⟩
        split
        · rename_i both
          rw [nothing both]
          omega
        · omega
  obtain ⟨kept, total⟩ := accounted.setEntry outpoint
    (some ⟨some coin, true, fresh⟩) (by rintro _ ⟨⟩; rfl)
    (by rintro _ ⟨⟩; exact nonneg) (by rintro (⟨⟨⟩⟩ | ⟨_, ⟨⟩, isFresh⟩); exact covered.1 isFresh)
  refine ⟨kept, ?_⟩
  rw [total, held_setEntry_self]
  have bound := covered.2
  simp only [valueOf] at bound ⊢
  omega

/-! ## Transactions -/

theorem Accounted.spendInputs {outpoints : List (COutPoint T)} (nodup : outpoints.Nodup)
    (spent : view.spendInputs outpoints = .ok (vprevout, view')) :
    view'.Accounted ∧ ∑ᶠ place, view'.held place =
      ∑ᶠ place, view.held place - (outpoints.map fun outpoint =>
        valueOf (view.getCoin outpoint)).sum := by
  induction outpoints generalizing view vprevout with
  | nil =>
    cases spent
    exact ⟨accounted, by simp⟩
  | cons outpoint rest ih =>
    obtain ⟨moved, middle, later, first, spentRest, rfl⟩ := CCoinsViewCache.spendInputs_cons spent
    obtain ⟨rfl, kept, others, total⟩ := accounted.spendCoin first
    obtain ⟨absent, nodup⟩ := nodup_cons.mp nodup
    obtain ⟨kept', total'⟩ := ih kept nodup spentRest
    refine ⟨kept', ?_⟩
    have same : rest.map (fun outpoint => valueOf (middle.getCoin outpoint)) =
        rest.map fun outpoint => valueOf (view.getCoin outpoint) := by
      refine map_congr_left fun other member => ?_
      rw [others other fun same => absent (same ▸ member)]
    rw [total', total, same, map_cons, sum_cons]
    omega

theorem Accounted.addOutputs {txid : T.Hash} {fCoinbase hogEx : Bool} {nHeight i : Nat}
    {vout : List CTxOut} (nonneg : ∀ txout ∈ vout, 0 ≤ txout.nValue.toInt)
    (added : CCoinsViewCache.addOutputs txid fCoinbase hogEx nHeight view i vout = .ok view') :
    view'.Accounted ∧ ∑ᶠ place, view'.held place ≤
      ∑ᶠ place, view.held place + (vout.map fun txout => txout.nValue.toInt).sum := by
  induction vout generalizing view i with
  | nil =>
    cases added
    exact ⟨accounted, by simp⟩
  | cons txout rest ih =>
    simp only [CCoinsViewCache.addOutputs, bind_eq_ok] at added
    obtain ⟨middle, first, later⟩ := added
    obtain ⟨here, others⟩ := forall_mem_cons.mp nonneg
    obtain ⟨kept, total⟩ := accounted.addCoin
      (show 0 ≤ (newCoin _ _ _ _ txout).out.nValue.toInt from here) first
    obtain ⟨kept', total'⟩ := ih kept others later
    refine ⟨kept', ?_⟩
    simp only [newCoin] at total
    rw [map_cons, sum_cons]
    omega

/-- A transaction takes off what it spends and brings no more than its outputs. -/
theorem Accounted.updateCoins {crypto : BlockCrypto T} {tx : CTransaction T} {nHeight : Nat}
    (plain : tx.mwebTx = none) (nodup : (spentOutPoints tx).Nodup)
    (nonneg : ∀ txout ∈ tx.vout, 0 ≤ txout.nValue.toInt)
    (updated : view.updateCoins crypto tx nHeight = .ok (vprevout, view')) :
    view'.Accounted ∧ ∑ᶠ place, view'.held place ≤ ∑ᶠ place, view.held place -
      ((spentOutPoints tx).map fun outpoint => valueOf (view.getCoin outpoint)).sum +
      (tx.vout.map fun txout => txout.nValue.toInt).sum := by
  obtain ⟨middle, spent, added⟩ := (updateCoins_eq_ok plain).mp updated
  obtain ⟨kept, total⟩ := accounted.spendInputs nodup spent
  obtain ⟨kept', total'⟩ := kept.addOutputs nonneg added
  exact ⟨kept', by omega⟩

end

/-! ## Views without hidden coins -/

/-- Where no fresh entry hides a coin, the account is that of the coins. -/
theorem Coherent.accounted (coherent : view.Coherent)
    (finite : {outpoint | view.getCoin outpoint ≠ none}.Finite)
    (range : ∀ outpoint coin, view.getCoin outpoint = some coin →
      moneyRange coin.out.nValue = true) :
    view.Accounted ∧ ∑ᶠ outpoint, view.held outpoint = view.totalValue := by
  have held_eq : view.held = fun outpoint => valueOf (view.getCoin outpoint) := by
    funext outpoint
    rw [held]
    cases cached : view.cacheCoins outpoint with
    | none => rw [getCoin_of_absent cached]
    | some entry =>
      rw [getCoin_of_entry cached]
      cases fresh : entry.fresh with
      | false => simp [fresh]
      | true => simp [coherent.fresh _ _ cached fresh, valueOf]
  have visible : ∀ outpoint, 0 ≤ valueOf (view.getCoin outpoint) := by
    intro outpoint
    cases found : view.getCoin outpoint with
    | none => exact le_rfl
    | some coin => exact ((moneyRange_iff _).mp (range outpoint coin found)).1
  refine ⟨⟨coherent.clean, visible, fun outpoint entry cached fresh => ?_, ?_⟩, ?_⟩
  · rw [coherent.fresh _ _ cached fresh]
    exact le_rfl
  · rw [held_eq]
    refine finite.subset fun outpoint nonzero empty => nonzero ?_
    simp only [empty]
    rfl
  · rw [held_eq, totalValue]

theorem Accounted.totalValue_le (accounted : view.Accounted) :
    view.totalValue ≤ ∑ᶠ outpoint, view.held outpoint := by
  have below : ∀ outpoint, valueOf (view.getCoin outpoint) ≤ view.held outpoint := by
    intro outpoint
    rw [held]
    cases cached : view.cacheCoins outpoint with
    | none => rw [getCoin_of_absent cached]
    | some entry =>
      rw [getCoin_of_entry cached]
      cases fresh : entry.fresh with
      | false => simp [fresh]
      | true =>
        have hidden := accounted.hidden _ _ cached fresh
        simpa [fresh] using hidden
  have visible : (fun outpoint => valueOf (view.getCoin outpoint)).support.Finite := by
    refine accounted.finite.subset fun outpoint nonzero zero => nonzero ?_
    exact le_antisymm (zero ▸ below outpoint) (accounted.visible outpoint)
  have rest : 0 ≤ ∑ᶠ outpoint, (view.held outpoint - valueOf (view.getCoin outpoint)) :=
    finsum_nonneg fun outpoint => sub_nonneg.mpr (below outpoint)
  rw [finsum_sub_distrib accounted.finite visible] at rest
  exact sub_nonneg.mp rest

end CCoinsViewCache

end MooncoinFormal.Coins
