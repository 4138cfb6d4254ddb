import MooncoinFormal.Mweb.CoinsView

/-!
# The coins of the extension block, abstractly

What a view stands for: a map from output IDs to unspent coins, the set of
unspent leaves, and the list of all output IDs ever added, which agree with each
other. Adding an output and spending a coin keep the agreement; with a header
that commits to them they are the state of the extension block.
-/

namespace MooncoinFormal.Mweb

open Primitives Mmr LeafSet Option

variable {T : CryptoTypes}

/-- Coins, unspent leaves and leaves that agree: a coin stands at its leaf, and
an unspent leaf has a coin. -/
@[ext] structure CoinSet (crypto : Crypto T) where
  coins : T.Hash → Option (UTXO T)
  unspent : Nat → Bool
  leaves : List T.Hash
  coin_leaf : ∀ id utxo, coins id = some utxo →
    crypto.hashOutput utxo.output = id ∧ unspent utxo.leafIndex = true ∧
      leaves[utxo.leafIndex]? = some id
  leaf_coin : ∀ i, unspent i = true → ∃ id utxo, coins id = some utxo ∧ utxo.leafIndex = i

namespace CoinSet

variable {crypto : Crypto T}

def empty : CoinSet crypto where
  coins _ := none
  unspent _ := false
  leaves := []
  coin_leaf _ _ found := by cases found
  leaf_coin _ set := by cases set

section

variable (set : CoinSet crypto)
include set

theorem unspent_lt {i : Nat} (unspent : set.unspent i = true) : i < set.leaves.length := by
  obtain ⟨id, utxo, found, rfl⟩ := set.leaf_coin i unspent
  exact (List.getElem?_eq_some_iff.mp (set.coin_leaf id utxo found).2.2).1

theorem leafIndex_lt {id : T.Hash} {utxo : UTXO T}
    (found : set.coins id = some utxo) : utxo.leafIndex < set.leaves.length :=
  set.unspent_lt (set.coin_leaf id utxo found).2.1

theorem eq_of_leafIndex {id other : T.Hash} {utxo utxo' : UTXO T}
    (found : set.coins id = some utxo) (found' : set.coins other = some utxo')
    (same : utxo.leafIndex = utxo'.leafIndex) : id = other := by
  have first := (set.coin_leaf id utxo found).2.2
  rw [same, (set.coin_leaf other utxo' found').2.2] at first
  exact (some.inj first).symm

theorem eq_empty (none_added : set.leaves = []) : set = empty := by
  have no_coins : ∀ id, set.coins id = none := by
    intro id
    cases found : set.coins id with
    | none => rfl
    | some utxo =>
      have inside := set.leafIndex_lt found
      rw [none_added] at inside
      cases inside
  have no_bits : ∀ i, set.unspent i = false := by
    intro i
    cases bit : set.unspent i with
    | false => rfl
    | true =>
      obtain ⟨id, utxo, found, -⟩ := set.leaf_coin i bit
      rw [no_coins id] at found
      cases found
  exact CoinSet.ext (funext no_coins) (funext no_bits) none_added

end

/-! ## Adding outputs and spending coins -/

def add (set : CoinSet crypto) (height : Int32) (output : Output T)
    (fresh : set.coins (crypto.hashOutput output) = none) : CoinSet crypto where
  coins id := if id = crypto.hashOutput output then some ⟨height, set.leaves.length, output⟩
    else set.coins id
  unspent i := decide (i = set.leaves.length) || set.unspent i
  leaves := set.leaves ++ [crypto.hashOutput output]
  coin_leaf id utxo found := by
    split at found
    · rename_i same
      cases found
      simp [same]
    · obtain ⟨hash, unspent, leaf⟩ := set.coin_leaf id utxo found
      have inside := set.leafIndex_lt found
      refine ⟨hash, by rw [unspent, Bool.or_true], ?_⟩
      rw [List.getElem?_append_left inside, leaf]
  leaf_coin i unspent := by
    rcases Bool.or_eq_true _ _ ▸ unspent with last | before
    · exact ⟨_, _, if_pos rfl, (of_decide_eq_true last).symm⟩
    · obtain ⟨id, utxo, found, leaf⟩ := set.leaf_coin i before
      refine ⟨id, utxo, ?_, leaf⟩
      rw [if_neg, found]
      rintro rfl
      rw [fresh] at found
      cases found

def spend (set : CoinSet crypto) (outputId : T.Hash) (utxo : UTXO T)
    (found : set.coins outputId = some utxo) : CoinSet crypto where
  coins id := if id = outputId then none else set.coins id
  unspent i := !decide (utxo.leafIndex = i) && set.unspent i
  leaves := set.leaves
  coin_leaf id other held := by
    split at held
    · cases held
    rename_i different
    obtain ⟨hash, unspent, leaf⟩ := set.coin_leaf id other held
    refine ⟨hash, ?_, leaf⟩
    have apart : utxo.leafIndex ≠ other.leafIndex :=
      fun same => different (set.eq_of_leafIndex held found same.symm)
    rw [unspent, decide_eq_false apart]
    rfl
  leaf_coin i unspent := by
    obtain ⟨apart, unspent⟩ := Bool.and_eq_true _ _ ▸ unspent
    obtain ⟨id, other, held, rfl⟩ := set.leaf_coin i unspent
    refine ⟨id, other, ?_, rfl⟩
    rw [if_neg, held]
    rintro rfl
    rw [found] at held
    cases held
    simp at apart

/-- Add outputs in order, as long as their IDs have no coin. -/
def addOutputs (height : Int32) : CoinSet crypto → List (Output T) → Option (CoinSet crypto)
  | set, [] => some set
  | set, output :: rest =>
    if fresh : set.coins (crypto.hashOutput output) = none then
      addOutputs height (set.add height output fresh) rest
    else none

/-- Spend coins in order, as long as there is one for each ID. -/
def spendInputs : CoinSet crypto → List T.Hash → Option (List (UTXO T) × CoinSet crypto)
  | set, [] => some ([], set)
  | set, outputId :: rest =>
    match found : set.coins outputId with
    | none => none
    | some utxo =>
      (spendInputs (set.spend outputId utxo found) rest).map fun result =>
        (utxo :: result.1, result.2)

variable {set set' : CoinSet crypto} {outputs : List (Output T)}

/-- Adding outputs appends their IDs, which were fresh and distinct. -/
theorem addOutputs_spec {height : Int32} (added : set.addOutputs height outputs = some set') :
    set'.leaves = set.leaves ++ outputs.map crypto.hashOutput ∧
      (outputs.map crypto.hashOutput).Nodup ∧
      (∀ id, id ∈ outputs.map crypto.hashOutput → set.coins id = none ∧ set'.coins id ≠ none) ∧
      (∀ id, id ∉ outputs.map crypto.hashOutput → set'.coins id = set.coins id) ∧
      ∀ i, i < set.leaves.length → set'.unspent i = set.unspent i := by
  induction outputs generalizing set with
  | nil =>
    cases added
    simp
  | cons output rest ih =>
    rw [addOutputs] at added
    split at added
    · rename_i fresh
      obtain ⟨leaves, nodup, inside, outside, bits⟩ := ih added
      have first : crypto.hashOutput output ∉ rest.map crypto.hashOutput := by
        intro again
        have gone := (inside _ again).1
        simp [add] at gone
      refine ⟨by simp [leaves, add], by simpa using ⟨by simpa using first, nodup⟩, ?_, ?_, ?_⟩
      · intro id member
        rcases List.mem_cons.mp member with rfl | later
        · exact ⟨fresh, by rw [outside _ first]; simp [add]⟩
        · obtain ⟨before, after⟩ := inside id later
          refine ⟨?_, after⟩
          simp only [add] at before
          split at before
          · cases before
          · exact before
      · intro id absent
        rw [List.map_cons, List.mem_cons, not_or] at absent
        rw [outside id absent.2]
        exact if_neg absent.1
      · intro i low
        rw [bits i (by simp [add]; omega)]
        simp [add, Nat.ne_of_lt low]
    · cases added

/-- Spending takes the coins away, and their leaves out of the unspent ones. -/
theorem spendInputs_spec {ids : List T.Hash} {spent : List (UTXO T)}
    (done : set.spendInputs ids = some (spent, set')) :
    set'.leaves = set.leaves ∧ ids.Nodup ∧
      spent.map (fun utxo => crypto.hashOutput utxo.output) = ids ∧
      (∀ utxo ∈ spent, set.coins (crypto.hashOutput utxo.output) = some utxo) ∧
      (∀ id, set'.coins id = if id ∈ ids then none else set.coins id) ∧
      ∀ i, set'.unspent i = (!decide (i ∈ spent.map UTXO.leafIndex) && set.unspent i) := by
  induction ids generalizing set spent with
  | nil =>
    cases done
    simp
  | cons outputId rest ih =>
    rw [spendInputs] at done
    split at done
    · cases done
    rename_i utxo found
    obtain ⟨⟨others, after⟩, rest_done, pair⟩ := map_eq_some_iff.mp done
    cases pair
    obtain ⟨leaves, nodup, hashes, held, coins, bits⟩ := ih rest_done
    have hash := (set.coin_leaf outputId utxo found).1
    have other : outputId ∉ rest := by
      intro again
      rw [← hashes, List.mem_map] at again
      obtain ⟨coin, member, same⟩ := again
      have gone := held coin member
      simp [spend, same] at gone
    refine ⟨leaves, List.nodup_cons.mpr ⟨other, nodup⟩, by simp [hash, hashes], ?_, ?_, ?_⟩
    · intro coin member
      rcases List.mem_cons.mp member with rfl | later
      · rw [hash, found]
      · have before := held coin later
        simp only [spend] at before
        split at before
        · cases before
        · exact before
    · intro id
      rw [coins id]
      by_cases first : id = outputId
      · simp [first, spend]
      · simp [first, spend]
    · intro i
      rw [bits i]
      by_cases first : utxo.leafIndex = i
      · simp [first, spend]
      · simp [first, Ne.symm first, spend]

variable {set : CoinSet crypto}

theorem exists_addOutputs {height : Int32} (nodup : (outputs.map crypto.hashOutput).Nodup)
    (fresh : ∀ id ∈ outputs.map crypto.hashOutput, set.coins id = none) :
    ∃ set', set.addOutputs height outputs = some set' := by
  induction outputs generalizing set with
  | nil => exact ⟨set, rfl⟩
  | cons output rest ih =>
    rw [List.map_cons, List.nodup_cons] at nodup
    have first := fresh _ List.mem_cons_self
    have later : ∀ id ∈ rest.map crypto.hashOutput,
        (set.add height output first).coins id = none := by
      intro id member
      have apart : id ≠ crypto.hashOutput output := fun same => nodup.1 (same ▸ member)
      exact (if_neg apart).trans (fresh id (List.mem_cons_of_mem _ member))
    obtain ⟨set', added⟩ := ih nodup.2 later
    exact ⟨set', by rw [addOutputs, dif_pos first, added]⟩

theorem exists_spendInputs {ids : List T.Hash} (nodup : ids.Nodup)
    (held : ∀ id ∈ ids, set.coins id ≠ none) : ∃ result, set.spendInputs ids = some result := by
  induction ids generalizing set with
  | nil => exact ⟨_, rfl⟩
  | cons outputId rest ih =>
    rw [List.nodup_cons] at nodup
    rw [spendInputs]
    split
    · rename_i missing
      exact absurd missing (held outputId List.mem_cons_self)
    · rename_i utxo found
      have later : ∀ id ∈ rest, (set.spend outputId utxo found).coins id ≠ none := by
        intro id member
        have apart : id ≠ outputId := fun same => nodup.1 (same ▸ member)
        have kept : (set.spend outputId utxo found).coins id = set.coins id := if_neg apart
        rw [kept]
        exact held id (List.mem_cons_of_mem _ member)
      obtain ⟨result, spent⟩ := ih nodup.2 later
      exact ⟨_, by rw [spent]; rfl⟩

/-! ## The state of the extension block -/

/-- The header commits to the leaves and to which of them are unspent. -/
def Matches (set : CoinSet crypto) (header : Header T) : Prop :=
  header.outputRoot = rootOf crypto.outputMmr T.zeroHash set.leaves ∧
    header.numTXOs = set.leaves.length ∧
    header.leafsetRoot = crypto.hashLeafset (rootBytes (packBits set.unspent) set.leaves.length)

end CoinSet

/-- Coins with the best header that commits to them; before the first extension
block there is neither. -/
structure ViewState (crypto : Crypto T) where
  header : Option (Header T)
  set : CoinSet crypto
  committed : ∀ best, header = some best → set.Matches best
  unstarted : header = none → set.leaves = []

/-- The state under a header that commits to the coin set. -/
def CoinSet.under {crypto : Crypto T} (set : CoinSet crypto) (header : Header T)
    (fits : set.Matches header) : ViewState crypto where
  header := some header
  set := set
  committed _ same := some.inj same ▸ fits
  unstarted absurd := by cases absurd

end MooncoinFormal.Mweb
