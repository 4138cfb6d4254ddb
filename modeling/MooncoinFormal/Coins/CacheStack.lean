import MooncoinFormal.Coins.View
import MooncoinFormal.Primitives.Numeric

/-!
# Caches over caches

Any number of `CCoinsViewCache` objects lie over one view that stores coins. A
lookup copies what it finds into every cache it passes, and a flush hands the dirty
entries of one cache to the cache below. The caches are compared with a plain map
for each of them. A cache shows the map of the one below changed by its own entries,
a flush copies a map down, and no other operation but adding and spending a coin
changes a map.

An entry of a cache hides what happens below it. A coin is therefore changed only
where no cache above has an entry for it, which is always so in the cache on top.
-/

namespace MooncoinFormal.Coins

open Primitives Library.Checks List Function AList Option

variable {T : CryptoTypes}

abbrev CCoinsMap (T : CryptoTypes) := AList fun _ : COutPoint T => CCoinsCacheEntry

/-- The coins a view shows. -/
abbrev CoinMap (T : CryptoTypes) := COutPoint T → Option Coin

/-- What the cache throws, or a failed assertion. -/
inductive CacheError where
  | assertion
  | overwrite
  | misapplied
  deriving DecidableEq

/-! ## The caches -/

/-- A view that stores coins, or a cache over another view. What is stored may be
found as a spent coin. -/
inductive CoinsStack (T : CryptoTypes) where
  | backing (stored : COutPoint T → Option (Option Coin)) (hashBlock : T.Hash)
  | cache (cacheCoins : CCoinsMap T) (hashBlock : T.Hash) (base : CoinsStack T)

variable (cacheCoins : CCoinsMap T) (hashBlock : T.Hash) (base : CoinsStack T)

variable (outpoint : COutPoint T)

namespace CoinsStack

/-- `FetchCoin`, where the view below answers with what it found. -/
def fetchFrom (found : Option (Option Coin) × CoinsStack T) (cacheCoins : CCoinsMap T)
    (base : CoinsStack T) (outpoint : COutPoint T) :
    Option CCoinsCacheEntry × CCoinsMap T × CoinsStack T :=
  match cacheCoins.lookup outpoint with
  | some entry => (some entry, cacheCoins, base)
  | none =>
    match found.1 with
    | none => (none, cacheCoins, found.2)
    | some coin =>
      -- The view below has an empty entry only; this one is fresh then.
      let entry : CCoinsCacheEntry := ⟨coin, false, coin.isNone⟩
      (some entry, cacheCoins.insert outpoint entry, found.2)

def getCoin : CoinsStack T → COutPoint T → Option (Option Coin) × CoinsStack T
  | .backing stored hashBlock, outpoint => (stored outpoint, .backing stored hashBlock)
  | .cache cacheCoins hashBlock base, outpoint =>
    let fetched := fetchFrom (getCoin base outpoint) cacheCoins base outpoint
    ((fetched.1.bind CCoinsCacheEntry.coin).map some, .cache fetched.2.1 hashBlock fetched.2.2)

def fetchCoin : Option CCoinsCacheEntry × CCoinsMap T × CoinsStack T :=
  fetchFrom (base.getCoin outpoint) cacheCoins base outpoint

/-- `AccessCoin`, with none for the empty coin. -/
def accessCoin : Option Coin × CoinsStack T :=
  let fetched := fetchCoin cacheCoins base outpoint
  (fetched.1.bind CCoinsCacheEntry.coin, .cache fetched.2.1 hashBlock fetched.2.2)

def haveCoin : Bool × CoinsStack T :=
  let fetched := fetchCoin cacheCoins base outpoint
  (fetched.1.any fun entry => entry.coin.isSome, .cache fetched.2.1 hashBlock fetched.2.2)

def addCoin (coin : Coin) (possibleOverwrite : Bool) : Except CacheError (CCoinsMap T) := do
  ensure (coin.isSpent = false) .assertion
  if coin.out.scriptPubKey.isUnspendable then .ok cacheCoins
  else
    let entry := (cacheCoins.lookup outpoint).getD ⟨none, false, false⟩
    if possibleOverwrite then .ok (cacheCoins.insert outpoint ⟨some coin, true, entry.fresh⟩)
    else do
      ensure (entry.coin = none) .overwrite
      .ok (cacheCoins.insert outpoint ⟨some coin, true, entry.fresh || !entry.dirty⟩)

/-- `SpendCoin`, with the coin it moves out when it finds an entry. -/
def spendCoin : Option (Option Coin) × CoinsStack T :=
  let fetched := fetchCoin cacheCoins base outpoint
  match fetched.1 with
  | none => (none, .cache fetched.2.1 hashBlock fetched.2.2)
  | some entry =>
    let spent :=
      if entry.fresh then fetched.2.1.erase outpoint
      else fetched.2.1.insert outpoint ⟨none, true, false⟩
    (some entry.coin, .cache spent hashBlock fetched.2.2)

def uncache : CCoinsMap T :=
  match cacheCoins.lookup outpoint with
  | none => cacheCoins
  | some entry =>
    if entry.dirty = false ∧ entry.fresh = false then cacheCoins.erase outpoint else cacheCoins

/-- One pass of the loop of `BatchWrite`. -/
def writeEntry (written : Sigma fun _ : COutPoint T => CCoinsCacheEntry) :
    Except CacheError (CCoinsMap T) :=
  let entry := written.2
  if entry.dirty = false then .ok cacheCoins
  else
    match cacheCoins.lookup written.1 with
    | none =>
      if entry.fresh = true ∧ entry.coin = none then .ok cacheCoins
      else .ok (cacheCoins.insert written.1 ⟨entry.coin, true, entry.fresh⟩)
    | some us =>
      if entry.fresh = true ∧ us.coin ≠ none then .error .misapplied
      else if us.fresh = true ∧ entry.coin = none then .ok (cacheCoins.erase written.1)
      else .ok (cacheCoins.insert written.1 ⟨entry.coin, true, us.fresh⟩)

variable (mapCoins : CCoinsMap T)

/-- The loop of `CCoinsViewDB::BatchWrite`: a dirty entry is stored, or erased when
it is spent. -/
def storeDirty (stored : COutPoint T → Option (Option Coin)) :
    COutPoint T → Option (Option Coin) := fun outpoint =>
  match mapCoins.lookup outpoint with
  | some entry => if entry.dirty then entry.coin.map some else stored outpoint
  | none => stored outpoint

def batchWrite (hashBlock : T.Hash) :
    CoinsStack T → Except CacheError (CoinsStack T)
  | .backing stored _ => .ok (.backing (storeDirty mapCoins stored) hashBlock)
  | .cache cacheCoins _ base => do
      let cacheCoins ← mapCoins.entries.foldlM writeEntry cacheCoins
      .ok (.cache cacheCoins hashBlock base)

def flush : Except CacheError (CoinsStack T) := do
  let base ← base.batchWrite cacheCoins hashBlock
  .ok (.cache ∅ hashBlock base)

end CoinsStack

/-! ## Operations on a stack -/

/-- An operation on the cache at a depth, counted from the top, or on the stack. -/
inductive CacheOperation (T : CryptoTypes) where
  | addCoin (depth : Nat) (outpoint : COutPoint T) (coin : Coin) (possibleOverwrite : Bool)
  | spendCoin (depth : Nat) (outpoint : COutPoint T)
  | accessCoin (depth : Nat) (outpoint : COutPoint T)
  | haveCoin (depth : Nat) (outpoint : COutPoint T)
  | uncache (depth : Nat) (outpoint : COutPoint T)
  | flush (depth : Nat)
  /-- A new cache over the stack. -/
  | push
  /-- The cache on top goes out of scope. -/
  | pop

inductive CacheAnswer where
  | done
  | coin (found : Option Coin)
  | has (found : Bool)
  | threw (error : CacheError)
  deriving DecidableEq

variable (stack : CoinsStack T)

namespace CoinsStack

/-- The stack after an operation that may throw; one that throws is not carried on. -/
def orThrow : Except CacheError (CoinsStack T) → CacheAnswer × CoinsStack T
  | .ok stack' => (.done, stack')
  | .error error => (.threw error, stack)

def atDepth (act : CCoinsMap T → T.Hash → CoinsStack T → CacheAnswer × CoinsStack T) :
    Nat → CoinsStack T → CacheAnswer × CoinsStack T
  | _, .backing stored hashBlock => (.done, .backing stored hashBlock)
  | 0, .cache cacheCoins hashBlock base => act cacheCoins hashBlock base
  | depth + 1, .cache cacheCoins hashBlock base =>
    let acted := atDepth act depth base
    (acted.1, .cache cacheCoins hashBlock acted.2)

def step : CacheOperation T → CoinsStack T → CacheAnswer × CoinsStack T
  | .addCoin depth outpoint coin possibleOverwrite =>
    atDepth (fun cacheCoins hashBlock base =>
      orThrow (.cache cacheCoins hashBlock base)
        ((addCoin cacheCoins outpoint coin possibleOverwrite).map (.cache · hashBlock base))) depth
  | .spendCoin depth outpoint =>
    atDepth (fun cacheCoins hashBlock base =>
      let spent := spendCoin cacheCoins hashBlock base outpoint
      (.coin spent.1.join, spent.2)) depth
  | .accessCoin depth outpoint =>
    atDepth (fun cacheCoins hashBlock base =>
      let found := accessCoin cacheCoins hashBlock base outpoint
      (.coin found.1, found.2)) depth
  | .haveCoin depth outpoint =>
    atDepth (fun cacheCoins hashBlock base =>
      let found := haveCoin cacheCoins hashBlock base outpoint
      (.has found.1, found.2)) depth
  | .uncache depth outpoint =>
    atDepth (fun cacheCoins hashBlock base =>
      (.done, .cache (uncache cacheCoins outpoint) hashBlock base)) depth
  | .flush depth =>
    atDepth (fun cacheCoins hashBlock base =>
      orThrow (.cache cacheCoins hashBlock base) (flush cacheCoins hashBlock base)) depth
  | .push => fun stack => (.done, .cache ∅ T.zeroHash stack)
  | .pop => fun stack =>
    match stack with
    | .backing stored hashBlock => (.done, .backing stored hashBlock)
    | .cache _ _ base => (.done, base)

def run : List (CacheOperation T) → CoinsStack T → List CacheAnswer × CoinsStack T
  | [], stack => ([], stack)
  | operation :: rest, stack =>
    let stepped := step operation stack
    let ran := run rest stepped.2
    (stepped.1 :: ran.1, ran.2)

end CoinsStack

/-- One plain map for the view that stores coins and one for each cache over it. -/
inductive CoinMaps (T : CryptoTypes) where
  | bottom (coins : CoinMap T)
  | over (coins : CoinMap T) (base : CoinMaps T)

namespace CoinMaps

def top : CoinMaps T → CoinMap T
  | .bottom coins => coins
  | .over coins _ => coins

def replaceTop (coins : CoinMap T) : CoinMaps T → CoinMaps T
  | .bottom _ => .bottom coins
  | .over _ base => .over coins base

def atDepth (act : CoinMap T → CoinMaps T → CacheAnswer × CoinMaps T) :
    Nat → CoinMaps T → CacheAnswer × CoinMaps T
  | _, .bottom coins => (.done, .bottom coins)
  | 0, .over coins base => act coins base
  | depth + 1, .over coins base =>
    let acted := atDepth act depth base
    (acted.1, .over coins acted.2)

/-- A change of one coin, which the maps above show too. -/
def changeAt (outpoint : COutPoint T) (act : CoinMap T → CacheAnswer × CoinMap T) :
    Nat → CoinMaps T → CacheAnswer × CoinMaps T
  | _, .bottom coins => (.done, .bottom coins)
  | 0, .over coins base => ((act coins).1, .over (act coins).2 base)
  | depth + 1, .over coins base =>
    let acted := changeAt outpoint act depth base
    (acted.1, .over (update coins outpoint (acted.2.top outpoint)) acted.2)

def add (coin : Coin) (possibleOverwrite : Bool) (coins : CoinMap T) : CacheAnswer × CoinMap T :=
  if coin.isSpent then (.threw .assertion, coins)
  else if coin.out.scriptPubKey.isUnspendable then (.done, coins)
  else if possibleOverwrite = false ∧ coins outpoint ≠ none then (.threw .overwrite, coins)
  else (.done, update coins outpoint (some coin))

def step : CacheOperation T → CoinMaps T → CacheAnswer × CoinMaps T
  | .addCoin depth outpoint coin possibleOverwrite =>
    changeAt outpoint (add outpoint coin possibleOverwrite) depth
  | .spendCoin depth outpoint =>
    changeAt outpoint (fun coins =>
      (.coin (coins outpoint), update coins outpoint none)) depth
  | .accessCoin depth outpoint =>
    atDepth (fun coins base => (.coin (coins outpoint), .over coins base)) depth
  | .haveCoin depth outpoint =>
    atDepth (fun coins base => (.has (coins outpoint).isSome, .over coins base)) depth
  | .uncache depth _ => atDepth (fun coins base => (.done, .over coins base)) depth
  | .flush depth => atDepth (fun coins base => (.done, .over coins (base.replaceTop coins))) depth
  | .push => fun maps => (.done, .over maps.top maps)
  | .pop => fun maps =>
    match maps with
    | .bottom coins => (.done, .bottom coins)
    | .over _ base => (.done, base)

def run : List (CacheOperation T) → CoinMaps T → List CacheAnswer × CoinMaps T
  | [], maps => ([], maps)
  | operation :: rest, maps =>
    let stepped := step operation maps
    let ran := run rest stepped.2
    (stepped.1 :: ran.1, ran.2)

end CoinMaps

open CoinMaps

/-! ## Coherent stacks -/

/-- The comment on `CCoinsCacheEntry`: a fresh entry lies over nothing unspent, an
entry that is not dirty is what lies below, and an entry is in one of five states.
Unspent it is fresh only when dirty, and spent it is either fresh or dirty. -/
structure CCoinsCacheEntry.Means (entry : CCoinsCacheEntry) (below : Option Coin) : Prop where
  fresh : entry.fresh = true → below = none
  clean : entry.dirty = false → entry.coin = below
  states : if entry.coin.isSome then entry.fresh = true → entry.dirty = true
    else entry.fresh = !entry.dirty

variable {act : CCoinsMap T → T.Hash → CoinsStack T → CacheAnswer × CoinsStack T}
  {base : CoinsStack T} {hashBlock : T.Hash}

namespace CoinsStack

/-- What a cache shows over the map below. -/
def overlay (below : CoinMap T) : CoinMap T := fun outpoint =>
  match cacheCoins.lookup outpoint with
  | some entry => entry.coin
  | none => below outpoint

def view : CoinsStack T → CoinMap T
  | .backing stored _ => fun outpoint => (stored outpoint).join
  | .cache cacheCoins _ base => overlay cacheCoins base.view

def maps : CoinsStack T → CoinMaps T
  | .backing stored _ => .bottom fun outpoint => (stored outpoint).join
  | .cache cacheCoins _ base => .over (overlay cacheCoins base.view) base.maps

def Meaningful (below : CoinMap T) : Prop :=
  ∀ outpoint entry, cacheCoins.lookup outpoint = some entry → entry.Means (below outpoint)

def Coherent : CoinsStack T → Prop
  | .backing _ _ => True
  | .cache cacheCoins _ base => Meaningful cacheCoins base.view ∧ base.Coherent

/-- No cache above the depth has an entry for the outpoint. -/
def UncoveredAt (outpoint : COutPoint T) : Nat → CoinsStack T → Prop
  | 0, _ => True
  | _, .backing _ _ => True
  | depth + 1, .cache cacheCoins _ base =>
    cacheCoins.lookup outpoint = none ∧ UncoveredAt outpoint depth base

def belowAt : Nat → CoinsStack T → CoinMap T
  | _, .backing _ _ => fun _ => none
  | 0, .cache _ _ base => base.view
  | depth + 1, .cache _ _ base => belowAt depth base

/-- A coin is added with `possible_overwrite` unless nothing unspent lies below. -/
def AddsAware : CacheOperation T → CoinsStack T → Prop
  | .addCoin depth outpoint _ false, stack => stack.belowAt depth outpoint = none
  | _, _ => True

/-- A coin is changed where no cache above has an entry for it. -/
def ChangesUncovered : CacheOperation T → CoinsStack T → Prop
  | .addCoin depth outpoint _ _, stack => stack.UncoveredAt outpoint depth
  | .spendCoin depth outpoint, stack => stack.UncoveredAt outpoint depth
  | _, _ => True

/-- Each operation of a run meets a condition in the stack it starts from. -/
def Along (condition : CacheOperation T → CoinsStack T → Prop) :
    List (CacheOperation T) → CoinsStack T → Prop
  | [], _ => True
  | operation :: rest, stack =>
    condition operation stack ∧ Along condition rest (step operation stack).2

theorem top_maps : stack.maps.top = stack.view := by
  cases stack <;> rfl

theorem view_eq_of_maps {stack stack' : CoinsStack T} (same : stack'.maps = stack.maps) :
    stack'.view = stack.view := by
  rw [← top_maps, same, top_maps]

variable {cacheCoins : CCoinsMap T} {below : CoinMap T} {outpoint : COutPoint T}
  {entry : CCoinsCacheEntry}

theorem overlay_of_entry (cached : cacheCoins.lookup outpoint = some entry) :
    overlay cacheCoins below outpoint = entry.coin := by
  simp only [overlay, cached]

theorem overlay_of_absent (absent : cacheCoins.lookup outpoint = none) :
    overlay cacheCoins below outpoint = below outpoint := by
  simp only [overlay, absent]

theorem overlay_empty : overlay (∅ : CCoinsMap T) below = below := by
  funext other
  exact overlay_of_absent (lookup_empty other)

theorem overlay_insert (entry : CCoinsCacheEntry) :
    overlay (cacheCoins.insert outpoint entry) below =
      update (overlay cacheCoins below) outpoint entry.coin := by
  funext other
  by_cases same : other = outpoint
  · subst same
    rw [update_self, overlay_of_entry (lookup_insert _)]
  · rw [update_of_ne same]
    simp only [overlay, lookup_insert_ne same]

theorem overlay_erase :
    overlay (cacheCoins.erase outpoint) below =
      update (overlay cacheCoins below) outpoint (below outpoint) := by
  funext other
  by_cases same : other = outpoint
  · subst same
    rw [update_self, overlay_of_absent (lookup_erase _ _)]
  · rw [update_of_ne same]
    simp only [overlay, lookup_erase_ne same]

theorem Meaningful.empty : Meaningful (∅ : CCoinsMap T) below := by
  intro other entry cached
  cases cached

theorem Meaningful.insert (meaningful : Meaningful cacheCoins below)
    (means : entry.Means (below outpoint)) :
    Meaningful (cacheCoins.insert outpoint entry) below := by
  intro other found cached
  by_cases same : other = outpoint
  · subst same
    rw [lookup_insert] at cached
    cases cached
    exact means
  · rw [lookup_insert_ne same] at cached
    exact meaningful other found cached

theorem Meaningful.erase (meaningful : Meaningful cacheCoins below) :
    Meaningful (cacheCoins.erase outpoint) below := by
  intro other found cached
  by_cases same : other = outpoint
  · subst same
    rw [lookup_erase] at cached
    cases cached
  · rw [lookup_erase_ne same] at cached
    exact meaningful other found cached

/-! ## Lookups -/

structure Fetched (cacheCoins : CCoinsMap T) (base : CoinsStack T) (outpoint : COutPoint T)
    (fetched : Option CCoinsCacheEntry × CCoinsMap T × CoinsStack T) : Prop where
  entry : fetched.2.1.lookup outpoint = fetched.1
  shows : overlay fetched.2.1 fetched.2.2.view = overlay cacheCoins base.view
  below : fetched.2.2.maps = base.maps
  meaningful : Meaningful fetched.2.1 fetched.2.2.view
  coherent : fetched.2.2.Coherent

theorem Fetched.coin_eq {fetched : Option CCoinsCacheEntry × CCoinsMap T × CoinsStack T}
    (spec : Fetched cacheCoins base outpoint fetched)
    (missing : fetched.1 = none → base.view outpoint = none) :
    fetched.1.bind CCoinsCacheEntry.coin = overlay cacheCoins base.view outpoint := by
  rw [← spec.shows]
  cases found : fetched.1 with
  | none =>
    rw [overlay_of_absent (spec.entry.trans found), view_eq_of_maps spec.below, missing found]
    rfl
  | some entry => rw [overlay_of_entry (spec.entry.trans found), bind_some]

theorem fetchFrom_fetched {found : Option (Option Coin) × CoinsStack T}
    (answer : found.1.join = base.view outpoint)
    (kept : found.2.maps = base.maps) (coherent' : found.2.Coherent)
    (meaningful : Meaningful cacheCoins base.view) (coherent : base.Coherent) :
    Fetched cacheCoins base outpoint (fetchFrom found cacheCoins base outpoint) ∧
      ((fetchFrom found cacheCoins base outpoint).1 = none → base.view outpoint = none) := by
  have sameView : found.2.view = base.view := view_eq_of_maps kept
  unfold fetchFrom
  cases cached : cacheCoins.lookup outpoint with
  | some entry => exact ⟨⟨cached, rfl, rfl, meaningful, coherent⟩, nofun⟩
  | none =>
    cases below : found.1 with
    | none =>
      rw [below] at answer
      exact ⟨⟨cached, by rw [sameView], kept, sameView ▸ meaningful, coherent'⟩,
        fun _ => answer.symm⟩
    | some coin =>
      rw [below, join_some] at answer
      have shown : overlay cacheCoins base.view outpoint = base.view outpoint :=
        overlay_of_absent cached
      refine ⟨⟨lookup_insert _, ?_, kept, ?_, coherent'⟩, nofun⟩
      · rw [sameView, overlay_insert, answer, ← shown, update_eq_self]
      · rw [sameView]
        refine meaningful.insert ⟨fun fresh => ?_, fun _ => answer, ?_⟩
        · rw [← answer]
          exact isNone_iff_eq_none.mp fresh
        · cases coin <;> simp

theorem getCoin_spec (coherent : stack.Coherent) (outpoint : COutPoint T) :
    (stack.getCoin outpoint).1.join = stack.view outpoint ∧
      (stack.getCoin outpoint).2.maps = stack.maps ∧ (stack.getCoin outpoint).2.Coherent := by
  induction stack with
  | backing stored hashBlock => exact ⟨rfl, rfl, trivial⟩
  | cache cacheCoins hashBlock base ih =>
    obtain ⟨meaningful, coherentBase⟩ := coherent
    obtain ⟨answer, kept, coherent'⟩ := ih coherentBase
    obtain ⟨spec, missing⟩ := fetchFrom_fetched answer kept coherent' meaningful coherentBase
    refine ⟨?_, ?_, spec.meaningful, spec.coherent⟩
    · rw [getCoin, view, ← spec.coin_eq missing]
      cases (fetchFrom _ cacheCoins base outpoint).1.bind CCoinsCacheEntry.coin <;> rfl
    · rw [getCoin, maps, maps, spec.shows, spec.below]

theorem fetchCoin_fetched (meaningful : Meaningful cacheCoins base.view)
    (coherent : base.Coherent) (outpoint : COutPoint T) :
    Fetched cacheCoins base outpoint (fetchCoin cacheCoins base outpoint) ∧
      ((fetchCoin cacheCoins base outpoint).1 = none → base.view outpoint = none) := by
  obtain ⟨answer, kept, coherent'⟩ := getCoin_spec base coherent outpoint
  exact fetchFrom_fetched answer kept coherent' meaningful coherent

/-! ## Changes of one coin -/

theorem addCoin_spec {coin : Coin} {possibleOverwrite : Bool}
    (meaningful : Meaningful cacheCoins below)
    (aware : possibleOverwrite = false → below outpoint = none) :
    (∃ cacheCoins', addCoin cacheCoins outpoint coin possibleOverwrite = .ok cacheCoins' ∧
        add outpoint coin possibleOverwrite (overlay cacheCoins below) =
          (.done, overlay cacheCoins' below) ∧ Meaningful cacheCoins' below) ∨
      ∃ error, addCoin cacheCoins outpoint coin possibleOverwrite = .error error ∧
        add outpoint coin possibleOverwrite (overlay cacheCoins below) =
          (.threw error, overlay cacheCoins below) := by
  have entry_fresh : ((cacheCoins.lookup outpoint).getD ⟨none, false, false⟩).fresh = true →
      below outpoint = none := by
    intro fresh
    cases cached : cacheCoins.lookup outpoint with
    | none =>
      rw [cached] at fresh
      cases fresh
    | some entry => exact (meaningful _ _ cached).fresh (by rw [cached] at fresh; exact fresh)
  by_cases spent : coin.isSpent = true
  · exact .inr ⟨.assertion, by simp [addCoin, ensure, spent], by simp [add, spent]⟩
  by_cases unspendable : coin.out.scriptPubKey.isUnspendable = true
  · exact .inl ⟨cacheCoins, by simp [addCoin, ensure, spent, unspendable],
      by simp [add, spent, unspendable], meaningful⟩
  cases possibleOverwrite with
  | true =>
    refine .inl ⟨_, by simp [addCoin, ensure, spent, unspendable]; rfl,
      by simp [add, spent, unspendable, overlay_insert], ?_⟩
    exact meaningful.insert ⟨entry_fresh, (by rintro ⟨⟩), fun _ => rfl⟩
  | false =>
    have nothing : below outpoint = none := aware rfl
    have entry_coin : ((cacheCoins.lookup outpoint).getD ⟨none, false, false⟩).coin =
        overlay cacheCoins below outpoint := by
      cases cached : cacheCoins.lookup outpoint with
      | none => rw [overlay_of_absent cached, nothing]; rfl
      | some entry => rw [overlay_of_entry cached]; rfl
    by_cases free : overlay cacheCoins below outpoint = none
    · refine .inl ⟨_, by simp [addCoin, ensure, spent, unspendable, entry_coin, free]; rfl,
        by simp [add, spent, unspendable, free, overlay_insert], ?_⟩
      exact meaningful.insert ⟨fun _ => nothing, (by rintro ⟨⟩), fun _ => rfl⟩
    · exact .inr ⟨.overwrite, by simp [addCoin, ensure, spent, unspendable, entry_coin, free],
        by simp [add, spent, unspendable, free]⟩

theorem spendCoin_spec (meaningful : Meaningful cacheCoins base.view) (coherent : base.Coherent) :
    (spendCoin cacheCoins hashBlock base outpoint).1.join = overlay cacheCoins base.view outpoint ∧
      (spendCoin cacheCoins hashBlock base outpoint).2.maps =
        .over (update (overlay cacheCoins base.view) outpoint none) base.maps ∧
      (spendCoin cacheCoins hashBlock base outpoint).2.Coherent := by
  obtain ⟨spec, missing⟩ := fetchCoin_fetched meaningful coherent outpoint
  have answer := spec.coin_eq missing
  cases found : (fetchCoin cacheCoins base outpoint).1 with
  | none =>
    rw [found] at answer
    simp only [spendCoin, found]
    refine ⟨answer, ?_, spec.meaningful, spec.coherent⟩
    have unchanged := update_eq_self outpoint (overlay cacheCoins base.view)
    rw [← answer] at unchanged
    rw [maps, spec.shows, spec.below]
    exact congrArg (CoinMaps.over · base.maps) unchanged.symm
  | some entry =>
    have means := spec.meaningful outpoint entry (spec.entry.trans found)
    rw [found, bind_some] at answer
    simp only [spendCoin, found]
    refine ⟨answer, ?_⟩
    cases fresh : entry.fresh with
    | true =>
      rw [if_pos rfl]
      refine ⟨?_, spec.meaningful.erase, spec.coherent⟩
      rw [maps, overlay_erase, spec.shows, spec.below, means.fresh fresh]
    | false =>
      rw [if_neg Bool.false_ne_true]
      refine ⟨?_, spec.meaningful.insert ⟨nofun, nofun, rfl⟩, spec.coherent⟩
      rw [maps, overlay_insert, spec.shows, spec.below]

/-! ## Uncaching and flushing -/

theorem uncache_spec (meaningful : Meaningful cacheCoins below) (outpoint : COutPoint T) :
    overlay (uncache cacheCoins outpoint) below = overlay cacheCoins below ∧
      Meaningful (uncache cacheCoins outpoint) below := by
  unfold uncache
  cases cached : cacheCoins.lookup outpoint with
  | none => exact ⟨rfl, meaningful⟩
  | some entry =>
    dsimp only
    split
    · rename_i unflagged
      refine ⟨?_, meaningful.erase⟩
      rw [overlay_erase, ← (meaningful _ _ cached).clean unflagged.1]
      have shown : overlay cacheCoins below outpoint = entry.coin := overlay_of_entry cached
      rw [← shown, update_eq_self]
    · exact ⟨rfl, meaningful⟩

theorem writeEntry_spec {written : Sigma fun _ : COutPoint T => CCoinsCacheEntry}
    (meaningful : Meaningful cacheCoins below)
    (means : written.2.Means (overlay cacheCoins below written.1)) :
    ∃ cacheCoins', writeEntry cacheCoins written = .ok cacheCoins' ∧
      overlay cacheCoins' below =
        update (overlay cacheCoins below) written.1 written.2.coin ∧
      Meaningful cacheCoins' below := by
  obtain ⟨outpoint, entry⟩ := written
  -- An entry that adds nothing to what the parent shows.
  have same (shown : entry.coin = overlay cacheCoins below outpoint) :
      overlay cacheCoins below = update (overlay cacheCoins below) outpoint entry.coin := by
    rw [shown, update_eq_self]
  unfold writeEntry
  cases dirty : entry.dirty with
  | false => exact ⟨cacheCoins, by simp [dirty], same (means.clean dirty), meaningful⟩
  | true =>
    simp only [dirty, Bool.true_eq_false, if_false]
    cases cached : cacheCoins.lookup outpoint with
    | none =>
      have shown : overlay cacheCoins below outpoint = below outpoint := overlay_of_absent cached
      dsimp only
      split
      · rename_i dropped
        refine ⟨cacheCoins, rfl, same ?_, meaningful⟩
        rw [dropped.2, means.fresh dropped.1]
      · refine ⟨_, rfl, overlay_insert _, meaningful.insert ⟨?_, nofun, ?_⟩⟩
        · intro fresh
          rw [← shown, means.fresh fresh]
        · have states := means.states
          rw [dirty] at states
          exact states
    | some us =>
      have shown : overlay cacheCoins below outpoint = us.coin := overlay_of_entry cached
      have usMeans := meaningful _ _ cached
      dsimp only
      split
      · rename_i misapplied
        exact absurd (shown.symm.trans (means.fresh misapplied.1)) misapplied.2
      split
      · rename_i deleted
        refine ⟨_, rfl, ?_, meaningful.erase⟩
        rw [overlay_erase, usMeans.fresh deleted.1, deleted.2]
      · rename_i kept
        refine ⟨_, rfl, overlay_insert _, meaningful.insert ⟨usMeans.fresh, nofun, ?_⟩⟩
        cases coin : entry.coin with
        | none =>
          have stale : us.fresh = false := by
            rw [Bool.eq_false_iff]
            exact fun fresh => kept ⟨fresh, coin⟩
          exact stale
        | some _ => exact fun _ => rfl

theorem foldlM_writeEntry (entries : List (Sigma fun _ : COutPoint T => CCoinsCacheEntry))
    (nodup : entries.NodupKeys) (below : CoinMap T) :
    ∀ cacheCoins : CCoinsMap T, Meaningful cacheCoins below →
      (∀ written ∈ entries, written.2.Means (overlay cacheCoins below written.1)) →
      ∃ cacheCoins', entries.foldlM writeEntry cacheCoins = .ok cacheCoins' ∧
        (∀ outpoint, overlay cacheCoins' below outpoint =
          match entries.dlookup outpoint with
          | some entry => entry.coin
          | none => overlay cacheCoins below outpoint) ∧ Meaningful cacheCoins' below := by
  induction entries with
  | nil => exact fun cacheCoins meaningful _ => ⟨cacheCoins, rfl, fun _ => rfl, meaningful⟩
  | cons written rest ih =>
    intro cacheCoins meaningful means
    obtain ⟨unwritten, nodupRest⟩ := nodupKeys_cons.mp nodup
    obtain ⟨next, wrote, shows, meaningfulNext⟩ :=
      writeEntry_spec meaningful (means written mem_cons_self)
    have later : ∀ entry ∈ rest, entry.2.Means (overlay next below entry.1) := by
      intro entry member
      have differs : entry.1 ≠ written.1 := fun same =>
        unwritten (same ▸ mem_keys_of_mem member)
      rw [shows, update_of_ne differs]
      exact means entry (mem_cons_of_mem _ member)
    obtain ⟨last, ran, showsLast, meaningfulLast⟩ := ih nodupRest next meaningfulNext later
    refine ⟨last, by rw [foldlM_cons, wrote]; exact ran, ?_, meaningfulLast⟩
    intro outpoint
    rw [showsLast, shows]
    by_cases same : outpoint = written.1
    · subst same
      rw [dlookup_eq_none.mpr unwritten, update_self, dlookup_cons_eq]
    · rw [dlookup_cons_ne _ _ same, update_of_ne same]

theorem storeDirty_spec {stored : COutPoint T → Option (Option Coin)}
    (meaningful : Meaningful cacheCoins fun outpoint => (stored outpoint).join) :
    (fun outpoint => (storeDirty cacheCoins stored outpoint).join) =
      overlay cacheCoins fun outpoint => (stored outpoint).join := by
  funext outpoint
  cases cached : cacheCoins.lookup outpoint with
  | none => simp only [storeDirty, overlay, cached]
  | some entry =>
    rw [overlay_of_entry cached]
    cases dirty : entry.dirty with
    | false =>
      simp only [storeDirty, cached, dirty, Bool.false_eq_true, if_false]
      exact ((meaningful _ _ cached).clean dirty).symm
    | true =>
      simp only [storeDirty, cached, dirty, if_true]
      cases entry.coin <;> rfl

theorem flush_spec (meaningful : Meaningful cacheCoins base.view) (coherent : base.Coherent) :
    ∃ stack', flush cacheCoins hashBlock base = .ok stack' ∧
      stack'.maps = .over (overlay cacheCoins base.view)
        (base.maps.replaceTop (overlay cacheCoins base.view)) ∧ stack'.Coherent := by
  cases base with
  | backing stored storedHash =>
    refine ⟨_, rfl, ?_, Meaningful.empty, trivial⟩
    simp only [maps, view, overlay_empty, storeDirty_spec meaningful, replaceTop]
  | cache parentCoins parentHash grand =>
    obtain ⟨meaningfulParent, coherentGrand⟩ := coherent
    have means : ∀ written ∈ cacheCoins.entries,
        written.2.Means (overlay parentCoins grand.view written.1) := fun written member =>
      meaningful _ _ (mem_lookup_iff.mpr member)
    obtain ⟨parentCoins', wrote, shows, meaningful'⟩ :=
      foldlM_writeEntry _ cacheCoins.nodupKeys grand.view parentCoins meaningfulParent means
    have sameView : overlay parentCoins' grand.view =
        overlay cacheCoins (overlay parentCoins grand.view) := funext shows
    refine ⟨.cache ∅ hashBlock (.cache parentCoins' hashBlock grand),
      by simp only [flush, batchWrite, wrote]; rfl, ?_, Meaningful.empty, meaningful',
        coherentGrand⟩
    simp only [maps, view, overlay_empty, sameView, replaceTop]

/-! ## Steps and runs -/

/-- The answer of the maps, over the maps they go to. -/
structure Agrees (acted : CacheAnswer × CoinsStack T)
    (expected : CacheAnswer × CoinMaps T) : Prop where
  answer : acted.1 = expected.1
  maps : acted.2.maps = expected.2
  coherent : acted.2.Coherent

theorem atDepth_agrees {expected : CoinMap T → CoinMaps T → CacheAnswer × CoinMaps T}
    (agrees : ∀ cacheCoins hashBlock base, Meaningful cacheCoins base.view → base.Coherent → Agrees
      (act cacheCoins hashBlock base) (expected (overlay cacheCoins base.view) base.maps))
    (keeps : ∀ coins base, (expected coins base).2.top = coins) :
    ∀ depth stack, stack.Coherent →
      Agrees (atDepth act depth stack) (stack.maps.atDepth expected depth) ∧
        (stack.maps.atDepth expected depth).2.top = stack.view := by
  intro depth stack
  induction stack generalizing depth with
  | backing stored hashBlock =>
    intro _
    cases depth <;> exact ⟨⟨rfl, rfl, trivial⟩, rfl⟩
  | cache cacheCoins hashBlock base ih =>
    rintro ⟨meaningful, coherent⟩
    cases depth with
    | zero => exact ⟨agrees cacheCoins hashBlock base meaningful coherent, keeps _ _⟩
    | succ depth =>
      obtain ⟨below, shown⟩ := ih depth coherent
      have sameView : (atDepth act depth base).2.view = base.view := by
        rw [← top_maps, below.maps, shown]
      refine ⟨⟨below.answer, ?_, ?_, below.coherent⟩, rfl⟩
      · simp only [atDepth, maps, CoinMaps.atDepth, sameView, below.maps]
      · rw [sameView]
        exact meaningful

theorem atDepth_changes {outpoint : COutPoint T} {expected : CoinMap T → CacheAnswer × CoinMap T}
    (allowed : CoinMap T → Prop)
    (agrees : ∀ cacheCoins hashBlock base, Meaningful cacheCoins base.view → base.Coherent → allowed
      base.view → Agrees (act cacheCoins hashBlock base) ((expected (overlay cacheCoins
      base.view)).1, .over (expected (overlay cacheCoins base.view)).2 base.maps))
    (elsewhere' : ∀ coins other, other ≠ outpoint → (expected coins).2 other = coins other) :
    ∀ depth stack, stack.Coherent → stack.UncoveredAt outpoint depth →
      allowed (stack.belowAt depth) →
      Agrees (atDepth act depth stack) (stack.maps.changeAt outpoint expected depth) ∧
        ∀ other, other ≠ outpoint → (atDepth act depth stack).2.view other = stack.view other := by
  intro depth stack
  induction stack generalizing depth with
  | backing stored hashBlock =>
    intro _ _ _
    cases depth <;> exact ⟨⟨rfl, rfl, trivial⟩, fun _ _ => rfl⟩
  | cache cacheCoins hashBlock base ih =>
    rintro ⟨meaningful, coherent⟩ uncovered allows
    cases depth with
    | zero =>
      have agreed := agrees cacheCoins hashBlock base meaningful coherent allows
      refine ⟨agreed, fun other differs => ?_⟩
      rw [← top_maps]
      exact (congrFun (congrArg top agreed.maps) other).trans (elsewhere' _ _ differs)
    | succ depth =>
      obtain ⟨absent, uncoveredBelow⟩ := uncovered
      obtain ⟨below, elsewhere⟩ := ih depth coherent uncoveredBelow allows
      have shows : overlay cacheCoins (atDepth act depth base).2.view =
          update (overlay cacheCoins base.view) outpoint
            ((base.maps.changeAt outpoint expected depth).2.top outpoint) := by
        funext other
        by_cases same : other = outpoint
        · subst same
          rw [update_self, overlay_of_absent absent, ← top_maps, below.maps]
        · rw [update_of_ne same]
          simp only [overlay, elsewhere other same]
      refine ⟨⟨below.answer, ?_, ?_, below.coherent⟩, fun other differs => ?_⟩
      · simp only [atDepth, maps, changeAt, shows, below.maps]
      · intro other entry cached
        have differs : other ≠ outpoint := by
          rintro rfl
          rw [absent] at cached
          cases cached
        rw [elsewhere other differs]
        exact meaningful other entry cached
      · simp only [atDepth, view]
        rw [shows, update_of_ne differs]

theorem add_elsewhere (outpoint : COutPoint T) (coin : Coin) (possibleOverwrite : Bool)
    (coins : CoinMap T) (other : COutPoint T) (differs : other ≠ outpoint) :
    (add outpoint coin possibleOverwrite coins).2 other = coins other := by
  unfold add
  split
  · rfl
  · split
    · rfl
    · split
      · rfl
      · exact update_of_ne differs _ _

variable (operation : CacheOperation T)

theorem step_agrees (stack : CoinsStack T)
    (coherent : stack.Coherent) (aware : AddsAware operation stack)
    (uncovered : ChangesUncovered operation stack) :
    Agrees (step operation stack) (CoinMaps.step operation stack.maps) := by
  cases operation with
  | addCoin depth outpoint coin possibleOverwrite =>
    have allowed : possibleOverwrite = false → stack.belowAt depth outpoint = none := by
      rintro rfl
      exact aware
    refine (atDepth_changes (fun below => possibleOverwrite = false → below outpoint = none) ?_
      (add_elsewhere outpoint coin possibleOverwrite) depth stack coherent uncovered allowed).1
    intro cacheCoins hashBlock base meaningful coherentBase allows
    obtain ⟨cacheCoins', added, expected, meaningful'⟩ | ⟨error, threw, expected⟩ :=
      addCoin_spec meaningful allows
    · rw [expected, added]
      exact ⟨rfl, rfl, meaningful', coherentBase⟩
    · rw [expected, threw]
      exact ⟨rfl, rfl, meaningful, coherentBase⟩
  | spendCoin depth outpoint =>
    refine (atDepth_changes (fun _ => True) ?_ (fun coins other differs =>
      update_of_ne differs _ _) depth stack coherent uncovered trivial).1
    intro cacheCoins hashBlock base meaningful coherentBase _
    obtain ⟨moved, changed, coherent'⟩ := spendCoin_spec meaningful coherentBase
    exact ⟨congrArg CacheAnswer.coin moved, changed, coherent'⟩
  | accessCoin depth outpoint =>
    refine (atDepth_agrees ?_ (fun _ _ => rfl) depth stack coherent).1
    intro cacheCoins hashBlock base meaningful coherentBase
    obtain ⟨spec, missing⟩ := fetchCoin_fetched meaningful coherentBase outpoint
    refine ⟨congrArg CacheAnswer.coin (spec.coin_eq missing), ?_, spec.meaningful, spec.coherent⟩
    simp only [accessCoin, maps, spec.shows, spec.below]
  | haveCoin depth outpoint =>
    refine (atDepth_agrees ?_ (fun _ _ => rfl) depth stack coherent).1
    intro cacheCoins hashBlock base meaningful coherentBase
    obtain ⟨spec, missing⟩ := fetchCoin_fetched meaningful coherentBase outpoint
    refine ⟨?_, ?_, spec.meaningful, spec.coherent⟩
    · dsimp only [haveCoin]
      rw [← spec.coin_eq missing]
      cases (fetchCoin cacheCoins base outpoint).1 <;> rfl
    · simp only [haveCoin, maps, spec.shows, spec.below]
  | uncache depth outpoint =>
    refine (atDepth_agrees ?_ (fun _ _ => rfl) depth stack coherent).1
    intro cacheCoins hashBlock base meaningful coherentBase
    obtain ⟨shows, meaningful'⟩ := uncache_spec meaningful outpoint
    exact ⟨rfl, congrArg (CoinMaps.over · base.maps) shows, meaningful', coherentBase⟩
  | flush depth =>
    refine (atDepth_agrees ?_ (fun _ _ => rfl) depth stack coherent).1
    intro cacheCoins hashBlock base meaningful coherentBase
    obtain ⟨stack', flushed, copied, coherent'⟩ := flush_spec meaningful coherentBase
    rw [flushed]
    exact ⟨rfl, copied, coherent'⟩
  | push =>
    refine ⟨rfl, ?_, Meaningful.empty, coherent⟩
    simp only [step, maps, CoinMaps.step, overlay_empty, top_maps]
  | pop =>
    cases stack with
    | backing stored hashBlock => exact ⟨rfl, rfl, trivial⟩
    | cache cacheCoins hashBlock base => exact ⟨rfl, rfl, coherent.2⟩

theorem atDepth_ne_misapplied {act : CoinMap T → CoinMaps T → CacheAnswer × CoinMaps T}
    (never : ∀ coins base, (act coins base).1 ≠ .threw .misapplied) (depth : Nat)
    (maps : CoinMaps T) : (maps.atDepth act depth).1 ≠ .threw .misapplied := by
  induction maps generalizing depth with
  | bottom coins => cases depth <;> nofun
  | «over» coins base ih =>
    cases depth with
    | zero => exact never coins base
    | succ depth => exact ih depth

theorem changeAt_ne_misapplied {act : CoinMap T → CacheAnswer × CoinMap T}
    (never : ∀ coins, (act coins).1 ≠ .threw .misapplied) (depth : Nat) (maps : CoinMaps T) :
    (maps.changeAt outpoint act depth).1 ≠ .threw .misapplied := by
  induction maps generalizing depth with
  | bottom coins => cases depth <;> nofun
  | «over» coins base ih =>
    cases depth with
    | zero => exact never coins
    | succ depth => exact ih depth

theorem mapStep_ne_misapplied (maps : CoinMaps T) :
    (CoinMaps.step operation maps).1 ≠ .threw .misapplied := by
  cases operation with
  | addCoin depth outpoint coin possibleOverwrite =>
    refine changeAt_ne_misapplied (fun coins => ?_) depth maps
    unfold CoinMaps.add
    split_ifs <;> nofun
  | spendCoin depth => exact changeAt_ne_misapplied (by simp) depth maps
  | accessCoin depth => exact atDepth_ne_misapplied (by simp) depth maps
  | haveCoin depth => exact atDepth_ne_misapplied (by simp) depth maps
  | uncache depth => exact atDepth_ne_misapplied (by simp) depth maps
  | flush depth => exact atDepth_ne_misapplied (by simp) depth maps
  | push => nofun
  | pop => cases maps <;> nofun

def ofDepth (base : CoinsStack T) : Nat → CoinsStack T
  | 0 => base
  | depth + 1 => .cache ∅ T.zeroHash (ofDepth base depth)

theorem coherent_ofDepth (stored : COutPoint T → Option (Option Coin)) (hashBlock : T.Hash)
    (depth : Nat) : (ofDepth (.backing stored hashBlock) depth).Coherent := by
  induction depth with
  | zero => trivial
  | succ depth ih => exact ⟨Meaningful.empty, ih⟩

/-- In every run over a coherent stack, with coins added in awareness of what lies
below and changed where no cache above has an entry for them, the caches answer as
their maps do, the entries keep their meaning and no fresh entry is misapplied. -/
theorem run_refines_maps (operations : List (CacheOperation T)) (stack : CoinsStack T)
    (coherent : stack.Coherent) (aware : Along AddsAware operations stack)
    (uncovered : Along ChangesUncovered operations stack) :
    (run operations stack).1 = (CoinMaps.run operations stack.maps).1 ∧
      (run operations stack).2.maps = (CoinMaps.run operations stack.maps).2 ∧
      (run operations stack).2.Coherent ∧ .threw .misapplied ∉ (run operations stack).1 := by
  induction operations generalizing stack with
  | nil => exact ⟨rfl, rfl, coherent, not_mem_nil⟩
  | cons operation rest ih =>
    have agreed := step_agrees operation stack coherent aware.1 uncovered.1
    obtain ⟨answers, maps, coherent', applied⟩ := ih _ agreed.coherent aware.2 uncovered.2
    rw [agreed.maps] at answers maps
    refine ⟨?_, maps, coherent', ?_⟩
    · rw [run, CoinMaps.run, agreed.answer, answers]
    · rw [run, mem_cons, not_or, agreed.answer]
      exact ⟨(mapStep_ne_misapplied operation stack.maps).symm, applied⟩

end CoinsStack

end MooncoinFormal.Coins

namespace MooncoinFormal.Primitives.Numeric

open Coins CoinsStack

def mintedCoin : Coin := ⟨⟨5, []⟩, false, 1, false⟩

def mintedOutpoint : COutPoint types := ⟨1, 0⟩

def twoCaches : CoinsStack types := ofDepth (.backing (fun _ => none) 0) 2

/-- A coin is added on top, flushed, spent below the emptied cache and added again. -/
def readdedRun : List (CacheOperation types) :=
  [.addCoin 0 mintedOutpoint mintedCoin false, .flush 0, .spendCoin 1 mintedOutpoint,
    .addCoin 0 mintedOutpoint mintedCoin false, .accessCoin 0 mintedOutpoint, .flush 0,
    .haveCoin 1 mintedOutpoint]

theorem readdedRun_refines :
    (run readdedRun twoCaches).1 =
        [.done, .done, .coin (some mintedCoin), .done, .coin (some mintedCoin), .done, .has true] ∧
      (run readdedRun twoCaches).1 = (CoinMaps.run readdedRun twoCaches.maps).1 ∧
      (run readdedRun twoCaches).2.Coherent :=
  have refined := run_refines_maps readdedRun twoCaches (coherent_ofDepth _ _ 2)
    ⟨rfl, trivial, trivial, rfl, trivial, trivial, trivial, trivial⟩
    ⟨trivial, trivial, ⟨rfl, trivial⟩, trivial, trivial, trivial, trivial, trivial⟩
  ⟨by decide +kernel, refined.1, refined.2.2.1⟩

/-- A coin is added in both caches, with nothing below either of them. -/
def twiceAddedRun : List (CacheOperation types) :=
  [.addCoin 0 mintedOutpoint mintedCoin false, .addCoin 1 mintedOutpoint mintedCoin false, .flush 0]

/-- Where a coin is changed below an entry for it, the flush finds the fresh entry
misapplied. -/
theorem twiceAddedRun_misapplied :
    twoCaches.Coherent ∧ Along AddsAware twiceAddedRun twoCaches ∧
      (run twiceAddedRun twoCaches).1 = [.done, .done, .threw .misapplied] :=
  ⟨coherent_ofDepth _ _ 2, ⟨rfl, rfl, trivial, trivial⟩, by decide +kernel⟩

end MooncoinFormal.Primitives.Numeric
