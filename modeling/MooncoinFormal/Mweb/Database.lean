import Mathlib
import MooncoinFormal.Serialize.Canonical

/-!
# Transactions and tables of the database

`DBTransaction` of libmw answers from the objects that were put into it, and otherwise
from the database. A deletion takes back the object that was put last; it does not hide
what was put before or what is stored. Objects stand here for their bytes. The loop that
wipes a table starts at the decimal number of its prefix and stops at the first key of
another table.
-/

namespace MooncoinFormal.Mweb

open List

/-- `DBTransaction`: the batch, and the objects added in it. -/
structure DBTransaction (Key Item : Type) where
  batch : Key → Option (Option Item)
  added : Key → List Item

inductive DBCall (Key Item : Type) where
  | put (key : Key) (item : Item)
  | delete (key : Key)

namespace DBTransaction

variable {Key Item : Type} [DecidableEq Key] (transaction : DBTransaction Key Item) (key : Key)

/-- `Put` writes to the batch and remembers the object. -/
def put (item : Item) : DBTransaction Key Item where
  batch id := if id = key then some (some item) else transaction.batch id
  added id := if id = key then transaction.added id ++ [item] else transaction.added id

variable (db : Key → Option Item)

/-- `Get`: the object added last, else what the database holds. -/
def get (key : Key) : Option Item :=
  match (transaction.added key).getLast? with
  | some item => some item
  | none => db key

/-- `Delete` erases in the batch and forgets the object added last. -/
def delete : DBTransaction Key Item where
  batch id := if id = key then some none else transaction.batch id
  added id := if id = key then (transaction.added id).dropLast else transaction.added id

/-- What the database holds once the batch is written. -/
def commit (key : Key) : Option Item :=
  (transaction.batch key).getD (db key)

def call : DBCall Key Item → DBTransaction Key Item
  | .put key item => transaction.put key item
  | .delete key => transaction.delete key

variable (calls : List (DBCall Key Item))

def run : DBTransaction Key Item :=
  calls.foldl call ⟨fun _ => none, fun _ => []⟩

/-- How many objects of the key are left when each deletion takes one back. -/
def standing (key : Key) (calls : List (DBCall Key Item)) : Nat :=
  calls.foldl (fun count call =>
    match call with
    | .put other _ => if key = other then count + 1 else count
    | .delete other => if key = other then count - 1 else count) 0

theorem added_run (key : Key) :
    ((run calls).added key).length = standing key calls ∧
      match (run calls).batch key with
      | none => (run calls).added key = []
      | some none => True
      | some (some item) => ((run calls).added key).getLast? = some item := by
  induction calls using reverseRecOn with
  | nil => exact ⟨rfl, rfl⟩
  | append_singleton calls last ih =>
    have next : run (calls ++ [last]) = (run calls).call last := foldl_append
    rw [next, standing, foldl_append, ← standing]
    cases last with
    | put other item =>
      by_cases same : key = other
      · subst same
        simp [call, put, ih.1]
      · simpa [call, put, same] using ih
    | delete other =>
      by_cases same : key = other
      · subst same
        simp [call, delete, ih.1]
      · simpa [call, delete, same] using ih

/-- `Get` returns what the database would hold with the batch written, unless the key was
deleted last and an object of it is left or stored. -/
theorem get_eq_commit_iff (db : Key → Option Item) (calls : List (DBCall Key Item)) (key : Key) :
    (run calls).get db key = (run calls).commit db key ↔
      ((run calls).batch key = some none → standing key calls = 0 ∧ db key = none) := by
  obtain ⟨count, last⟩ := added_run calls key
  rw [get, commit, ← count, length_eq_zero_iff, ← getLast?_eq_none_iff]
  rcases batch : (run calls).batch key with - | - | item
  · rw [batch] at last
    simp [last]
  · cases ((run calls).added key).getLast? <;> simp
  · rw [batch] at last
    simp [last]

/-- An object that is stored is found after its deletion. -/
theorem get_finds_deleted : (run [.delete ()]).get (fun _ => some 1) () = some 1 ∧
    (run [.delete ()]).commit (fun _ => some 1) () = none := by
  decide

end DBTransaction

/-! ## Wiping a table -/

namespace Database

open Serialize Library.Codec

abbrev Bytes := List UInt8

/-- How a `std::string` is written as a key. -/
def stringFormat : Format Bytes := vectorFormat byteFormat

/-- The store behind all tables, with its keys in bytewise order. -/
structure Store where
  entries : List (Bytes × Bytes)
  sorted : entries.Pairwise (·.1 < ·.1)

variable (table : UInt8)

/-- The argument of `Seek`: `std::to_string` takes the character as a number. -/
def seekText : Bytes :=
  let number := table.toInt8.toInt
  ((if number < 0 then ['-'] else []) ++ Nat.toDigits 10 number.natAbs).map (UInt8.ofNat ·.toNat)

variable (store : Store)

/-- The entries that the iterator comes to. -/
def seek : List (Bytes × Bytes) :=
  store.entries.filter (stringFormat.write (seekText table) ≤ ·.1)

/-- `GetKey`, for a key with the prefix; bytes behind the string are not read. -/
def tableKey (raw : Bytes) : Option Bytes :=
  ((stringFormat.read.run raw).map Prod.fst).filter (·.head? = some table)

/-- The keys that the loop erases. -/
def scan : List (Bytes × Bytes) → List Bytes
  | [] => []
  | entry :: rest =>
    match tableKey table entry.1 with
    | some key => stringFormat.write key :: scan rest
    | none => []

def deleteAll : List (Bytes × Bytes) :=
  store.entries.filter (·.1 ∉ scan table (seek table store))

/-- The key is a string that starts with the prefix. -/
def InTable (raw : Bytes) : Prop :=
  ∃ key, stringFormat.read.run raw = some (key, []) ∧ key.head? = some table

/-- The loop comes to the entry: it is not below the decimal number of the prefix, and no
entry without the prefix stands between the two in the order of bytes. -/
def Reached (other : Bytes × Bytes) : Prop :=
  other ∈ store.entries ∧ stringFormat.write (seekText table) ≤ other.1 ∧
    ∀ between ∈ store.entries, stringFormat.write (seekText table) ≤ between.1 →
      between.1 ≤ other.1 → (tableKey table between.1).isSome = true

variable {table} {raw key : Bytes}

theorem tableKey_eq_some : tableKey table raw = some key ↔
    (∃ rest, stringFormat.read.run raw = some (key, rest)) ∧ key.head? = some table := by
  simp [tableKey, Option.filter_eq_some_iff]

theorem mem_takeWhile_sorted {entries : List (Bytes × Bytes)} {test : Bytes × Bytes → Bool}
    (sorted : entries.Pairwise (·.1 < ·.1)) {other : Bytes × Bytes} :
    other ∈ entries.takeWhile test ↔
      other ∈ entries ∧ ∀ between ∈ entries, between.1 ≤ other.1 → test between = true := by
  induction entries with
  | nil => simp
  | cons first rest ih =>
    obtain ⟨lowest, sorted⟩ := pairwise_cons.mp sorted
    have least : other ∈ first :: rest → first.1 ≤ other.1 := fun member =>
      (mem_cons.mp member).elim (fun same => same ▸ List.le_refl _) fun later =>
        List.le_of_lt (lowest other later)
    rw [takeWhile_cons, forall_mem_cons]
    by_cases passes : test first = true
    · rw [if_pos passes, mem_cons, mem_cons, ih sorted]
      constructor
      · rintro (rfl | ⟨later, all⟩)
        · exact ⟨.inl rfl, fun _ => passes, fun between member below =>
            absurd (lowest between member) (List.not_lt.mpr below)⟩
        · exact ⟨.inr later, fun _ => passes, all⟩
      · rintro ⟨same | later, -, all⟩
        · exact .inl same
        · exact .inr ⟨later, all⟩
    · rw [if_neg passes]
      exact iff_of_false not_mem_nil fun ⟨member, low, _⟩ => passes (low (least member))

theorem mem_scan {entries : List (Bytes × Bytes)} : raw ∈ scan table entries ↔
    ∃ entry ∈ entries.takeWhile fun entry => (tableKey table entry.1).isSome,
      (tableKey table entry.1).map stringFormat.write = some raw := by
  induction entries with
  | nil => simp [scan]
  | cons first rest ih =>
    rw [scan]
    cases found : tableKey table first.1 with
    | none => simp [found]
    | some key => simp [found, ih, eq_comm]

theorem mem_scan_seek {store : Store} : raw ∈ scan table (seek table store) ↔
    InTable table raw ∧
      ∃ other, Reached table store other ∧ tableKey table other.1 = tableKey table raw := by
  have reached_iff (other : Bytes × Bytes) : other ∈ (seek table store).takeWhile
      (fun entry => (tableKey table entry.1).isSome) ↔ Reached table store other := by
    rw [seek, mem_takeWhile_sorted (store.sorted.filter _)]
    simp only [mem_filter, decide_eq_true_eq, Reached, and_imp, and_assoc]
  have canonical := canonical_vectorFormat canonical_byteFormat
  simp only [mem_scan, reached_iff]
  constructor
  · rintro ⟨other, reached, written⟩
    obtain ⟨key, found, rfl⟩ := Option.map_eq_some_iff.mp written
    obtain ⟨⟨rest, read⟩, front⟩ := tableKey_eq_some.mp found
    have good := stringFormat.good key rest rest (canonical _ _ _ read ▸ read)
    have again := stringFormat.reads key good []
    rw [append_nil] at again
    exact ⟨⟨key, again, front⟩, other, reached,
      found.trans (tableKey_eq_some.mpr ⟨⟨[], again⟩, front⟩).symm⟩
  · rintro ⟨⟨key, read, front⟩, other, reached, same⟩
    refine ⟨other, reached, ?_⟩
    have whole := canonical _ _ _ read
    rw [same, tableKey_eq_some.mpr ⟨⟨[], read⟩, front⟩, whole, append_nil]
    rfl

/-- `DeleteAll` removes exactly the keys of the table when the loop comes to an entry from
which each of them is read. -/
theorem deleteAll_exact_iff (table : UInt8) (store : Store) :
    (∀ entry ∈ store.entries, entry ∈ deleteAll table store ↔ ¬ InTable table entry.1) ↔
      ∀ entry ∈ store.entries, InTable table entry.1 →
        ∃ other, Reached table store other ∧ tableKey table other.1 = tableKey table entry.1 := by
  refine forall₂_congr fun entry member => ?_
  rw [deleteAll, mem_filter, decide_eq_true_eq, mem_scan_seek, and_iff_right member,
    not_iff_not, and_iff_left_iff_imp]

/-- A key of the table `M` keeps one of the table `U` in the store. -/
theorem deleteAll_leaves_key :
    let store : Store := ⟨[([2, 77, 48], []), ([2, 85, 48], [])], by decide⟩
    ([2, 85, 48], []) ∈ deleteAll 85 store ∧ InTable 85 [2, 85, 48] :=
  ⟨by decide, [85, 48], rfl, rfl⟩

end Database

end MooncoinFormal.Mweb
