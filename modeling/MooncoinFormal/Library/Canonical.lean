import MooncoinFormal.Library.Format

/-!
# Canonical formats

A format is canonical when what its reader accepts is what its writer writes: no
value has a second spelling. The combinators keep that, so a format put together
from canonical fields is canonical.
-/

namespace MooncoinFormal.Library.Codec

open List Option

variable {α β : Type}

theorem toBytes_littleEndian (bytes : List UInt8) :
    toBytes bytes.length (littleEndian bytes) = bytes := by
  induction bytes with
  | nil => rfl
  | cons byte rest ih =>
    have low : UInt8.ofNat (byte.toNat + 256 * littleEndian rest) = byte := by
      apply UInt8.toNat_inj.mp
      have bound := byte.toNat_lt
      simp
    have high : (byte.toNat + 256 * littleEndian rest) / 256 = littleEndian rest := by
      have bound := byte.toNat_lt
      omega
    rw [length_cons, toBytes, littleEndian, low, high, ih]

variable {bytes rest : List UInt8} {format : Format α}

theorem eq_of_readWord {size value : Nat} (run : (readWord size).run bytes = some (value, rest)) :
    bytes = toBytes size value ++ rest ∧ value < 256 ^ size := by
  rw [readWord, StateT.run_bind] at run
  obtain ⟨⟨taken, left⟩, first, done⟩ := bind_eq_some_iff.mp run
  cases done
  have read : (if bytes.length < size then none else some (bytes.take size, bytes.drop size)) =
      some (taken, left) := first
  split at read
  · cases read
  cases read
  have length : (bytes.take size).length = size := by
    rw [length_take]
    omega
  have word := toBytes_littleEndian (bytes.take size)
  have value := littleEndian_toBytes size (littleEndian (bytes.take size))
  rw [length] at word
  rw [word] at value ⊢
  exact ⟨(take_append_drop size bytes).symm, value ▸ Nat.mod_lt _ (Nat.pow_pos (by decide))⟩

namespace Format

/-- What is accepted is what is written. -/
def Canonical (format : Format α) : Prop :=
  ∀ bytes value rest, format.read.run bytes = some (value, rest) →
    bytes = format.write value ++ rest

/-- Reading starts with a canonical field: its bytes stand at the front. -/
theorem Canonical.front (canonical : format.Canonical) {next : α → Reader β} {result : β}
    (run : (format.read >>= next).run bytes = some (result, rest)) :
    ∃ field left, bytes = format.write field ++ left ∧
      (next field).run left = some (result, rest) := by
  obtain ⟨⟨field, left⟩, first, later⟩ := bind_eq_some_iff.mp run
  exact ⟨field, left, canonical bytes field left first, later⟩

theorem canonical_nothing : nothing.Canonical := by
  intro bytes value rest run
  cases run
  rfl

theorem Canonical.along (canonical : format.Canonical) (same : α ≃ β) :
    (format.along same).Canonical := by
  intro bytes value rest run
  obtain ⟨field, left, rfl, done⟩ := canonical.front run
  cases done
  show _ = format.write (same.symm (same field)) ++ _
  rw [same.symm_apply_apply]

theorem Canonical.dependent {kind : α → Type} {first : Format α}
    {second : ∀ field, Format (kind field)} (canonical : first.Canonical)
    (canonical' : ∀ field, (second field).Canonical) : (first.dependent second).Canonical := by
  intro bytes value rest run
  obtain ⟨field, middle, rfl, later⟩ := canonical.front run
  obtain ⟨other, left, rfl, done⟩ := (canonical' field).front later
  cases done
  exact (append_assoc _ _ _).symm

theorem Canonical.pair {first : Format α} {second : Format β} (canonical : first.Canonical)
    (canonical' : second.Canonical) : (first.pair second).Canonical :=
  (canonical.dependent fun _ => canonical').along _

theorem Canonical.onlyWhen (canonical : format.Canonical) (flag : Bool) :
    (format.onlyWhen flag).Canonical := by
  cases flag with
  | true => exact canonical.along _
  | false => exact canonical_nothing.along _

theorem Canonical.listWhen {format : Format (List α)} (canonical : format.Canonical) (flag : Bool) :
    (format.listWhen flag).Canonical := by
  cases flag with
  | true => exact canonical.along _
  | false => exact canonical_nothing.along _

/-- A format whose reader also refuses some values. -/
def accepting (format : Format α) (accepted : α → Bool) : Format α where
  write := format.write
  read := do
    let value ← format.read
    if accepted value then return value else failure
  Good := fun value => format.Good value ∧ accepted value = true
  reads := by
    intro value ⟨survives, passes⟩
    refine (format.reads value survives).last ?_
    rw [if_pos passes]
    exact Reads.pure value
  good := by
    intro value rest left run
    have kept : ∀ other bytes,
        (if accepted other then return other else failure : Reader α).run bytes =
          some (value, left) → other = value ∧ accepted other = true := by
      intro other bytes done
      split at done
      · rename_i passes
        cases done
        exact ⟨rfl, passes⟩
      · cases done
    obtain ⟨survives, later⟩ := format.peel run fun other bytes done => (kept other bytes done).1
    exact ⟨survives, (kept value rest later).2⟩

theorem Canonical.accepting (canonical : format.Canonical) (accepted : α → Bool) :
    (format.accepting accepted).Canonical := by
  intro bytes value rest run
  obtain ⟨field, left, rfl, later⟩ := canonical.front run
  split at later
  · cases later
    rfl
  · cases later

/-- As many values as are asked for, one after the other. -/
theorem Canonical.readMany (canonical : format.Canonical) {count : Nat} {values : List α}
    (run : (readMany format.read count).run bytes = some (values, rest)) :
    bytes = values.flatMap format.write ++ rest := by
  induction count generalizing bytes values with
  | zero =>
    cases run
    rfl
  | succ count ih =>
    obtain ⟨first, middle, rfl, later⟩ := canonical.front run
    obtain ⟨⟨others, left⟩, many, done⟩ := bind_eq_some_iff.mp later
    cases done
    rw [ih many, flatMap_cons, append_assoc]

end Format

end MooncoinFormal.Library.Codec
