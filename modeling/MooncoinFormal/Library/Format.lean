import MooncoinFormal.Library.Codec

/-!
# Formats

A format is a writer and a reader together with the values they agree on: such a
value is read back from its bytes, which are taken exactly, and no other value ever
is, whatever follows its bytes. Formats are put together field by field, the way a
serialization method lists the fields of its class, and the values that survive are
those whose fields do.
-/

namespace MooncoinFormal.Library.Codec

open Option List

structure Format (α : Type) where
  write : α → List UInt8
  read : Reader α
  /-- The values that are read back. -/
  Good : α → Prop
  reads : ∀ value, Good value → Reads read (write value) value
  good : ∀ value rest left, read.run (write value ++ rest) = some (value, left) → Good value

namespace Format

variable {α β : Type} (format : Format α)

/-- Reading starts with a field that the result keeps: the field survives, and the
rest is read from what follows its bytes. -/
theorem peel {next : α → Reader β} {field : α} {tail left : List UInt8} {result : β}
    (run : (format.read >>= next).run (format.write field ++ tail) = some (result, left))
    (keeps : ∀ other bytes, (next other).run bytes = some (result, left) → other = field) :
    format.Good field ∧ (next field).run tail = some (result, left) := by
  obtain ⟨⟨other, bytes⟩, first, second⟩ := bind_eq_some_iff.mp run
  obtain rfl := keeps other bytes second
  have survives := format.good other tail bytes first
  have same := (format.reads other survives tail).symm.trans first
  cases same
  exact ⟨survives, second⟩

theorem eq_of_append {value other : α} (survives : format.Good value)
    (survives' : format.Good other) {rest left : List UInt8}
    (same : format.write value ++ rest = format.write other ++ left) :
    value = other ∧ rest = left := by
  have read := format.reads value survives rest
  rw [same, format.reads other survives' left] at read
  cases read
  exact ⟨rfl, rfl⟩

variable (write : α → List UInt8)

/-- A writer and a reader that agree on what some image of the value is: the values
that survive are those that are their own image. -/
def ofImage (read : Reader α) (image : α → α)
    (reads : ∀ value, Reads read (write value) (image value)) : Format α where
  write := write
  read := read
  Good := fun value => image value = value
  reads := by
    intro value fixed
    have same := reads value
    rwa [fixed] at same
  good := by
    intro value rest left run
    rw [reads value] at run
    exact (Prod.mk.inj (some.inj run)).1

/-- A writer and a reader that give every value back. -/
def ofReads (read : Reader α) (reads : ∀ value, Reads read (write value) value) : Format α :=
  ofImage write read id reads

/-- Nothing is written. -/
def nothing : Format Unit :=
  ofReads (fun _ => []) (Pure.pure ()) Reads.pure

/-- One field after the other, the second of a kind that the first decides. -/
def dependent {kind : α → Type} (first : Format α) (second : ∀ field, Format (kind field)) :
    Format ((field : α) × kind field) where
  write := fun value => first.write value.1 ++ (second value.1).write value.2
  read := do
    let field ← first.read
    let other ← (second field).read
    return ⟨field, other⟩
  Good := fun value => first.Good value.1 ∧ (second value.1).Good value.2
  reads := by
    rintro ⟨field, other⟩ ⟨goodFirst, goodSecond⟩
    exact (first.reads field goodFirst).bind
      (((second field).reads other goodSecond).last (Reads.pure _))
  good := by
    rintro ⟨field, other⟩ rest left run
    rw [append_assoc] at run
    have keeps : ∀ found bytes,
        ((second found).read >>= fun other' => (return ⟨found, other'⟩ :
          Reader ((field : α) × kind field))).run bytes = some (⟨field, other⟩, left) →
        found = field := by
      intro found bytes later
      rw [StateT.run_bind] at later
      obtain ⟨_, -, done⟩ := bind_eq_some_iff.mp later
      cases done
      rfl
    obtain ⟨goodFirst, later⟩ := first.peel run keeps
    have kept : ∀ found bytes,
        (return ⟨field, found⟩ : Reader ((field : α) × kind field)).run bytes =
          some (⟨field, other⟩, left) → found = other := by
      intro found bytes done
      cases done
      rfl
    exact ⟨goodFirst, ((second field).peel later kept).1⟩

/-- The format of a type whose values are those of another one, named differently. -/
def along (same : α ≃ β) : Format β where
  write := fun value => format.write (same.symm value)
  read := do
    let value ← format.read
    return same value
  Good := fun value => format.Good (same.symm value)
  reads := by
    intro value survives
    refine (format.reads (same.symm value) survives).last ?_
    rw [Equiv.apply_symm_apply]
    exact Reads.pure value
  good := by
    intro value rest left run
    refine (format.peel run ?_).1
    intro other bytes done
    cases done
    exact (same.symm_apply_apply other).symm

def pair (first : Format α) (second : Format β) : Format (α × β) :=
  (first.dependent fun _ => second).along (Equiv.sigmaEquivProd α β)

/-- A field that is written exactly when a flag is set. -/
def onlyWhen : (flag : Bool) → Format { field : Option α // field.isSome = flag }
  | true =>
    format.along
      { toFun := fun value => ⟨some value, rfl⟩
        invFun := fun field => field.1.get field.2
        left_inv := fun _ => rfl
        right_inv := by
          rintro ⟨field, -⟩
          simp }
  | false =>
    nothing.along
      { toFun := fun _ => ⟨none, rfl⟩
        invFun := fun _ => ()
        left_inv := fun _ => rfl
        right_inv := by
          rintro ⟨field, absent⟩
          obtain rfl : field = none := by simpa using absent
          rfl }

/-- A list that is written when a flag is set and is empty otherwise. -/
def listWhen (format : Format (List α)) :
    (flag : Bool) → Format { values : List α // values ≠ [] → flag = true }
  | true =>
    format.along
      { toFun := fun values => ⟨values, fun _ => rfl⟩
        invFun := Subtype.val
        left_inv := fun _ => rfl
        right_inv := fun _ => rfl }
  | false =>
    nothing.along
      { toFun := fun _ => ⟨[], fun absurdity => absurd rfl absurdity⟩
        invFun := fun _ => ()
        left_inv := fun _ => rfl
        right_inv := by
          rintro ⟨values, empty⟩
          simpa using empty }

@[simp] theorem good_pair {first : Format α} {second : Format β} {value : α × β} :
    (first.pair second).Good value ↔ first.Good value.1 ∧ second.Good value.2 := Iff.rfl

@[simp] theorem good_ofReads {write : α → List UInt8} {read : Reader α}
    {reads : ∀ value, Reads read (write value) value} {value : α} :
    (ofReads write read reads).Good value ↔ True := iff_true_intro rfl

variable {format : Format α}

@[simp] theorem good_along {same : α ≃ β} {value : β} :
    (format.along same).Good value ↔ format.Good (same.symm value) := Iff.rfl

@[simp] theorem good_dependent {kind : α → Type} {first : Format α}
    {second : ∀ field, Format (kind field)} {value : (field : α) × kind field} :
    (first.dependent second).Good value ↔ first.Good value.1 ∧ (second value.1).Good value.2 :=
  Iff.rfl

@[simp] theorem good_onlyWhen {flag : Bool} {field : { field : Option α // field.isSome = flag }} :
    (format.onlyWhen flag).Good field ↔ ∀ value, field.1 = some value → format.Good value := by
  obtain ⟨field, present⟩ := field
  cases flag with
  | true =>
    obtain ⟨value, rfl⟩ := isSome_iff_exists.mp present
    exact ⟨fun survives _ same => some.inj same ▸ survives, fun all => all value rfl⟩
  | false =>
    obtain rfl : field = none := by simpa using present
    exact ⟨fun _ _ absurdity => (nomatch absurdity), fun _ => rfl⟩

@[simp] theorem good_listWhen {format : Format (List α)} {flag : Bool}
    {values : { values : List α // values ≠ [] → flag = true }} :
    (format.listWhen flag).Good values ↔ (flag = true → format.Good values.1) := by
  cases flag with
  | true => exact ⟨fun survives _ => survives, fun survives => survives rfl⟩
  | false => exact ⟨fun _ absurdity => (nomatch absurdity), fun _ => rfl⟩

theorem good_of_readMany (format : Format α) {values : List α} {rest left : List UInt8}
    (run : (readMany format.read values.length).run (values.flatMap format.write ++ rest) =
      some (values, left)) : ∀ value ∈ values, format.Good value := by
  induction values generalizing left with
  | nil => simp
  | cons first others ih =>
    rw [flatMap_cons, append_assoc] at run
    have keeps : ∀ found bytes,
        (readMany format.read others.length >>= fun found' =>
          (return found :: found' : Reader (List α))).run bytes = some (first :: others, left) →
        found = first := by
      intro found bytes later
      obtain ⟨_, -, done⟩ := bind_eq_some_iff.mp later
      cases done
      rfl
    obtain ⟨goodFirst, later⟩ := format.peel run keeps
    obtain ⟨⟨found, bytes⟩, many, done⟩ := bind_eq_some_iff.mp later
    cases done
    exact forall_mem_cons.mpr ⟨goodFirst, ih many⟩

end Format

end MooncoinFormal.Library.Codec
