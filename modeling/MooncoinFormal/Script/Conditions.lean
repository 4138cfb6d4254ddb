import Mathlib

/-!
# The stack of conditionals

`ConditionStack` of `script/interpreter.cpp` keeps only the size of a stack of booleans
and the position of its first false value. It answers as the stack would, as long as
the size fits.
-/

namespace MooncoinFormal.Script

open List

/-- `ConditionStack`; the largest position stands for no false value. -/
structure ConditionStack where
  size : UInt32 := 0
  firstFalse : UInt32 := 0xffffffff
  deriving DecidableEq, Repr

inductive ConditionOp where
  | pushBack (f : Bool)
  | popBack
  | toggleTop

namespace ConditionStack

def noFalse : UInt32 := 0xffffffff

variable (conditions : ConditionStack)

def empty : Bool := conditions.size == 0

def allTrue : Bool := conditions.firstFalse == noFalse

def pushBack (f : Bool) : ConditionStack where
  size := conditions.size + 1
  firstFalse := if conditions.firstFalse = noFalse ∧ f = false then conditions.size
    else conditions.firstFalse

def popBack : ConditionStack where
  size := conditions.size - 1
  firstFalse := if conditions.firstFalse = conditions.size - 1 then noFalse
    else conditions.firstFalse

def toggleTop : ConditionStack where
  size := conditions.size
  firstFalse := if conditions.firstFalse = noFalse then conditions.size - 1
    else if conditions.firstFalse = conditions.size - 1 then noFalse
    else conditions.firstFalse

/-- An operation, unless its assertion fails. -/
def step : ConditionOp → Option ConditionStack
  | .pushBack f => some (conditions.pushBack f)
  | .popBack => if conditions.size = 0 then none else some conditions.popBack
  | .toggleTop => if conditions.size = 0 then none else some conditions.toggleTop

/-- An operation on the explicit stack, the top first, where it is legal. -/
def vectorStep : List Bool → ConditionOp → Option (List Bool)
  | values, .pushBack f => some (f :: values)
  | _ :: values, .popBack => some values
  | top :: values, .toggleTop => some ((!top) :: values)
  | [], _ => none

/-- What a stack of values is kept as. -/
def ofValues : List Bool → ConditionStack
  | [] => {}
  | f :: values => (ofValues values).pushBack f

variable {conditions} {values : List Bool}

theorem pushBack_undo (f : Bool) (small : conditions.size ≠ noFalse)
    (differs : conditions.firstFalse ≠ conditions.size) :
    (conditions.pushBack f).popBack = conditions ∧
      (conditions.pushBack f).toggleTop = conditions.pushBack !f := by
  obtain ⟨size, firstFalse⟩ := conditions
  by_cases none : firstFalse = noFalse
  · cases f <;> simp_all [pushBack, popBack, toggleTop]
  · simp_all [pushBack, popBack, toggleTop]

theorem size_ofValues : (ofValues values).size = .ofNat values.length := by
  induction values with
  | nil => rfl
  | cons f values ih => rw [ofValues, pushBack, ih, length_cons, UInt32.ofNat_add]; rfl

theorem size_ne (small : values.length + 1 < 2 ^ 32) : (ofValues values).size ≠ noFalse := by
  rw [size_ofValues, ne_eq, ← UInt32.toNat_inj, UInt32.toNat_ofNat_of_lt' (Nat.lt_of_succ_lt small)]
  exact Nat.ne_of_lt (Nat.lt_sub_of_add_lt small)

theorem ofValues_spec (small : values.length < 2 ^ 32) :
    (ofValues values).allTrue = values.all id ∧ ((ofValues values).firstFalse = noFalse ∨
      (ofValues values).firstFalse.toNat < values.length) := by
  induction values with
  | nil => exact ⟨rfl, .inl rfl⟩
  | cons f values ih =>
    obtain ⟨all, position⟩ := ih (Nat.lt_of_succ_lt small)
    rw [ofValues, all_cons, ← all]
    by_cases none : (ofValues values).firstFalse = noFalse
    · have size : values.length % 2 ^ 32 < values.length + 1 := Nat.lt_succ_of_le (Nat.mod_le _ _)
      cases f
      · have apart : UInt32.ofNat values.length ≠ noFalse := size_ofValues ▸ size_ne small
        refine ⟨?_, .inr ?_⟩
        · simp [pushBack, allTrue, none, size_ofValues, apart]
        · simpa [pushBack, none, size_ofValues] using size
      · simp [pushBack, allTrue, none]
    · have below := position.resolve_left none
      simp [pushBack, allTrue, none, Nat.lt_succ_of_lt below]

theorem ofValues_undo {top : Bool} (small : (top :: values).length < 2 ^ 32) :
    (ofValues (top :: values)).size ≠ 0 ∧ (ofValues (top :: values)).popBack = ofValues values ∧
      (ofValues (top :: values)).toggleTop = ofValues ((!top) :: values) := by
  refine ⟨fun none => ?_, pushBack_undo top (size_ne small) fun same => ?_⟩
  · rw [size_ofValues, ← UInt32.toNat_inj, UInt32.toNat_ofNat_of_lt' small] at none
    cases none
  · rcases (ofValues_spec (Nat.lt_of_succ_lt small)).2 with none | below
    · exact size_ne small (same.symm.trans none)
    · rw [same, size_ofValues, UInt32.toNat_ofNat_of_lt' (Nat.lt_of_succ_lt small)] at below
      exact Nat.lt_irrefl _ below

section

variable {ops : List ConditionOp} (legal : ops.foldlM vectorStep [] = some values)
  (small : ∀ before ∈ ops.inits,
    (before.foldlM vectorStep []).all (·.length < 2 ^ 32) = true)
include legal small

theorem foldlM_step : ops.foldlM step {} = some (ofValues values) := by
  induction ops using reverseRecOn generalizing values with
  | nil =>
    cases legal
    rfl
  | append_singleton ops op ih =>
    rw [foldlM_append] at legal ⊢
    obtain ⟨held, before, last⟩ := Option.bind_eq_some_iff.mp legal
    have start : ∀ {earlier}, earlier ∈ ops.inits → earlier ∈ (ops ++ [op]).inits := fun inside =>
      (mem_inits _ _).mpr (((mem_inits _ _).mp inside).trans (prefix_append _ _))
    have fits := small ops (start ((mem_inits _ _).mpr prefix_rfl))
    rw [before, Option.all_some, decide_eq_true_eq] at fits
    rw [ih before fun earlier inside => small earlier (start inside)]
    cases op with
    | pushBack f =>
      cases last
      rfl
    | popBack =>
      cases held with
      | nil => cases last
      | cons top held =>
        cases last
        simp [step, ofValues_undo fits]
    | toggleTop =>
      cases held with
      | nil => cases last
      | cons top held =>
        cases last
        simp [step, ofValues_undo fits]

/-- The two numbers answer as the stack of booleans in every legal run in which the stack has
fewer than `2 ^ 32` values, and no assertion fails. -/
theorem run_refines_vector : ∃ conditions, ops.foldlM step {} = some conditions ∧
    conditions.empty = values.isEmpty ∧ conditions.allTrue = values.all id := by
  have fits := small ops ((mem_inits _ _).mpr prefix_rfl)
  rw [legal, Option.all_some, decide_eq_true_eq] at fits
  refine ⟨ofValues values, foldlM_step legal small, ?_, (ofValues_spec fits).1⟩
  cases values with
  | nil => rfl
  | cons top values => exact beq_eq_false_iff_ne.mpr (ofValues_undo fits).1

end

theorem run_refines_vector_else :
    ∃ conditions, [.pushBack false, .toggleTop].foldlM step {} = some conditions ∧
      conditions.empty = false ∧ conditions.allTrue = true :=
  @run_refines_vector [true] [.pushBack false, .toggleTop] rfl (by decide)

theorem foldlM_pushes (values : List Bool) :
    (values.reverse.map .pushBack).foldlM step {} = some (ofValues values) ∧
      (values.reverse.map .pushBack).foldlM vectorStep [] = some values := by
  induction values with
  | nil => exact ⟨rfl, rfl⟩
  | cons f values ih =>
    rw [reverse_cons, map_append, foldlM_append, foldlM_append, ih.1, ih.2]
    exact ⟨rfl, rfl⟩

/-- With `2 ^ 32` values the size is zero again. -/
theorem pushes_wrap : ∃ (ops : List ConditionOp) (conditions : ConditionStack) (values : List Bool),
    ops.foldlM vectorStep [] = some values ∧ ops.foldlM step {} = some conditions ∧
      values.isEmpty = false ∧ conditions.empty = true := by
  refine ⟨_, _, _, (foldlM_pushes (replicate (2 ^ 32) true)).2, (foldlM_pushes _).1, rfl, ?_⟩
  rw [empty, size_ofValues, length_replicate]
  rfl

end ConditionStack

end MooncoinFormal.Script
