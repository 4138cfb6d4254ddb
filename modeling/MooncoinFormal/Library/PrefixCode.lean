import Mathlib

/-!
# Writing values as numbers without collisions

A value is written as a list of numbers such that one can see where the list
ends; lists of numbers are then packed into one number, each part with its width
in front. Different values get different numbers, and the size of the number grows
with the size of what is written.
-/

namespace MooncoinFormal.Library.PrefixCode

open List Nat

/-! ## Packing numbers -/

/-- A list in one number: the zeros at the end say how wide the first part is. -/
def pack : List Nat → Nat
  | [] => 0
  | first :: rest =>
    2 ^ (first.log2 + 1) * (2 * (2 ^ (first.log2 + 1) * pack rest + first) + 1)

theorem two_pow_mul_odd_inj {s t a b : Nat} (same : 2 ^ s * (2 * a + 1) = 2 ^ t * (2 * b + 1)) :
    s = t ∧ a = b := by
  induction s generalizing t with
  | zero =>
    cases t with
    | zero => exact ⟨rfl, by omega⟩
    | succ t =>
      rw [pow_zero, pow_succ', mul_assoc] at same
      omega
  | succ s ih =>
    cases t with
    | zero =>
      rw [pow_zero, pow_succ', mul_assoc] at same
      omega
    | succ t =>
      rw [pow_succ', pow_succ', mul_assoc, mul_assoc] at same
      obtain ⟨width, value⟩ := ih (Nat.eq_of_mul_eq_mul_left Nat.two_pos same)
      exact ⟨congrArg succ width, value⟩

theorem pack_cons_pos (first : Nat) (rest : List Nat) : 0 < pack (first :: rest) :=
  Nat.mul_pos (Nat.two_pow_pos _) (succ_pos _)

theorem pack_ne_odd (parts : List Nat) (n : Nat) : pack parts ≠ 2 * n + 1 := by
  cases parts with
  | nil => exact (succ_ne_zero _).symm
  | cons first rest =>
    rw [pack, pow_succ', mul_assoc]
    omega

theorem pack_injective : Function.Injective pack := by
  intro parts others same
  induction parts generalizing others with
  | nil =>
    cases others with
    | nil => rfl
    | cons first rest =>
      have positive := pack_cons_pos first rest
      rw [← same] at positive
      exact absurd positive (lt_irrefl 0)
  | cons first rest ih =>
    cases others with
    | nil =>
      have positive := pack_cons_pos first rest
      rw [same] at positive
      exact absurd positive (lt_irrefl 0)
    | cons first' rest' =>
      obtain ⟨width, value⟩ := two_pow_mul_odd_inj same
      have small : first < 2 ^ (first.log2 + 1) := lt_log2_self
      have small' : first' < 2 ^ (first'.log2 + 1) := lt_log2_self
      rw [← width] at value small'
      have low := congrArg (· % 2 ^ (first.log2 + 1)) value
      have high := congrArg (· / 2 ^ (first.log2 + 1)) value
      simp only [mul_add_mod, mod_eq_of_lt small, mod_eq_of_lt small'] at low
      simp only [mul_add_div (Nat.two_pow_pos _), div_eq_of_lt small,
        div_eq_of_lt small', add_zero] at high
      rw [low, ih high]

section Writers

variable {α β : Type}

/-- What is written of a value is read off the front of whatever follows. -/
def PrefixFree (write : α → List Nat) : Prop :=
  ∀ ⦃x y : α⦄ ⦃rest rest' : List Nat⦄, write x ++ rest = write y ++ rest' → x = y ∧ rest = rest'

theorem PrefixFree.injective {write : α → List Nat} (free : PrefixFree write) :
    Function.Injective write := by
  intro x y same
  refine (@free x y [] [] ?_).1
  rw [same]

theorem prefixFree_one {value : α → Nat} (injective : Function.Injective value) :
    PrefixFree fun x => [value x] := by
  intro x y rest rest' same
  obtain ⟨first, others⟩ := cons.inj same
  exact ⟨injective first, others⟩

variable {write : α → List Nat} (free : PrefixFree write)
include free

/-- A number of values, when the number is known. -/
theorem PrefixFree.flatMap {xs ys : List α} {rest rest' : List Nat} (length : xs.length = ys.length)
    (same : xs.flatMap write ++ rest = ys.flatMap write ++ rest') : xs = ys ∧ rest = rest' := by
  induction xs generalizing ys with
  | nil =>
    obtain rfl := length_eq_zero_iff.mp length.symm
    exact ⟨rfl, same⟩
  | cons x xs ih =>
    cases ys with
    | nil => cases length
    | cons y ys =>
      rw [flatMap_cons, flatMap_cons, append_assoc, append_assoc] at same
      obtain ⟨rfl, others⟩ := free same
      obtain ⟨rfl, behind⟩ := ih (succ.inj length) others
      exact ⟨rfl, behind⟩

theorem PrefixFree.list : PrefixFree fun xs : List α => xs.length :: xs.flatMap write := by
  intro xs ys rest rest' same
  obtain ⟨length, same⟩ := cons.inj same
  exact free.flatMap length same

end Writers

end MooncoinFormal.Library.PrefixCode
