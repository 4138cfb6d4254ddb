import MooncoinFormal.Library.Checks

/-!
# Stricter computations

Two computations that may fail, of which the first runs under more rules than the
second: it is stricter when every result it reaches is also the result of the
second. Errors are not compared. A computation put together from stricter parts
is stricter, so the relation is checked rule by rule.
-/

namespace MooncoinFormal.Library.Strictness

open Checks

variable {ε α β : Type}

/-- Every result of `strict` is the result of `lax`. -/
def Stricter (strict lax : Except ε α) : Prop := ∀ value, strict = .ok value → lax = .ok value

theorem Stricter.refl (computation : Except ε α) : Stricter computation computation :=
  fun _ reached => reached

variable {strict lax : Except ε α}

theorem Stricter.of_unchanged {state : α}
    (unchanged : ∀ value, strict = .ok value → value = state) : Stricter strict (.ok state) := by
  intro value reached
  rw [unchanged value reached]

variable {strictNext laxNext : α → Except ε β}

theorem Stricter.bind (first : Stricter strict lax)
    (next : ∀ value, Stricter (strictNext value) (laxNext value)) :
    Stricter (strict >>= strictNext) (lax >>= laxNext) := by
  intro result reached
  obtain ⟨value, here, later⟩ := bind_eq_ok.mp reached
  exact bind_eq_ok.mpr ⟨value, first value here, next value result later⟩

theorem Stricter.bind_same {first : Except ε α}
    (next : ∀ value, Stricter (strictNext value) (laxNext value)) :
    Stricter (first >>= strictNext) (first >>= laxNext) :=
  (Stricter.refl first).bind next

theorem Stricter.bind_first (first : Stricter strict lax) (next : α → Except ε β) :
    Stricter (strict >>= next) (lax >>= next) :=
  first.bind fun _ => Stricter.refl _

/-- A check that holds wherever another does. -/
theorem Stricter.ensure {strict lax : Prop} [Decidable strict] [Decidable lax] {error : ε}
    (weaker : strict → lax) : Stricter (ensure strict error) (ensure lax error) := by
  rintro ⟨⟩ passed
  exact ensure_of (weaker (ensure_eq_ok.mp passed))

theorem Stricter.ite {condition : Prop} [Decidable condition] {strictElse laxElse : Except ε α}
    (here : condition → Stricter strict lax)
    (otherwise : ¬ condition → Stricter strictElse laxElse) :
    Stricter (if condition then strict else strictElse) (if condition then lax else laxElse) := by
  split
  case isTrue holds => exact here holds
  case isFalse fails => exact otherwise fails

end MooncoinFormal.Library.Strictness
