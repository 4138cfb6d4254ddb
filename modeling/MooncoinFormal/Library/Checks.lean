import Mathlib

/-!
# Sequences of checks

A check returns nothing or an error, and checks run one after another until the
first that fails. The lemmas read a passed sequence as the conjunction of its
conditions, and say which error a failed one reports.
-/

namespace MooncoinFormal.Library.Checks

variable {ε α β : Type}

/-- Pass when the condition holds, fail with the error otherwise. -/
def ensure (condition : Prop) [Decidable condition] (error : ε) : Except ε Unit :=
  if condition then .ok () else .error error

variable {condition : Prop} {error : ε}

theorem ensure_of [Decidable condition] (holds : condition) :
    ensure condition error = .ok () := if_pos holds

@[simp] theorem ensure_eq_ok [Decidable condition] {done : Unit} :
    ensure condition error = .ok done ↔ condition := by
  unfold ensure
  split <;> simp [*]

@[simp] theorem ensure_eq_error [Decidable condition] {reported : ε} :
    ensure condition error = .error reported ↔ ¬ condition ∧ error = reported := by
  unfold ensure
  split <;> simp [*]

variable {next : α → Except ε β} {first : Except ε α}

@[simp] theorem bind_eq_ok {result : β} :
    (first >>= next) = .ok result ↔ ∃ value, first = .ok value ∧ next value = .ok result := by
  cases first with
  | error error => simp [bind, Except.bind]
  | ok value => simp [bind, Except.bind]

@[simp] theorem bind_eq_error : (first >>= next) = .error error ↔
      first = .error error ∨ ∃ value, first = .ok value ∧ next value = .error error := by
  cases first with
  | error other => simp [bind, Except.bind]
  | ok value => simp [bind, Except.bind]

theorem exists_of_isOk {result : Except ε α} (passes : result.isOk = true) :
    ∃ value, result = .ok value := by
  cases result with
  | error error => cases passes
  | ok value => exact ⟨value, rfl⟩

/-- Run a check on every element, in order. -/
def ensureAll (check : α → Except ε Unit) : List α → Except ε Unit
  | [] => .ok ()
  | first :: rest => do
      check first
      ensureAll check rest

theorem ensureAll_eq_ok {check : α → Except ε Unit} {items : List α} {done : Unit} :
    ensureAll check items = .ok done ↔ ∀ item ∈ items, check item = .ok () := by
  induction items with
  | nil => simp [ensureAll]
  | cons first rest ih =>
    simp only [ensureAll, bind_eq_ok, ih, List.forall_mem_cons]
    constructor
    · rintro ⟨⟨⟩, here, later⟩
      exact ⟨here, later⟩
    · rintro ⟨here, later⟩
      exact ⟨(), here, later⟩

end MooncoinFormal.Library.Checks
