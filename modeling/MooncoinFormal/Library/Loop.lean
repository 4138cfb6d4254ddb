import Mathlib

/-!
# Deterministic loops

A loop is a function that takes a state either to the state of the next pass or
to an exit. The run with a fuel bound is executable; the loop exits when some
amount of fuel reaches an exit. The main rule splits the states of a loop that
satisfy an invariant into those from which the next pass descends in a
well-founded order and those that reproduce themselves: the loop then exits
exactly when no state of the second kind is ever reached.
-/

namespace MooncoinFormal.Library.Loop

variable {σ ε : Type*}

/-- Run at most `fuel` passes; `none` when no exit was reached. -/
def run (next : σ → σ ⊕ ε) : (fuel : Nat) → σ → Option ε
  | 0, _ => none
  | fuel + 1, state =>
    match next state with
    | .inl state' => run next fuel state'
    | .inr exit => some exit

def Exits (next : σ → σ ⊕ ε) (state : σ) : Prop :=
  ∃ fuel exit, run next fuel state = some exit

inductive Reaches (next : σ → σ ⊕ ε) : σ → σ → Prop where
  | refl (state : σ) : Reaches next state state
  | pass {state state' final : σ} (stepped : next state = .inl state')
      (rest : Reaches next state' final) : Reaches next state final

variable {next : σ → σ ⊕ ε} {state : σ}

theorem run_inl {state' : σ} (stepped : next state = .inl state') (fuel : Nat) :
    run next (fuel + 1) state = run next fuel state' := by
  simp [run, stepped]

theorem exits_of_inr {exit : ε} (left : next state = .inr exit) : Exits next state :=
  ⟨1, exit, by simp [run, left]⟩

theorem exits_iff_of_inl {state' : σ} (stepped : next state = .inl state') :
    Exits next state ↔ Exits next state' := by
  constructor
  · rintro ⟨fuel, exit, done⟩
    cases fuel with
    | zero => simp [run] at done
    | succ fuel => exact ⟨fuel, exit, by rw [← run_inl stepped, done]⟩
  · rintro ⟨fuel, exit, done⟩
    exact ⟨fuel + 1, exit, by rw [run_inl stepped, done]⟩

/-- An invariant of single passes holds in every state reached. -/
theorem Reaches.invariant {Inv : σ → Prop}
    (kept : ∀ state state', Inv state → next state = .inl state' → Inv state') {final : σ}
    (reached : Reaches next state final) (initial : Inv state) : Inv final := by
  induction reached with
  | refl state => exact initial
  | pass stepped _ ih => exact ih (kept _ _ initial stepped)

theorem exits_of_exits {final : σ} (reached : Reaches next state final) (done : Exits next state) :
    Exits next final := by
  induction reached with
  | refl state => exact done
  | pass stepped _ ih => exact ih ((exits_iff_of_inl stepped).mp done)

theorem not_exits_of_stuck (Stuck : σ → Prop)
    (repeats : ∀ state, Stuck state → ∃ state', next state = .inl state' ∧ Stuck state')
    (stuck : Stuck state) : ¬ Exits next state := by
  rintro ⟨fuel, exit, done⟩
  induction fuel generalizing state with
  | zero => simp [run] at done
  | succ fuel ih =>
    obtain ⟨state', stepped, stuck'⟩ := repeats state stuck
    rw [run_inl stepped] at done
    exact ih stuck' done

/-- The exit rule: under an invariant, where every pass from a state that is
not stuck either leaves the loop or descends, the loop exits exactly when it
never meets a stuck state. -/
theorem exits_iff_never_stuck {α : Type*} {lt : α → α → Prop} (wf : WellFounded lt)
    (measure : σ → α) (Inv : σ → Prop) {Stuck : σ → Prop}
    (kept : ∀ state state', Inv state → next state = .inl state' → Inv state')
    (descends : ∀ state state', Inv state → ¬ Stuck state → next state = .inl state' →
      lt (measure state') (measure state))
    (repeats : ∀ state, Inv state → Stuck state → ∃ state', next state = .inl state' ∧ Stuck state')
    (initial : Inv state) :
    Exits next state ↔ ∀ final, Reaches next state final → ¬ Stuck final := by
  constructor
  · intro done final reached stuck
    have invariant := reached.invariant kept initial
    refine not_exits_of_stuck (fun s => Inv s ∧ Stuck s) ?_ ⟨invariant, stuck⟩
      (exits_of_exits reached done)
    rintro s ⟨inv, stk⟩
    obtain ⟨s', stepped, stk'⟩ := repeats s inv stk
    exact ⟨s', stepped, kept s s' inv stepped, stk'⟩
  · intro never
    -- induction on the measure of the current state
    induction hm : measure state using wf.induction generalizing state with
    | _ value ih =>
      subst hm
      cases stepped : next state with
      | inr exit => exact exits_of_inr stepped
      | inl state' =>
        refine (exits_iff_of_inl stepped).mpr ?_
        exact ih (measure state')
          (descends state state' initial (never state (.refl state)) stepped)
          (kept state state' initial stepped)
          (fun final reached => never final (.pass stepped reached)) rfl

end MooncoinFormal.Library.Loop
