import MooncoinFormal.Library.Checks

/-!
# Runs that answer like an abstract machine

A machine takes operations one after another, answers each and may fail; an abstract one
answers the same operations and never fails. When the abstract state is known to stand for
the concrete one, a step answers alike exactly under some condition, and a step that
answers alike leads to states that belong together, then a run answers alike exactly when
the condition holds at each of its steps.
-/

namespace MooncoinFormal.Library.Simulation

open Library.Checks

variable {State Model Operation Answer Error : Type}

/-- Take operations in order; the first failure ends the run. -/
def run (step : State → Operation → Except Error (Answer × State)) :
    State → List Operation → Except Error (List Answer × State)
  | state, [] => .ok ([], state)
  | state, operation :: rest => do
      let (answer, state) ← step state operation
      let (answers, state) ← run step state rest
      .ok (answer :: answers, state)

def runModel (step : Model → Operation → Answer × Model) :
    Model → List Operation → List Answer × Model
  | model, [] => ([], model)
  | model, operation :: rest =>
    let (answer, model) := step model operation
    let (answers, model) := runModel step model rest
    (answer :: answers, model)

/-- Every operation is allowed in the abstract state it finds. -/
def Allowed (step : Model → Operation → Answer × Model) (allowed : Model → Operation → Prop) :
    Model → List Operation → Prop
  | _, [] => True
  | model, operation :: rest =>
    allowed model operation ∧ Allowed step allowed (step model operation).2 rest

/-- The condition holds in every state that the run comes to. -/
def Along (step : State → Operation → Except Error (Answer × State))
    (condition : State → Operation → Prop) : State → List Operation → Prop
  | _, [] => True
  | state, operation :: rest =>
    condition state operation ∧
      ∀ answer next, step state operation = .ok (answer, next) → Along step condition next rest

section Simulation

variable {step : State → Operation → Except Error (Answer × State)}
  {modelStep : Model → Operation → Answer × Model} {allowed : Model → Operation → Prop}

theorem run_answers_iff (relation : State → Model → Prop) (condition : State → Operation → Prop)
    (answers : ∀ state model operation, relation state model → allowed model operation →
      ((∃ next, step state operation = .ok ((modelStep model operation).1, next)) ↔
        condition state operation))
    (keeps : ∀ state model operation next, relation state model → allowed model operation →
      step state operation = .ok ((modelStep model operation).1, next) →
        relation next (modelStep model operation).2)
    {state : State} {model : Model} {operations : List Operation} (related : relation state model)
    (legal : Allowed modelStep allowed model operations) :
    (∃ last, run step state operations = .ok ((runModel modelStep model operations).1, last)) ↔
      Along step condition state operations := by
  induction operations generalizing state model with
  | nil => exact ⟨fun _ => trivial, fun _ => ⟨state, rfl⟩⟩
  | cons operation rest ih =>
    obtain ⟨here, later⟩ := legal
    constructor
    · rintro ⟨last, ran⟩
      simp only [run, runModel, bind_eq_ok, Prod.exists, Except.ok.injEq, Prod.mk.injEq,
        List.cons.injEq] at ran
      obtain ⟨-, next, stepped, -, final, ranRest, ⟨rfl, rfl⟩, rfl⟩ := ran
      refine ⟨(answers state model operation related here).mp ⟨next, stepped⟩, ?_⟩
      intro answer' next' stepped'
      rw [stepped] at stepped'
      cases stepped'
      exact (ih (keeps state model operation next related here stepped) later).mp ⟨final, ranRest⟩
    · rintro ⟨holds, along⟩
      obtain ⟨next, stepped⟩ := (answers state model operation related here).mpr holds
      have relatedNext := keeps state model operation next related here stepped
      obtain ⟨last, ranRest⟩ := (ih relatedNext later).mpr (along _ next stepped)
      refine ⟨last, ?_⟩
      simp only [run, stepped, bind_eq_ok, Prod.exists]
      exact ⟨_, next, rfl, _, last, ranRest, rfl⟩

end Simulation

end MooncoinFormal.Library.Simulation
