import Mathlib

/-! # Calls on an object and its specification

An object answers a call with an output and its next state, or raises.  A
specification answers every call.  `Forward` is the simulation condition for one
call; `Forward.calls` packages the induction over a sequence of calls: the object
never raises, gives the specification's outputs and ends in a related state.
-/

namespace Excalibur.Library

variable {σ τ ι ο ε : Type*}

/-- The outputs of the calls of `inputs`, made in turn, and the state after them. -/
def calls (call : σ → ι → Except ε (ο × σ)) (state : σ) : List ι → Except ε (List ο × σ)
  | [] => .ok ([], state)
  | input :: inputs =>
    match call state input with
    | .error e => .error e
    | .ok (output, next) =>
      match calls call next inputs with
      | .error e => .error e
      | .ok (outputs, finish) => .ok (output :: outputs, finish)

/-- The outputs of a specification for the calls of `inputs`, and its state after them. -/
def answers (answer : τ → ι → ο × τ) (state : τ) : List ι → List ο × τ
  | [] => ([], state)
  | input :: inputs =>
    let outputs := answers answer (answer state input).2 inputs
    ((answer state input).1 :: outputs.1, outputs.2)

theorem answers_append (answer : τ → ι → ο × τ) (state : τ) (first second : List ι) :
    answers answer state (first ++ second) =
      ((answers answer state first).1 ++ (answers answer (answers answer state first).2 second).1,
        (answers answer (answers answer state first).2 second).2) := by
  induction first generalizing state with
  | nil => rfl
  | cons input first ih => simp only [List.cons_append, answers, ih]

/-- Related states answer alike and stay related. -/
def Forward (call : σ → ι → Except ε (ο × σ)) (answer : τ → ι → ο × τ) (related : σ → τ → Prop) :
    Prop :=
  ∀ state spec input, related state spec →
    ∃ next, call state input = .ok ((answer spec input).1, next) ∧
      related next (answer spec input).2

theorem Forward.calls {call : σ → ι → Except ε (ο × σ)} {answer : τ → ι → ο × τ}
    {related : σ → τ → Prop} (forward : Forward call answer related) {state : σ} {spec : τ}
    (start : related state spec) (inputs : List ι) :
    ∃ finish, Library.calls call state inputs = .ok ((answers answer spec inputs).1, finish) ∧
      related finish (answers answer spec inputs).2 := by
  induction inputs generalizing state spec with
  | nil => exact ⟨state, rfl, start⟩
  | cons input inputs ih =>
    obtain ⟨next, called, stepRelated⟩ := forward state spec input start
    obtain ⟨finish, rest, related⟩ := ih stepRelated
    refine ⟨finish, ?_, related⟩
    simp only [Library.calls, called, rest, answers]

end Excalibur.Library
