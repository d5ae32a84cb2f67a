import Synopsis.Invocation.Binding

/-!
# Resolving

Pending bindings are resolved in order, each expression once. An expression sees the bindings that
are ready, the tail, and the pending bindings resolved before its own.
-/

namespace Synopsis

/-- One call of an evaluator, with what it could refer to and what it answered. -/
structure Evaluation where
  expression : String
  view : View
  answer : Except String String

namespace Invocation

/-- The values of the bindings that are ready, and the tail. -/
def direct (bindings : List Binding) (tail : Option (List Token)) : Dict Value :=
  let ready := bindings.foldl (fun (d : Dict Value) b =>
    match b.bound with
    | .ready value => d.insert b.key value
    | .pending _ => d) Dict.empty
  match tail with
  | some tokens => ready.insert tailKey (.tail tokens)
  | none => ready

/-- What resolving has come to. -/
structure Resolution where
  /-- The parameter that has claimed the file topic. -/
  claimed : Option String
  /-- The pending bindings resolved so far. -/
  completed : Dict Value := Dict.empty
  evaluations : List Evaluation := []

abbrev Resolving := EStateM InvokeError Resolution

/-- A step that may claim the file topic, among those that resolve. -/
def claiming {α : Type} (step : Claiming α) : Resolving α := fun s =>
  match step s.claimed with
  | .ok (a, claimed) => .ok a { s with claimed }
  | .error e => .error e s

/-- The value of an entry of the parameter `b`. -/
def resolveEntry (evaluator : Evaluator) (ready : Dict Value) (b : Binding) :
    Entry → Resolving Value
  | .ready value => return value
  | .deferred expression => do
    let completed := (← get).completed
    let view : View := fun key => (completed.get? key).or (ready.get? key)
    let answer := evaluator expression view
    modify fun s => { s with evaluations := s.evaluations ++ [⟨expression, view, answer⟩] }
    match answer with
    | .error complaint => throw (.bind (.evaluation b.parameter complaint))
    | .ok text => claiming (Claiming.read b.type b.parameter text)

/-- Resolve a binding, if it is pending. -/
def resolveBinding (evaluator : Evaluator) (ready : Dict Value) (b : Binding) : Resolving Unit :=
  match b.bound with
  | .ready _ => return
  | .pending entries => do
    let values ← entries.mapM (resolveEntry evaluator ready b)
    modify fun s => { s with completed := s.completed.insert b.key (values.collect b.type) }

/-- Resolve the pending bindings in order. -/
def resolve (evaluator : Evaluator) (ready : Dict Value) : List Binding → Resolving Unit
  | [] => return
  | b :: bs => do
    resolveBinding evaluator ready b
    resolve evaluator ready bs

end Invocation

end Synopsis
