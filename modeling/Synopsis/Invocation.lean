import Synopsis.Invocation.Publishing
import Synopsis.Invocation.Resolving
import Synopsis.Invocation.Settling

/-!
# Invocations

An invocation gathers occurrences for a usage and is then finished once, into an environment: its
parameters are settled, pending ones are resolved, and the values are published. A later binding of
a key replaces an earlier one.
-/

namespace Synopsis

/-- What finishing an invocation comes to, and the evaluator's calls in order. -/
structure Outcome where
  result : Except InvokeError Environment
  evaluations : List Evaluation := []

/-- An invocation of a usage. -/
structure Invocation where
  usage : Usage
  /-- What the host defaults parameters to, by key. -/
  defaults : Dict DefaultValue := Dict.empty
  /-- What has been fed; nothing once the invocation is finished. -/
  gathered : Option Gathered := some {}

namespace Invocation

/-- Default the parameter with a key, in place of an earlier default. -/
def setDefault (inv : Invocation) (key : String) (default : DefaultValue) : Invocation :=
  { inv with defaults := inv.defaults.insert key default }

/-- Feed one occurrence. -/
def feed (inv : Invocation) (occurrence : Occurrence) : Except InvokeError Invocation :=
  match inv.gathered with
  | none => .error .fedAfterFinish
  | some g => do return { inv with gathered := some (← g.add inv.usage occurrence) }

/-- What an invocation with these occurrences comes to. -/
def outcome (inv : Invocation) (g : Gathered) (evaluator : Evaluator) : Outcome :=
  match settle inv.usage inv.defaults g none with
  | .error e => { result := .error e }
  | .ok (bindings, claimed) =>
    let ready := direct bindings g.tail
    match resolve evaluator ready bindings { claimed } with
    | .error e s => { result := .error e, evaluations := s.evaluations }
    | .ok _ s =>
      let supplied := (bindings.filter (·.explicit)).map (·.key)
      let explicit := if g.tail.isSome then supplied ++ [tailKey] else supplied
      { result := .ok (publish inv.usage.layout (ready.extend s.completed) explicit)
        evaluations := s.evaluations }

/-- Finish an invocation. It can be finished once. -/
def finish (inv : Invocation) (evaluator : Evaluator) : Outcome × Invocation :=
  match inv.gathered with
  | none => ({ result := .error .finishedTwice }, inv)
  | some g => (inv.outcome g evaluator, { inv with gathered := none })

end Invocation

namespace Usage

/-- The occurrences on a command line. -/
def scan (u : Usage) (tokens : List Token) : Scan := u.switches.scan u.layout.tailStart tokens

/-- Read a command line. -/
def invoke (u : Usage) (tokens : List Token) (evaluator : Evaluator) : Outcome :=
  let scanned := u.scan tokens
  match scanned.occurrences.foldlM Invocation.feed { usage := u } with
  | .error e => { result := .error e }
  | .ok inv =>
    match scanned.error with
    | some e => { result := .error (.scan e) }
    | none => (inv.finish evaluator).1

end Usage

end Synopsis
