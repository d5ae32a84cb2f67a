import Synopsis.Invocation.Error
import Synopsis.Usage

/-!
# Gathered occurrences

What an invocation has been fed so far. An occurrence is refused if its option is unknown or may
not be repeated, or if it is a positional out of order; what was gathered before it stays.
-/

namespace Synopsis

/-- What has been fed to an invocation. -/
structure Gathered where
  /-- The occurrences of options, in the order they were fed. -/
  named : List (String × Payload) := []
  positionals : List Payload := []
  tail : Option (List Token) := none

namespace Gathered

/-- The occurrences of one option. -/
def occurrences (g : Gathered) (key : String) : List Payload :=
  (g.named.filter (·.1 = key)).map (·.2)

end Gathered

/-- What is gathered after one more occurrence. -/
def Gathered.add (g : Gathered) (u : Usage) : Occurrence → Except InvokeError Gathered
  | .named key spelling payload =>
    match u.option? key with
    | none => .error (.bind (.unknownKey key))
    | some o =>
      if !o.recurs && !(g.occurrences key).isEmpty then .error (.bind (.repeatedOption spelling))
      else .ok { g with named := g.named ++ [(key, payload)] }
  | .positional index payload =>
    if index = g.positionals.length then .ok { g with positionals := g.positionals ++ [payload] }
    else .error (.outOfOrder index)
  | .tail tokens => .ok { g with tail := some tokens }

end Synopsis
