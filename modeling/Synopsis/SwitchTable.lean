import Synopsis.OptionSpec

/-!
# The switch table

From a spelling to the option it stands for. The table lists what the options list and nothing
else; a spelling that two options list has no place in it.
-/

namespace Synopsis

/-- What one spelling means. -/
structure Switch where
  key : String
  arity : Arity
  /-- The side that the spelling alone stands for; none where a value must follow. -/
  implied : Option Bool
  deriving DecidableEq

/-- The spellings of an option with their meanings. -/
def OptionSpec.switches (o : OptionSpec) : List (String × Switch) :=
  let implied := if o.arity = .required then none else some true
  o.spellings.map (·, ⟨o.key, o.arity, implied⟩) ++ o.negatives.map (·, ⟨o.key, .none, some false⟩)

abbrev SwitchTable := Dict Switch

namespace SwitchTable

/-- Put a spelling into the table, which may hold it for the same key only. -/
def claim (table : SwitchTable) : String × Switch → Except OptionError SwitchTable
  | (spelling, switch) =>
    match table.get? spelling with
    | some held =>
      if held.key = switch.key then .ok (table.insert spelling switch)
      else .error (.claimedTwice spelling)
    | none => .ok (table.insert spelling switch)

/-- The table of `options`. -/
def build (options : List OptionSpec) : Except OptionError SwitchTable :=
  (options.flatMap OptionSpec.switches).foldlM claim Dict.empty

end SwitchTable

end Synopsis
