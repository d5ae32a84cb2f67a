import Synopsis.OptionSpec

/-!
# Reconciling declarations

Declarations become options one by one. `--x` and `--no-x` become one switch with two sides, which
has no default, so one of the sides must be given; no other two declarations share a key.
-/

namespace Synopsis

namespace OptionSpec

/-- The default of a switch that the usage text declares. A switch with both sides has none. -/
def implicitDefault (polarity : Option Polarity) (recurs : Bool) : Option DefaultValue :=
  match polarity, recurs with
  | some _, true => some (.value (.count 0))
  | some .affirmative, false => some (.value (.boolean false))
  | some .negative, false => some (.value (.boolean true))
  | _, _ => none

/-- The option that one declaration makes, given the types of switches and of repeated switches. -/
def ofDeclaration (d : Declaration) (mandatory : Bool) (boolean count : ValueType) : OptionSpec :=
  let (type, arity) : ValueType × Arity :=
    match d.value with
    | .flag => (if d.recurs then count else boolean, .none)
    | .required type => (type, .required)
    | .optional type => (type, .optional)
  let polarity : Option Polarity :=
    if d.negated then some .negative else if arity = .none then some .affirmative else none
  { key := d.key
    spellings := if d.negated then [] else d.spellings
    negatives := if d.negated then d.spellings else []
    shortAlias := d.shortAlias
    type, arity, mandatory, recurs := d.recurs
    default := implicitDefault polarity d.recurs
    polarity, metavar := d.metavar, note := d.note }

/-- Put the two sides of a switch together. -/
def join (affirmative negative : OptionSpec) : OptionSpec :=
  { affirmative with
    spellings := affirmative.spellings ++ negative.spellings
    negatives := negative.negatives
    shortAlias := affirmative.shortAlias.or negative.shortAlias
    mandatory := affirmative.mandatory || negative.mandatory
    note := affirmative.note.or negative.note
    polarity := some .both
    default := none }

/-- Two declarations of one key are one option only as the two sides of a switch that does not
repeat. -/
def pair (first second : OptionSpec) : Except OptionError OptionSpec :=
  match first.polarity, second.polarity with
  | some .affirmative, some .negative => joined first second
  | some .negative, some .affirmative => joined second first
  | _, _ => .error (.declaredTwice first.key)
where
  joined (affirmative negative : OptionSpec) : Except OptionError OptionSpec :=
    if affirmative.recurs then .error (.declaredTwice affirmative.key)
    else .ok (join affirmative negative)

/-- Put an option after `options`, or together with the one that has its key. -/
def place (o : OptionSpec) : List OptionSpec → Except OptionError (List OptionSpec)
  | [] => .ok [o]
  | first :: rest =>
    if first.key = o.key then do return (← first.pair o) :: rest
    else do return first :: (← o.place rest)

/-- Put the option of one declaration with `options`. -/
def declare (boolean count : ValueType) (options : List OptionSpec) :
    Bool × Declaration → Except OptionError (List OptionSpec)
  | (mandatory, d) =>
    if d.negated && d.recurs then .error (.negatedRecurs d.spellings)
    else (ofDeclaration d mandatory boolean count).place options

/-- The options that declarations make, the mandatory ones first. -/
def ofDeclarations (mandatory optional : List Declaration) (boolean count : ValueType) :
    Except OptionError (List OptionSpec) :=
  (mandatory.map (true, ·) ++ optional.map (false, ·)).foldlM (declare boolean count) []

/-- The type that `name` stands for, as a step on options. -/
def resolveType (name : String) : EStateM OptionError Registry ValueType := fun r =>
  match Registry.resolve name r with
  | .ok t r => .ok t r
  | .error e r => .error (.type e) r

/-- The options that declarations make, with the types of switches looked up in a registry. -/
def reconcile (mandatory optional : List Declaration) :
    EStateM OptionError Registry (List OptionSpec) := do
  let boolean ← resolveType ValueType.booleanName
  let count ← resolveType ValueType.countName
  match ofDeclarations mandatory optional boolean count with
  | .ok options => return options
  | .error e => throw e

end OptionSpec

end Synopsis
