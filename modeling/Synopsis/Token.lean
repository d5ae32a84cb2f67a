import Synopsis.Numeral.Decimal

/-!
# Argument tokens

One argument of a command line becomes one or two tokens. An argument that starts with `-` is the
spelling of an option, except the file topic `-` and the negative numbers, which are plain values;
`--name=value` is a spelling and the value already split from it.
-/

namespace Synopsis

/-- What a token stands for. -/
inductive TokenKind where
  /-- The spelling of an option, possibly with an attached value. -/
  | name
  /-- An operator, matched as a name. -/
  | operator
  /-- A plain positional value. -/
  | positionalValue
  /-- A positional whose value an evaluator computes. -/
  | positionalExpression
  /-- A value already split from its option. -/
  | namedValue
  /-- A value already split from its option, computed by an evaluator. -/
  | namedExpression
  deriving DecidableEq

structure Token where
  kind : TokenKind
  text : String
  deriving DecidableEq

/-- The text that stands for the implicit pipeline input. -/
def fileTopic : String := "-"

/-- The parts before and after the first `=`, if there is one. -/
def splitEquals? (cs : List Char) : Option (List Char × List Char) :=
  match cs.dropWhile (· != '=') with
  | [] => none
  | _ :: value => some (cs.takeWhile (· != '='), value)

namespace Token

/-- The tokens of one argument. -/
def classify (argument : String) : List Token :=
  match argument.toList with
  | '-' :: rest =>
    if rest.isEmpty || (readFloat? (String.ofList rest)).isSome then [⟨.positionalValue, argument⟩]
    else
      match rest with
      | '-' :: long =>
        match splitEquals? long with
        | some (name, value) =>
          [⟨.name, String.ofList ('-' :: '-' :: name)⟩, ⟨.namedValue, String.ofList value⟩]
        | none => [⟨.name, argument⟩]
      | _ => [⟨.name, argument⟩]
  | _ => [⟨.positionalValue, argument⟩]

/-- The tokens of a command line. -/
def classifyAll (arguments : List String) : List Token := arguments.flatMap classify

end Token

end Synopsis
