import Synopsis.Layout
import Synopsis.OptionSpec.Inline
import Synopsis.SwitchTable
import Synopsis.Grammar.Outline

/-!
# Usages

A usage is what a command line is read by: the words of the command, its options with the table of
their spellings, and its positional terms with their layout. It is compiled from a text, merged
with the options of another, extended inline, given a trailing capture, and described as a text
again. The table is always that of the options.
-/

namespace Synopsis

/-- Why a usage cannot be built. -/
inductive UsageError where
  | grammar (e : GrammarError)
  | layout (e : LayoutError)
  | option (e : OptionError)
  deriving DecidableEq

/-- The complaint as it is shown, where it can be. -/
def UsageError.message? (e : UsageError) : Option String :=
  let detail :=
    match e with
    | grammar e => e.message?
    | layout e => some e.message
    | option e => some e.message
  detail.map ("Config error: " ++ ·)

structure Usage where
  words : List String
  options : List OptionSpec
  terms : List Term
  layout : Layout
  switches : SwitchTable

/-- An option as a usage describes it: in brackets when it may be supplied, and bare or in
parentheses when it must be. -/
def OptionSpec.describe (o : OptionSpec) : String :=
  let spellings := o.allSpellings.eraseDups
  let value :=
    match o.arity, o.metavar with
    | .required, some label => "=" ++ label
    | .optional, some label => "[=" ++ label ++ "]"
    | _, _ => ""
  let written := "|".intercalate spellings ++ value
  let bracketed :=
    if o.mandatory then if spellings.length = 1 then written else "(" ++ written ++ ")"
    else "[" ++ written ++ "]"
  if o.recurs then bracketed ++ "..." else bracketed

namespace Usage

/-- A step on the registry, with its error as one of a usage. -/
def building {ε α : Type} (error : ε → UsageError) (step : EStateM ε Registry α) :
    EStateM UsageError Registry α := fun r =>
  match step r with
  | .ok a r => .ok a r
  | .error e r => .error (error e) r

/-- The table of `options`, with its error as one of a usage. -/
def tableOf (options : List OptionSpec) : Except UsageError SwitchTable :=
  (SwitchTable.build options).mapError .option

/-- Compile a usage text. -/
def compile (text : String) : EStateM UsageError Registry Usage := do
  let outline ← building .grammar (Outline.read text)
  let options ← building .option (OptionSpec.reconcile outline.mandatory outline.optional)
  let layout ← building .layout (Layout.ofTerms outline.terms)
  match tableOf options with
  | .ok switches =>
    return { words := outline.words, options, terms := outline.terms, layout, switches }
  | .error e => throw e

/-- The option with this key. -/
def option? (u : Usage) (key : String) : Option OptionSpec := u.options.find? (·.key = key)

/-- The spellings that two usages both have, in code point order. -/
def conflicts (u other : Usage) : List String := other.switches.keys.filter u.switches.contains

/-- Add `options` one by one; no key may be there already. -/
def appendOptions : List OptionSpec → List OptionSpec → Except UsageError (List OptionSpec)
  | options, [] => .ok options
  | options, o :: rest =>
    if options.any (·.key = o.key) then .error (.option (.declaredTwice o.key))
    else appendOptions (options ++ [o]) rest

/-- The usage with the options of another, under a new origin. -/
def addOptions (u other : Usage) (origin : Origin) : Except UsageError Usage := do
  let options ← appendOptions u.options (other.options.map ({ · with origin }))
  return { u with options, switches := ← tableOf options }

/-- Add inline options one by one to those declared. -/
def appendInline :
    List OptionSpec → List InlineOption → EStateM OptionError Registry (List OptionSpec)
  | options, [] => return options
  | options, o :: rest => do
    let spec ← o.reconcile options
    appendInline (options ++ spec.toList) rest

/-- The usage with inline options. -/
def addInline (u : Usage) (inline : List InlineOption) : EStateM UsageError Registry Usage := do
  let options ← building .option (appendInline u.options inline)
  match tableOf options with
  | .ok switches => return { u with options, switches }
  | .error e => throw e

/-- The usage with a trailing capture. -/
def addTrailingCapture (u : Usage) : Except UsageError Usage := do
  let layout ← u.layout.withTailCapture.mapError .layout
  return { u with layout, terms := if u.terms.any Term.isRest then u.terms else u.terms ++ [.rest] }

/-- The usage as a text, without its notes. -/
def describe (u : Usage) : String :=
  " ".intercalate (u.words ++ u.options.map OptionSpec.describe ++ Term.writeAll u.terms)

end Usage

end Synopsis
