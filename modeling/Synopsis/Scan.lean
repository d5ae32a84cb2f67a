import Synopsis.Scan.Occurrence
import Synopsis.SwitchTable

/-!
# Scanning a command line

Tokens become *occurrences*: one for each switch that is written, one for each positional, and one
for a captured tail. The scanner remembers one thing between tokens, what it is expecting: an
option, the value of an option, or a value that an option may do without. An option that may do
without its value takes one only where it was split from the option itself.

**Errors.** A token that fails yields nothing, and nothing follows it.

**The tail.** The positional with the index `tailStart` and all tokens after it are one occurrence.
-/

namespace Synopsis

/-- What the next token is read as. -/
inductive Expecting where
  /-- An option or a positional. A value split from `lastSwitch`, which takes none, is refused. -/
  | option (lastSwitch : Option String)
  /-- The value of the option `key`, written `spelling`. -/
  | value (key spelling : String)
  /-- The value of the option `key`, if one was split from it. -/
  | optionalValue (key spelling : String) (implied : Bool)
  deriving DecidableEq

/-- What one token comes to. -/
inductive Move where
  /-- Some occurrences, and what is expected next. -/
  | options (found : List Occurrence) (next : Expecting)
  /-- A positional, after some occurrences. -/
  | positional (found : List Occurrence) (payload : Payload)

/-- The occurrences on a command line, up to its end or an error. -/
structure Scan where
  occurrences : List Occurrence
  error : Option ScanError

def Scan.after (found : List Occurrence) (s : Scan) : Scan :=
  { s with occurrences := found ++ s.occurrences }

namespace Move

def after (found : List Occurrence) : Move → Move
  | options found' next => options (found ++ found') next
  | positional found' payload => positional (found ++ found') payload

end Move

namespace SwitchTable

/-- Look up a spelling. -/
def find (table : SwitchTable) (spelling : String) : Except ScanError Switch :=
  match table.get? spelling with
  | some switch => .ok switch
  | none => .error (.unknownOption spelling)

/-- Read an option after `--`, with a value if one is attached by `=`. -/
def readLong (table : SwitchTable) (long : List Char) : Except ScanError Move := do
  let (name, attached) : List Char × Option (List Char) :=
    match splitEquals? long with
    | some (name, value) => (name, some value)
    | none => (long, none)
  let spelling := String.ofList ('-' :: '-' :: name)
  let switch ← table.find spelling
  match switch.arity, attached with
  | .none, some _ => throw (.unexpectedValue spelling)
  | _, some value =>
    return .options [.named switch.key spelling (.text (String.ofList value))] (.option none)
  | .none, none =>
    return .options [.named switch.key spelling (.implied (switch.implied.getD true))]
      (.option (some spelling))
  | .required, none => return .options [] (.value switch.key spelling)
  | .optional, none =>
    return .options [] (.optionalValue switch.key spelling (switch.implied.getD true))

/-- Read a stack of short options after `-`. The first that takes a value takes what follows it in
the stack, less one `=`; if nothing does, its value is expected next. -/
def readStack (table : SwitchTable) (stack : List Char) :
    List Char → (previous : Option String) → Except ScanError Move
  | [], previous => return .options [] (.option previous)
  | c :: cs, previous => do
    if c = '=' then
      throw (.unexpectedValue (previous.getD (String.ofList ('-' :: stack))))
    let spelling := String.ofList ['-', c]
    let switch ← table.find spelling
    let attached := if cs.head? = some '=' then cs.tail else cs
    match switch.arity with
    | .none =>
      let rest ← table.readStack stack cs (some spelling)
      return rest.after [.named switch.key spelling (.implied (switch.implied.getD true))]
    | .required =>
      if attached.isEmpty then return .options [] (.value switch.key spelling)
      else
        return .options [.named switch.key spelling (.text (String.ofList attached))] (.option none)
    | .optional =>
      if attached.isEmpty then
        return .options [] (.optionalValue switch.key spelling (switch.implied.getD true))
      else
        return .options [.named switch.key spelling (.text (String.ofList attached))] (.option none)

/-- Read a token where an option or a positional may stand. -/
def readFresh (table : SwitchTable) (token : Token) : Except ScanError Move :=
  match token.kind with
  | .name | .operator =>
    match token.text.toList with
    | '-' :: '-' :: long => table.readLong long
    | '-' :: c :: cs => table.readStack (c :: cs) (c :: cs) none
    | _ => .ok (.positional [] (.text token.text))
  | .positionalValue | .namedValue => .ok (.positional [] (.text token.text))
  | .positionalExpression | .namedExpression => .ok (.positional [] (.deferred token.text))

/-- Read a token as what is expected. -/
def readToken (table : SwitchTable) (expecting : Expecting) (token : Token) :
    Except ScanError Move :=
  match expecting with
  | .value key spelling =>
    match token.kind with
    | .namedValue | .positionalValue =>
      .ok (.options [.named key spelling (.text token.text)] (.option none))
    | .namedExpression | .positionalExpression =>
      .ok (.options [.named key spelling (.deferred token.text)] (.option none))
    | .name | .operator => .error (.missingValue spelling)
  | .optionalValue key spelling implied =>
    match token.kind with
    | .namedValue => .ok (.options [.named key spelling (.text token.text)] (.option none))
    | .namedExpression => .ok (.options [.named key spelling (.deferred token.text)] (.option none))
    | _ => (table.readFresh token).map (.after [.named key spelling (.implied implied)])
  | .option (some spelling) =>
    match token.kind with
    | .namedValue | .namedExpression => .error (.unexpectedValue spelling)
    | _ => table.readFresh token
  | .option none => table.readFresh token

/-- What is expected at the end of the tokens. -/
def finishScan : Expecting → Scan
  | .option _ => ⟨[], none⟩
  | .value _ spelling => ⟨[], some (.missingValue spelling)⟩
  | .optionalValue key spelling implied => ⟨[.named key spelling (.implied implied)], none⟩

/-- Scan tokens, when `index` positionals have been found. -/
def scanFrom (table : SwitchTable) (tailStart : Option Nat) :
    Expecting → (index : Nat) → List Token → Scan
  | expecting, _, [] => finishScan expecting
  | expecting, index, token :: rest =>
    match table.readToken expecting token with
    | .error e => ⟨[], some e⟩
    | .ok (.options found next) => (table.scanFrom tailStart next index rest).after found
    | .ok (.positional found payload) =>
      if tailStart = some index then ⟨found ++ [.tail (token :: rest)], none⟩
      else
        (table.scanFrom tailStart (.option none) (index + 1) rest).after
          (found ++ [.positional index payload])

/-- Scan a command line. -/
def scan (table : SwitchTable) (tailStart : Option Nat) (tokens : List Token) : Scan :=
  table.scanFrom tailStart (.option none) 0 tokens

end SwitchTable

end Synopsis
