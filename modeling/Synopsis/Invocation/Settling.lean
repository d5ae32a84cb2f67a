import Synopsis.Invocation.Binding
import Synopsis.Invocation.Gathered

/-!
# Settling

Options are settled in the order of the usage, then the positionals that the arrangement gives a
value, then the defaults of those that it does not. An option that does not occur has its default,
or is missing, or stays unbound. Nothing is evaluated here: an expression leaves its parameter
pending.
-/

namespace Synopsis

namespace Invocation

/-- Bind an option that does not occur. -/
def settleAbsent (defaults : Dict DefaultValue) (o : OptionSpec) : Claiming (Option Binding) :=
  let bindTo (value : Value) : Option Binding :=
    some { key := o.key, parameter := o.primary, type := o.type, bound := .ready value
           explicit := false }
  match (defaults.get? o.key).or o.default with
  | some default =>
    return bindTo (← Claiming.default o.type o.primary (o.recurs && !o.isFlag) default)
  | none =>
    if o.polarity = some .both then
      throw (.bind (.missingChoice o.primary (o.negatives.head?.getD "")))
    else if o.recurs then return bindTo (o.type.collect [])
    else if o.mandatory then throw (.bind (.missingOption o.primary))
    else return none

/-- Bind an option to its occurrences. A repeated switch is bound to their number. -/
def settleOption (defaults : Dict DefaultValue) (g : Gathered) (o : OptionSpec) :
    Claiming (Option Binding) :=
  let bindTo (bound : Bound) : Option Binding :=
    some { key := o.key, parameter := o.primary, type := o.type, bound, explicit := true }
  match g.occurrences o.key with
  | [] => settleAbsent defaults o
  | first :: rest =>
    if o.recurs then
      if o.isFlag then return bindTo (.ready (.count (UInt64.ofNat (rest.length + 1))))
      else do
        let entries ← (first :: rest).mapM (Claiming.entry o.type o.primary)
        return bindTo (.ofEntries o.type (.list entries))
    else return bindTo (.ofEntries o.type (.single (← Claiming.entry o.type o.primary first)))

/-- Bind a positional to what it is dealt. -/
def settlePositional (p : Parameter) (slot : Slot Payload) : Claiming Binding := do
  let entries ← slot.mapM (Claiming.entry p.type p.identifier)
  return { key := p.key, parameter := p.identifier, type := p.type
           bound := .ofEntries p.type entries, explicit := true }

/-- Bind a positional that is dealt nothing to its default, if it has one. -/
def settleDefault (defaults : Dict DefaultValue) (p : Parameter) : Claiming (Option Binding) :=
  match defaults.get? p.key with
  | none => return none
  | some default => do
    let value ← Claiming.default p.type p.identifier p.recurs default
    return some { key := p.key, parameter := p.identifier, type := p.type, bound := .ready value
                  explicit := false }

/-- A default is for no parameter of the usage. -/
def isStray (u : Usage) (key : String) : Bool :=
  (u.option? key).isNone && !u.layout.parameters.any (·.key = key)

/-- Settle every parameter. -/
def settle (u : Usage) (defaults : Dict DefaultValue) (g : Gathered) : Claiming (List Binding) := do
  if let some key := defaults.keys.find? (isStray u) then
    throw (.bind (.unknownKey key))
  let options ← u.options.filterMapM (settleOption defaults g)
  let arranged ←
    match u.layout.arrange g.positionals with
    | .ok arranged => pure arranged
    | .error e => throw (.count e)
  let positionals ← arranged.mapM fun (p, slot) => settlePositional p slot
  let bound := options ++ positionals
  let unbound := u.layout.parameters.filter fun p => !bound.any (·.key = p.key)
  let defaulted ← unbound.filterMapM (settleDefault defaults)
  return bound ++ defaulted

end Invocation

end Synopsis
