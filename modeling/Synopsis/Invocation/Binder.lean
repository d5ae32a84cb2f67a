import Synopsis.Invocation

/-!
# Binders

A binder is an invocation that is fed in place: a host keeps the same binder when a feed is
rejected. What it was fed is kept in a register, with an entry for each option that occurred. The
entry is opened before it is known whether another payload may go into it.
-/

namespace Synopsis

/-- What a binder has been fed. -/
structure Register where
  /-- The payloads of each option, by key. -/
  entries : Dict (List Payload) := Dict.empty
  positionals : List Payload := []
  tail : Option (List Token) := none

namespace Register

/-- The payloads under a key. -/
def entry (s : Register) (key : String) : List Payload := (s.entries.get? key).getD []

/-- The register with these payloads under a key. -/
def put (s : Register) (key : String) (payloads : List Payload) : Register :=
  { s with entries := s.entries.insert key payloads }

/-- The register with an entry for a key, an empty one if there was none. -/
def opened (s : Register) (key : String) : Register := s.put key (s.entry key)

/-- Feed one occurrence in place. -/
def feed (u : Usage) : Occurrence → EStateM InvokeError Register Unit
  | .named key spelling payload =>
    match u.option? key with
    | none => throw (.bind (.unknownKey key))
    | some o => do
      modify (·.opened key)
      let s ← get
      if !o.recurs && !(s.entry key).isEmpty then throw (.bind (.repeatedOption spelling))
      else set (s.put key (s.entry key ++ [payload]))
  | .positional index payload => do
    let s ← get
    if index = s.positionals.length then
      set { s with positionals := s.positionals ++ [payload] }
    else throw (.outOfOrder index)
  | .tail tokens => modify ({ · with tail := some tokens })

/-- What the register has gathered. -/
def gathered (s : Register) : Gathered where
  named := s.entries.entries.flatMap fun entry => entry.2.map (entry.1, ·)
  positionals := s.positionals
  tail := s.tail

end Register

/-- An invocation of a usage that is fed in place. -/
structure Binder where
  usage : Usage
  /-- What the host defaults parameters to, by key. -/
  defaults : Dict DefaultValue := Dict.empty
  /-- What has been fed; nothing once the binder is finished. -/
  register : Option Register := some {}

namespace Binder

/-- Feed one occurrence. A rejected one leaves what the register became until then. -/
def feed (b : Binder) (occurrence : Occurrence) : Except InvokeError Unit × Binder :=
  match b.register with
  | none => (.error .fedAfterFinish, b)
  | some s =>
    match Register.feed b.usage occurrence s with
    | .ok _ s' => (.ok (), { b with register := some s' })
    | .error e s' => (.error e, { b with register := some s' })

/-- Finish the binder. The register is taken before anything can fail. -/
def finish (b : Binder) (evaluator : Evaluator) : Outcome × Binder :=
  match b.register with
  | none => ({ result := .error .finishedTwice }, b)
  | some s =>
    (Invocation.outcome { usage := b.usage, defaults := b.defaults } s.gathered evaluator,
      { b with register := none })

end Binder

end Synopsis
