import Synopsis.Proofs.Requests

/-!
# Unions and derived types are canonical

**Theorem (`Registry.behaves_asCanonical`).** Where no words are asked for, every type that is
handed out does what one registered primitive does, the one of its canonical name: it reads the
same texts as the same values, and accepts the same values, the file topic among them.

**Theorem (`Registry.union_ofSame`).** What a union comes to is told by which types its names are
resolved to, whatever was made before, and whatever is made in between: by their order, their number
and the names that they are reached by it is not. There is a union exactly if the types are two at
least and all end in the same, and its members are these types in the order of their names.

Both rest on the invariant of the registry (`Registry.Regular`): what it holds under the name of a
union is that very union, and members that unite refine one primitive.
-/

namespace Synopsis

namespace Registry

/-! ## What types do -/

/-- The call asks for no words. -/
def Call.IsTyped : Call → Prop
  | .choice _ | .word _ => False
  | .register _ | .resolve _ | .union _ | .canonicalName _ => True

theorem Call.IsTyped.asksIn {call : Call} (h : call.IsTyped) : call.AsksIn fun _ => False := by
  cases call with
  | choice | word => exact h.elim
  | register | resolve | union | canonicalName => trivial

/-- **A type behaves as the primitive of its canonical name**, at whatever depth it is made of it:
it reads and accepts the same and takes the file topic if the primitive does. What it reads it
accepts, if the primitive converts no text to the file topic. -/
theorem behaves_asCanonical {calls : List Call} (hcalls : ∀ call ∈ calls, call.IsTyped) :
    ∀ entry ∈ empty.history calls, ∀ t, entry.2 = .type t →
      ∃ p, (empty.after calls).get? t.canonicalName = some (.primitive p) ∧
        (∀ text, t.read? text = (ValueType.primitive p).read? text) ∧
        (∀ v, t.accepts v = (ValueType.primitive p).accepts v) ∧
        t.takesTopic = p.takesTopic ∧
        (p.Topicless → ∀ text v, t.read? text = some v → t.accepts v) := by
  intro entry hentry t ht
  have hregular : (empty.after calls).Regular fun _ => False :=
    (regular_empty fun _ => False.elim).after fun call hcall => (hcalls call hcall).asksIn
  have hheld := (whole_empty.history calls).2.2 entry hentry t ht
  cases hregular.admits_of_holds hheld with
  | @refining p _ hp hrefines =>
    refine ⟨p, ?_, hrefines.read?_eq, hrefines.accepts_eq, hrefines.takesTopic_eq, ?_⟩
    · rwa [hrefines.canonicalName_eq]
    · exact fun htopicless text v hread => hrefines.accepts_of_read? htopicless hread
  | word h => exact h.elim
  | @choice words hne h =>
    obtain ⟨word, hword⟩ := List.exists_mem_of_ne_nil words hne
    exact (h word hword).elim

/-- A union of a union and a derived type. -/
theorem behaves_asCanonical_nested :
    ∃ calls : List Call, calls = [.register .int, .union ["BigInt", "Int"]] ++
        [.union ["(BigInt|Int)", "OldInt"]] ∧ (∀ call ∈ calls, call.IsTyped) ∧
      ∃ entry ∈ empty.history calls, ∃ t p, entry.2 = .type t ∧ t.name = "((BigInt|Int)|OldInt)" ∧
        (empty.after calls).get? t.canonicalName = some (.primitive p) ∧
        (∀ text, t.read? text = (ValueType.primitive p).read? text) ∧
        (∀ v, t.accepts v = (ValueType.primitive p).accepts v) ∧
        t.takesTopic = p.takesTopic ∧
        (p.Topicless → ∀ text v, t.read? text = some v → t.accepts v) := by
  have hcalls : ∀ call ∈ ([.register .int, .union ["BigInt", "Int"]] ++
      [.union ["(BigInt|Int)", "OldInt"]] : List Call), call.IsTyped := by
    simp [Call.IsTyped]
  have hname : (outcome (union ["(BigInt|Int)", "OldInt"]
      (empty.after [.register .int, .union ["BigInt", "Int"]]))).toOption.map ValueType.name =
        some "((BigInt|Int)|OldInt)" := by
    decide +kernel
  cases hrun : union ["(BigInt|Int)", "OldInt"]
      (empty.after [.register .int, .union ["BigInt", "Int"]]) with
  | error e r' =>
    rw [hrun] at hname
    simp [outcome, Except.toOption] at hname
  | ok t r' =>
    have hentry : (.union ["(BigInt|Int)", "OldInt"], .type t) ∈ empty.history
        ([.register .int, .union ["BigInt", "Int"]] ++ [.union ["(BigInt|Int)", "OldInt"]]) := by
      rw [history_append]
      refine List.mem_append_right _ ?_
      rw [history, answer, hrun]
      exact List.mem_cons_self
    rw [hrun] at hname
    obtain ⟨p, hp⟩ := behaves_asCanonical hcalls _ hentry t rfl
    exact ⟨_, rfl, hcalls, _, hentry, t, p, rfl, Option.some.inj hname, hp⟩

/-! ## What unions come to -/

section Unions

variable {Q : String → Prop} {r r' : Registry} {names names' : List String}

/-- **The union of names is made of what they are resolved to**, in the order of the names, and there
is one exactly if that are two types at least, and they end in the same. -/
theorem Regular.outcome_union_ok_iff (h : r.Regular Q)
    (hnames : ∀ name ∈ names, ∃ t, r.Resolves name t) {t : ValueType} :
    outcome (Registry.union names r) = .ok t ↔
      ∃ members, t = .union members ∧ (∀ s, s ∈ members ↔ r.Denotes names s) ∧
        (members.map ValueType.name).Pairwise (· < ·) ∧ 2 ≤ members.length ∧
        ∀ s ∈ members, s.canonicalName = t.canonicalName := by
  obtain ⟨ts, hts⟩ := exists_resolved hnames
  obtain ⟨hapart, houtcome⟩ := h.outcome_union hts
  have hmembers (s : ValueType) : s ∈ membersOf ts ↔ r.Denotes names s := by
    rw [mem_membersOf hapart, mem_iff_denotes hts]
  rw [houtcome]
  constructor
  · intro hok
    cases hrejected : rejection? (membersOf ts) with
    | some e => simp [hrejected] at hok
    | none =>
      rw [hrejected] at hok
      obtain rfl : ValueType.union (membersOf ts) = t := Except.ok.inj hok
      have hunites := (rejection?_eq_none_iff ts).1 hrejected
      obtain ⟨name, hcanonical⟩ := hunites.canonical
      refine ⟨membersOf ts, rfl, hmembers, pairwise_membersOf ts, hunites.two_le, fun s hs => ?_⟩
      rw [hcanonical s hs, ValueType.canonicalName_union hunites.ne_nil hcanonical]
  · rintro ⟨members, rfl, hmem, hordered, htwo, hcanonical⟩
    obtain rfl : membersOf ts = members :=
      ValueType.eq_of_ordered (pairwise_membersOf ts) hordered fun s =>
        (hmembers s).trans (hmem s).symm
    rw [(rejection?_eq_none_iff ts).2 ⟨htwo, nodup_membersOf ts, _, hcanonical⟩]

/-- Where names are resolved to the same types, their unions come to the same, an error or a type. -/
theorem Regular.outcome_union_congr (h : r.Regular Q) (h' : r'.Regular Q)
    (hnames : ∀ name ∈ names, ∃ t, r.Resolves name t)
    (hnames' : ∀ name ∈ names', ∃ t, r'.Resolves name t)
    (hsame : ∀ t, r.Denotes names t ↔ r'.Denotes names' t) :
    outcome (Registry.union names r) = outcome (Registry.union names' r') := by
  obtain ⟨ts, hts⟩ := exists_resolved hnames
  obtain ⟨ts', hts'⟩ := exists_resolved hnames'
  obtain ⟨hapart, houtcome⟩ := h.outcome_union hts
  obtain ⟨hapart', houtcome'⟩ := h'.outcome_union hts'
  have hmembers : membersOf ts = membersOf ts' := by
    refine ValueType.eq_of_ordered (pairwise_membersOf ts) (pairwise_membersOf ts') fun t => ?_
    rw [mem_membersOf hapart, mem_membersOf hapart', mem_iff_denotes hts, mem_iff_denotes hts',
      hsame]
  rw [houtcome, houtcome', hmembers]

end Unions

/-- **Unions are canonical.** Names that are resolved to the same types, in whatever order, how often
and by whatever names, come to the same error or to the same union, also where other types were made
in between. It is a union of exactly these types, at least two, in the order of their names, and it
ends in what each of them ends in. -/
theorem union_ofSame {calls later : List Call}
    (hcalls : ∀ call ∈ calls ++ later, call.AsksIn IsPlainWord) {names names' : List String}
    (hnames : ∀ name ∈ names, ∃ t, (empty.after calls).Resolves name t)
    (hnames' : ∀ name ∈ names', ∃ t, (empty.after (calls ++ later)).Resolves name t)
    (hsame : ∀ t, (empty.after calls).Denotes names t ↔
      (empty.after (calls ++ later)).Denotes names' t) :
    outcome (union names (empty.after calls)) =
        outcome (union names' (empty.after (calls ++ later))) ∧
      ∀ t, outcome (union names (empty.after calls)) = .ok t ↔
        ∃ members, t = .union members ∧
          (∀ s, s ∈ members ↔ (empty.after calls).Denotes names s) ∧
          (members.map ValueType.name).Pairwise (· < ·) ∧ 2 ≤ members.length ∧
          t.name = "(" ++ "|".intercalate (members.map ValueType.name) ++ ")" ∧
          ∀ s ∈ members, s.canonicalName = t.canonicalName := by
  have hplain : empty.Regular IsPlainWord := regular_empty fun _ htext => htext
  have h := hplain.after fun call hcall => hcalls call (List.mem_append_left later hcall)
  have h' := hplain.after hcalls
  refine ⟨h.outcome_union_congr h' hnames hnames' hsame, fun t => ?_⟩
  rw [h.outcome_union_ok_iff hnames]
  constructor
  · rintro ⟨members, rfl, hmem, hordered, htwo, hcanonical⟩
    refine ⟨members, rfl, hmem, hordered, htwo, ?_, hcanonical⟩
    rw [ValueType.name, names_eq_map, writeAlternatives]
  · rintro ⟨members, rfl, hmem, hordered, htwo, -, hcanonical⟩
    exact ⟨members, rfl, hmem, hordered, htwo, hcanonical⟩

/-- Names and aliases in two orders, with another type made in between. -/
theorem union_ofSame_aliased :
    ∃ calls later : List Call, calls = [.register .int, .resolve "BigInt"] ∧
      later = [.resolve "OldInt"] ∧
      (∀ call ∈ calls ++ later, call.AsksIn IsPlainWord) ∧
      (∀ t, (empty.after calls).Denotes ["Integer", "BigInt"] t ↔
        (empty.after (calls ++ later)).Denotes ["BigInt", "Int", "Integer"] t) ∧
      outcome (union ["Integer", "BigInt"] (empty.after calls)) =
        outcome (union ["BigInt", "Int", "Integer"] (empty.after (calls ++ later))) ∧
      outcome (union ["Integer", "BigInt"] (empty.after calls)) =
        .ok (.union [.derived "BigInt" "Big" (.primitive .int), .primitive .int]) := by
  have hcalls : ∀ call ∈ ([.register .int, .resolve "BigInt"] ++ [.resolve "OldInt"] :
      List Call), call.AsksIn IsPlainWord := by
    decide
  have hbig : (empty.after [.register .int, .resolve "BigInt"]).Resolves "BigInt"
      (.derived "BigInt" "Big" (.primitive .int)) := ⟨_, rfl⟩
  have halias : (empty.after [.register .int, .resolve "BigInt"]).Resolves "Integer"
      (.primitive .int) := ⟨_, rfl⟩
  have hbig' : (empty.after ([.register .int, .resolve "BigInt"] ++
      [.resolve "OldInt"])).Resolves "BigInt"
        (.derived "BigInt" "Big" (.primitive .int)) := ⟨_, rfl⟩
  have hint' : (empty.after ([.register .int, .resolve "BigInt"] ++
      [.resolve "OldInt"])).Resolves "Int" (.primitive .int) := ⟨_, rfl⟩
  have halias' : (empty.after ([.register .int, .resolve "BigInt"] ++
      [.resolve "OldInt"])).Resolves "Integer" (.primitive .int) := ⟨_, rfl⟩
  have hdenotes (t : ValueType) :
      (empty.after [.register .int, .resolve "BigInt"]).Denotes ["Integer", "BigInt"] t ↔
        t = .primitive .int ∨ t = .derived "BigInt" "Big" (.primitive .int) := by
    simp [Denotes, hbig.iff_eq, halias.iff_eq]
  have hsame (t : ValueType) :
      (empty.after [.register .int, .resolve "BigInt"]).Denotes ["Integer", "BigInt"] t ↔
        (empty.after ([.register .int, .resolve "BigInt"] ++ [.resolve "OldInt"])).Denotes
          ["BigInt", "Int", "Integer"] t := by
    rw [hdenotes]
    simp only [Denotes, List.exists_mem_cons_iff, hbig'.iff_eq, hint'.iff_eq, halias'.iff_eq]
    simp [or_comm]
  have hnames : ∀ name ∈ ["Integer", "BigInt"], ∃ t,
      (empty.after [.register .int, .resolve "BigInt"]).Resolves name t := by
    simp only [List.forall_mem_cons]
    exact ⟨⟨_, halias⟩, ⟨_, hbig⟩, by simp⟩
  have hnames' : ∀ name ∈ ["BigInt", "Int", "Integer"], ∃ t,
      (empty.after ([.register .int, .resolve "BigInt"] ++
        [.resolve "OldInt"])).Resolves name t := by
    simp only [List.forall_mem_cons]
    exact ⟨⟨_, hbig'⟩, ⟨_, hint'⟩, ⟨_, halias'⟩, by simp⟩
  obtain ⟨heq, hunion⟩ := union_ofSame hcalls hnames hnames' hsame
  refine ⟨[.register .int, .resolve "BigInt"], [.resolve "OldInt"], rfl, rfl, hcalls, hsame, heq, ?_⟩
  refine (hunion _).2 ⟨_, rfl, fun s => ?_, by decide, by decide, by decide, ?_⟩
  · rw [hdenotes]
    simp [or_comm]
  · simp [ValueType.canonicalName]

end Registry

end Synopsis
