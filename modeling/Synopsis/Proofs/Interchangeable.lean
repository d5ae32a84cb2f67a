import Synopsis.Proofs.Tails

/-!
# Ways to write one option

A value can be attached to an option in several ways, and short options can be stacked. Tokens are
*interchangeable* if the scanner collects the same from them whatever it expects, so that they can
stand for each other anywhere before the tail (`Interchangeable.collect_append`).

**Split values (`SwitchTable.collect_splitValue`).** `--name=value` in one token is the two tokens
that it is split into.

**Stacks (`SwitchTable.collect_stack`).** A stack of short options is its members, written one by one.

**Equals signs (`SwitchTable.scan_afterEquals`).** `-c=value` is `--name=value` if there is a value.
An empty one is no value after a short option: `-c=` is `-c`, and takes the next token.

An option is read in the same way wherever it stands, after what was pending before it is settled
(`collect_scanFrom_of_name`). So each equality has to be shown only where an option is expected.
-/

namespace Synopsis

namespace Token

/-- The name that starts with two hyphens. -/
def long (cs : List Char) : Token := ⟨.name, String.ofList ('-' :: '-' :: cs)⟩

/-- The name that starts with one hyphen. -/
def short (cs : List Char) : Token := ⟨.name, String.ofList ('-' :: cs)⟩

@[simp] theorem isName_long (cs : List Char) : (long cs).isName := rfl

@[simp] theorem isName_short (cs : List Char) : (short cs).isName := rfl

theorem isOption_short (c : Char) (cs : List Char) : (short (c :: cs)).isOption := by
  simp [isOption, short, isName]

theorem not_isSplit_of_isName {token : Token} (h : token.isName) : ¬token.isSplit := by
  unfold isName at h
  unfold isSplit
  cases hkind : token.kind <;> simp [hkind] at h ⊢

end Token

/-- What a command line comes to: all its occurrences, or the error. -/
def Scan.collect (s : Scan) : Except ScanError (List Occurrence) :=
  match s.error with
  | some e => .error e
  | none => .ok s.occurrences

/-- What a name settles that comes next: a value that is needed is missing, and one that is not
needed is left out. -/
def Expecting.settled : Expecting → Except ScanError (List Occurrence)
  | .option _ => .ok []
  | .value _ spelling => .error (.missingValue spelling)
  | .optionalValue key spelling implied => .ok [.named key spelling (.implied implied)]

theorem Scan.collect_after (s : Scan) (found : List Occurrence) :
    (s.after found).collect = s.collect.map (found ++ ·) := by
  obtain ⟨occurrences, error⟩ := s
  cases error <;> rfl

theorem ne_of_isAlphanum {c : Char} (h : c.isAlphanum) : c ≠ '-' ∧ c ≠ '=' := by
  constructor <;> rintro rfl <;> simp at h

theorem SwitchUse.IsFlag.next {use : SwitchUse} (h : use.IsFlag) :
    use.next = .option (some use.spelling) := by
  simp [SwitchUse.next, h.1, h.2]

namespace SwitchTable

variable {table : SwitchTable} {tailStart : Option Nat} {expecting : Expecting} {index : Nat}
  {token token' : Token} {first second before after rest : List Token}

/-! ## Interchangeable tokens -/

/-- The scanner collects the same from both, whatever it expects. -/
def Interchangeable (table : SwitchTable) (tailStart : Option Nat) (first second : List Token) :
    Prop :=
  ∀ expecting index, (table.scanFrom tailStart expecting index first).collect =
    (table.scanFrom tailStart expecting index second).collect

theorem scanFrom_of_options {found : List Occurrence} {next : Expecting}
    (h : table.readToken expecting token = .ok (.options found next)) :
    table.scanFrom tailStart expecting index (token :: rest) =
      (table.scanFrom tailStart next index rest).after found := by
  simp only [scanFrom, h]

theorem scanFrom_of_error {e : ScanError} (h : table.readToken expecting token = .error e) :
    table.scanFrom tailStart expecting index (token :: rest) = ⟨[], some e⟩ := by
  simp only [scanFrom, h]

/-- A token before both leaves the scanner in one state, unless it starts the tail. -/
theorem collect_cons_congr
    (hoptions : ∀ found next, table.readToken expecting token = .ok (.options found next) →
      (table.scanFrom tailStart next index first).collect =
        (table.scanFrom tailStart next index second).collect)
    (hpositional : ∀ found payload,
      table.readToken expecting token = .ok (.positional found payload) → tailStart ≠ some index ∧
        (table.scanFrom tailStart (.option none) (index + 1) first).collect =
          (table.scanFrom tailStart (.option none) (index + 1) second).collect) :
    (table.scanFrom tailStart expecting index (token :: first)).collect =
      (table.scanFrom tailStart expecting index (token :: second)).collect := by
  cases hread : table.readToken expecting token with
  | error e => rw [scanFrom_of_error hread, scanFrom_of_error hread]
  | ok move =>
    cases move with
    | options found next =>
      rw [scanFrom_of_options hread, scanFrom_of_options hread, Scan.collect_after,
        Scan.collect_after, hoptions found next hread]
    | positional found payload =>
      obtain ⟨hindex, hrest⟩ := hpositional found payload hread
      simp only [scanFrom, hread, if_neg hindex, Scan.collect_after]
      rw [hrest]

/-- **Interchangeable tokens can stand for each other** after any tokens that do not start the
tail. -/
theorem Interchangeable.collect_append (h : table.Interchangeable tailStart first second)
    (hbefore : ∀ ts, .tail ts ∉ (table.scanFrom tailStart expecting index before).occurrences) :
    (table.scanFrom tailStart expecting index (before ++ first)).collect =
      (table.scanFrom tailStart expecting index (before ++ second)).collect := by
  induction before generalizing expecting index with
  | nil => exact h expecting index
  | cons token before ih =>
    apply collect_cons_congr
    · intro found next hread
      rw [scanFrom_of_options hread] at hbefore
      exact ih fun ts hts => hbefore ts (List.mem_append_right _ hts)
    · intro found payload hread
      by_cases hindex : tailStart = some index
      · exact absurd (by simp [scanFrom, hread, hindex]) (hbefore (token :: before))
      · simp only [scanFrom, hread, if_neg hindex] at hbefore
        exact ⟨hindex, ih fun ts hts => hbefore ts (List.mem_append_right _ hts)⟩

theorem Interchangeable.trans {third : List Token}
    (h : table.Interchangeable tailStart first second)
    (h' : table.Interchangeable tailStart second third) :
    table.Interchangeable tailStart first third :=
  fun expecting index => (h expecting index).trans (h' expecting index)

/-! ## Names wherever they stand -/

/-- A token that is read as another, after some occurrences, collects what the other does after
them. -/
theorem collect_scanFrom_of_map {found : List Occurrence}
    (hread : table.readToken expecting token =
      (table.readToken (.option none) token').map (.after found))
    (hsame : ∀ found' payload,
      table.readToken (.option none) token' = .ok (.positional found' payload) → token' = token) :
    (table.scanFrom tailStart expecting index (token :: rest)).collect =
      ((table.scanFrom tailStart (.option none) index (token' :: rest)).after found).collect := by
  cases hfresh : table.readToken (.option none) token' with
  | error e =>
    rw [hfresh] at hread
    rw [scanFrom_of_error hread, scanFrom_of_error hfresh]
    rfl
  | ok move =>
    rw [hfresh] at hread
    cases move with
    | options found' next =>
      rw [scanFrom_of_options hread, scanFrom_of_options hfresh, after_append]
    | positional found' payload =>
      obtain rfl := hsame found' payload hfresh
      simp only [scanFrom, hread, hfresh, Except.map, Move.after]
      split_ifs
      · rw [List.append_assoc]
        rfl
      · rw [List.append_assoc, after_append]

/-- **A name is read as an option is**, after what was pending is settled. -/
theorem collect_scanFrom_of_name (h : token.isName) :
    (table.scanFrom tailStart expecting index (token :: rest)).collect =
      expecting.settled.bind fun found =>
        (table.scanFrom tailStart (.option none) index (token :: rest)).collect.map (found ++ ·) := by
  cases expecting with
  | option last =>
    have hlast : table.scanFrom tailStart (.option last) index (token :: rest) =
        table.scanFrom tailStart (.option none) index (token :: rest) := by
      cases last with
      | none => rfl
      | some spelling => exact scanFrom_option (by simpa using Token.not_isSplit_of_isName h)
    rw [hlast]
    show _ = Except.map _ _
    rw [← Scan.collect_after]
    rfl
  | value key spelling =>
    rw [scanFrom_value_of_name h]
    rfl
  | optionalValue key spelling implied =>
    have hread : table.readToken (.optionalValue key spelling implied) token =
        (table.readToken (.option none) token).map
          (.after [.named key spelling (.implied implied)]) := by
      unfold Token.isName at h
      cases hkind : token.kind <;> simp [hkind] at h <;> simp [readToken, hkind]
    rw [collect_scanFrom_of_map hread fun _ _ _ => rfl, Scan.collect_after]
    rfl

/-- Tokens that start with names are interchangeable if they are where an option is expected. -/
theorem Interchangeable.of_names (h : token.isName) (h' : token'.isName)
    (hfresh : ∀ index,
      (table.scanFrom tailStart (.option none) index (token :: first)).collect =
        (table.scanFrom tailStart (.option none) index (token' :: second)).collect) :
    table.Interchangeable tailStart (token :: first) (token' :: second) := by
  intro expecting index
  rw [collect_scanFrom_of_name h, collect_scanFrom_of_name h', hfresh]

/-! ## Long options and their values -/

section Long

variable {name value : List Char} {switch : Switch}

theorem readToken_long (cs : List Char) :
    table.readToken (.option none) (Token.long cs) = table.readLong cs :=
  readFresh_of_long (Token.isName_long cs) (by simp [Token.long])

theorem find_of_none {spelling : String} (h : table.get? spelling = none) :
    table.find spelling = .error (.unknownOption spelling) := by
  rw [find, h]

theorem readLong_of_unknown (hname : '=' ∉ name)
    (h : table.get? (String.ofList ('-' :: '-' :: name)) = none) :
    table.readLong name = .error (.unknownOption (String.ofList ('-' :: '-' :: name))) := by
  simp only [readLong, splitEquals?_of_notMem hname, find_of_none h]
  rfl

theorem readLong_attached_of_unknown (hname : '=' ∉ name)
    (h : table.get? (String.ofList ('-' :: '-' :: name)) = none) :
    table.readLong (name ++ '=' :: value) =
      .error (.unknownOption (String.ofList ('-' :: '-' :: name))) := by
  simp only [readLong, splitEquals?_append hname, find_of_none h]
  rfl

theorem readLong_attached_of_flag (hname : '=' ∉ name)
    (h : table.get? (String.ofList ('-' :: '-' :: name)) = some switch)
    (harity : switch.arity = .none) :
    table.readLong (name ++ '=' :: value) =
      .error (.unexpectedValue (String.ofList ('-' :: '-' :: name))) := by
  simp only [readLong, splitEquals?_append hname, find_ok_iff.2 h, bind, Except.bind, harity]
  rfl

theorem scanFrom_long_attached (hname : '=' ∉ name)
    (h : table.get? (String.ofList ('-' :: '-' :: name)) = some switch)
    (harity : switch.arity ≠ .none) :
    table.scanFrom tailStart (.option none) index (Token.long (name ++ '=' :: value) :: rest) =
      (table.scanFrom tailStart (.option none) index rest).after
        [.named switch.key (String.ofList ('-' :: '-' :: name)) (.text (String.ofList value))] := by
  apply scanFrom_of_options
  rw [readToken_long, readLong_ok_iff]
  exact ⟨_, .attached hname h harity, by
    simp [SwitchUse.found, SwitchUse.next, SwitchUse.occurrence, SwitchUse.payload]⟩

theorem scanFrom_long_bare (hname : '=' ∉ name)
    (h : table.get? (String.ofList ('-' :: '-' :: name)) = some switch) :
    table.scanFrom tailStart (.option none) index (Token.long name :: rest) =
      (table.scanFrom tailStart
        (SwitchUse.next ⟨String.ofList ('-' :: '-' :: name), switch, none⟩) index rest).after
        (SwitchUse.found ⟨String.ofList ('-' :: '-' :: name), switch, none⟩) := by
  apply scanFrom_of_options
  rw [readToken_long, readLong_ok_iff]
  exact ⟨_, .bare hname h, rfl⟩

/-- One token with a value attached is interchangeable with the two that it is split into. -/
theorem interchangeable_splitValue (hname : '=' ∉ name) (value : List Char) (after : List Token) :
    table.Interchangeable tailStart (Token.long (name ++ '=' :: value) :: after)
      (Token.long name :: ⟨.namedValue, String.ofList value⟩ :: after) := by
  apply Interchangeable.of_names (Token.isName_long _) (Token.isName_long _)
  intro index
  have hvalue : (⟨.namedValue, String.ofList value⟩ : Token).isSplit := rfl
  cases hswitch : table.get? (String.ofList ('-' :: '-' :: name)) with
  | none =>
    have hattached := (readToken_long _).trans (@readLong_attached_of_unknown _ _ value hname hswitch)
    have hbare := (readToken_long _).trans (readLong_of_unknown hname hswitch)
    rw [scanFrom_of_error hattached, scanFrom_of_error hbare]
  | some switch =>
    rw [scanFrom_long_bare hname hswitch]
    cases harity : switch.arity with
    | none =>
      have hattached :=
        (readToken_long _).trans (@readLong_attached_of_flag _ _ value _ hname hswitch harity)
      rw [scanFrom_of_error hattached]
      simp only [SwitchUse.next, harity, Option.isSome_none, Bool.false_eq_true, if_false]
      rw [scanFrom_option_of_split hvalue]
      rfl
    | required =>
      rw [scanFrom_long_attached hname hswitch (by simp [harity])]
      simp only [SwitchUse.next, SwitchUse.found, harity, Option.isSome_none, Bool.false_eq_true,
        if_false, reduceCtorEq, or_self]
      rw [scanFrom_value rfl]
      rfl
    | optional =>
      rw [scanFrom_long_attached hname hswitch (by simp [harity])]
      simp only [SwitchUse.next, SwitchUse.found, harity, Option.isSome_none, Bool.false_eq_true,
        if_false, reduceCtorEq, or_self]
      rw [scanFrom_optionalValue_of_split hvalue]
      rfl

end Long

/-! ## Short options and their stacks -/

section Short

variable {c : Char} {cs flags : List Char} {switch : Switch}

/-- The letter or digit is a short option that takes no value. -/
structure IsFlag (table : SwitchTable) (c : Char) : Prop where
  alphanum : c.isAlphanum
  flag : ∃ switch, table.get? (String.ofList ['-', c]) = some switch ∧ switch.arity = .none

theorem readToken_short (hc : c ≠ '-') :
    table.readToken (.option none) (Token.short (c :: cs)) =
      table.readStack (c :: cs) (c :: cs) none :=
  readFresh_of_stack (Token.isName_short _) (by simp [Token.short]) hc

theorem readsStack_singleton (hc : c ≠ '=') (h : table.get? (String.ofList ['-', c]) = some switch) :
    table.ReadsStack [c] [⟨String.ofList ['-', c], switch, none⟩] := by
  by_cases harity : switch.arity = .none
  · exact .flag hc h harity .done
  · exact .bare hc h harity rfl

theorem readToken_short_bare (hc : c ≠ '-') (hc' : c ≠ '=')
    (h : table.get? (String.ofList ['-', c]) = some switch) :
    table.readToken (.option none) (Token.short [c]) =
      .ok (.options (SwitchUse.found ⟨String.ofList ['-', c], switch, none⟩)
        (SwitchUse.next ⟨String.ofList ['-', c], switch, none⟩)) := by
  rw [readToken_short hc, readStack_ok_iff]
  exact ⟨_, readsStack_singleton hc' h, by simp [nextAfter]⟩

theorem readToken_ne_positional (h : token.isOption) {found : List Occurrence} {payload : Payload} :
    table.readToken (.option none) token ≠ .ok (.positional found payload) := by
  intro hread
  obtain ⟨uses, -, heq⟩ := (readFresh_ok_iff h).1 hread
  simp at heq

/-- After a first switch, an equals sign is blamed on the switch before it. -/
theorem readStack_of_previous (stack stack' cs : List Char) (previous : String) :
    table.readStack stack cs (some previous) = table.readStack stack' cs (some previous) := by
  induction cs generalizing previous with
  | nil => rfl
  | cons c cs ih => simp only [readStack, Option.getD_some, ih]

/-- What stands before a switch does not change how the stack is read from there. -/
theorem readStack_of_ne (hc : c ≠ '=') (stack stack' : List Char) (previous previous' : Option String) :
    table.readStack stack (c :: cs) previous = table.readStack stack' (c :: cs) previous' := by
  simp only [readStack, if_neg hc, readStack_of_previous stack stack']

theorem readStack_of_flag (hc : c ≠ '=') (h : table.get? (String.ofList ['-', c]) = some switch)
    (harity : switch.arity = .none) (stack : List Char) (previous : Option String) :
    table.readStack stack (c :: cs) previous =
      (table.readStack stack cs (some (String.ofList ['-', c]))).map
        (.after [.named switch.key (String.ofList ['-', c])
          (.implied (switch.implied.getD true))]) := by
  simp only [readStack, if_neg hc, find_ok_iff.2 h, bind, Except.bind, harity]
  cases table.readStack stack cs (some (String.ofList ['-', c])) <;> rfl

/-- **The first switch of a stack can be written apart** from the others. -/
theorem interchangeable_first {d : Char} (hc : table.IsFlag c) (hd : d ≠ '-') (hd' : d ≠ '=')
    (after : List Token) :
    table.Interchangeable tailStart (Token.short (c :: d :: cs) :: after)
      (Token.short [c] :: Token.short (d :: cs) :: after) := by
  obtain ⟨halphanum, switch, hswitch, harity⟩ := hc
  obtain ⟨hhyphen, hequals⟩ := ne_of_isAlphanum halphanum
  apply Interchangeable.of_names (Token.isName_short _) (Token.isName_short _)
  intro index
  have hstack : table.readToken (.option none) (Token.short (c :: d :: cs)) =
      (table.readToken (.option none) (Token.short (d :: cs))).map
        (.after [.named switch.key (String.ofList ['-', c])
          (.implied (switch.implied.getD true))]) := by
    rw [readToken_short hhyphen, readToken_short hd, readStack_of_flag hequals hswitch harity,
      readStack_of_ne hd' (c :: d :: cs) (d :: cs) _ none]
  have hflag : SwitchUse.IsFlag ⟨String.ofList ['-', c], switch, none⟩ := ⟨rfl, harity⟩
  rw [collect_scanFrom_of_map hstack fun _ _ hread =>
      absurd hread (readToken_ne_positional (Token.isOption_short d cs)),
    scanFrom_of_options (readToken_short_bare hhyphen hequals hswitch), hflag.found, hflag.next,
    scanFrom_option]
  · rfl
  · simpa using Token.not_isSplit_of_isName (Token.isName_short (d :: cs))

/-- Short options, one in a token, and then what is left of their stack. -/
def apart (flags rest : List Char) : List Token :=
  flags.map (fun c => Token.short [c]) ++ if rest = [] then [] else [Token.short rest]

/-- A stack is interchangeable with its members written apart. -/
theorem interchangeable_apart {remainder : List Char} (hne : flags ≠ [])
    (hflags : ∀ c ∈ flags, table.IsFlag c)
    (hremainder : ∀ c ∈ remainder.head?, c ≠ '-' ∧ c ≠ '=') (after : List Token) :
    table.Interchangeable tailStart (Token.short (flags ++ remainder) :: after)
      (apart flags remainder ++ after) := by
  induction flags with
  | nil => exact absurd rfl hne
  | cons c flags ih =>
    have hc := hflags c (by simp)
    cases flags with
    | nil =>
      cases remainder with
      | nil => exact fun _ _ => rfl
      | cons d ds =>
        obtain ⟨hd, hd'⟩ := hremainder d (by simp)
        exact interchangeable_first hc hd hd' after
    | cons c' flags =>
      obtain ⟨hhyphen, hequals⟩ := ne_of_isAlphanum (hflags c' (by simp)).alphanum
      have hrest := ih (by simp) fun x hx => hflags x (List.mem_cons_of_mem c hx)
      refine (interchangeable_first hc hhyphen hequals after).trans ?_
      apply Interchangeable.of_names (Token.isName_short _) (Token.isName_short [c])
      exact fun index => collect_cons_congr (fun _ next _ => hrest next index) fun _ _ hread =>
        absurd hread (readToken_ne_positional (Token.isOption_short c []))

end Short

/-! ## An equals sign after a short option -/

section Equals

variable {name value : List Char} {c : Char} {switch : Switch}

theorem scanFrom_short_equals (hc : c ≠ '-') (hc' : c ≠ '=')
    (h : table.get? (String.ofList ['-', c]) = some switch) (harity : switch.arity ≠ .none)
    (hvalue : value ≠ []) :
    table.scanFrom tailStart (.option none) index (Token.short (c :: '=' :: value) :: rest) =
      (table.scanFrom tailStart (.option none) index rest).after
        [.named switch.key (String.ofList ['-', c]) (.text (String.ofList value))] := by
  apply scanFrom_of_options
  rw [readToken_short hc, readStack_ok_iff]
  refine ⟨_, .attached hc' h harity (by simpa [withoutEquals] using hvalue), ?_⟩
  simp [withoutEquals, nextAfter, SwitchUse.found, SwitchUse.next, SwitchUse.occurrence,
    SwitchUse.payload]

/-- An equals sign with nothing after it is read as if it were not there. -/
theorem scanFrom_short_equals_nil (hc : c ≠ '-') (hc' : c ≠ '=')
    (h : table.get? (String.ofList ['-', c]) = some switch) (harity : switch.arity ≠ .none) :
    table.scanFrom tailStart (.option none) index (Token.short [c, '='] :: rest) =
      table.scanFrom tailStart (.option none) index (Token.short [c] :: rest) := by
  have hequals : table.readToken (.option none) (Token.short [c, '=']) =
      table.readToken (.option none) (Token.short [c]) := by
    rw [readToken_short hc, readToken_short_bare hc hc' h, readStack_ok_iff]
    exact ⟨_, .bare hc' h harity rfl, by simp [nextAfter]⟩
  rw [scanFrom_of_options (hequals.trans (readToken_short_bare hc hc' h)),
    scanFrom_of_options (readToken_short_bare hc hc' h)]

end Equals

/-! ## The theorems -/

/-- **`--name=value` in one token is the two tokens that it is split into**, whatever stands before
them and after. -/
theorem collect_splitValue (table : SwitchTable) (tailStart : Option Nat) {name : List Char}
    (hname : '=' ∉ name) (value : List Char) {before : List Token} (after : List Token)
    (hbefore : ∀ ts, .tail ts ∉ (table.scan tailStart before).occurrences) :
    (table.scan tailStart (before ++ Token.long (name ++ '=' :: value) :: after)).collect =
      (table.scan tailStart
        (before ++ Token.long name :: ⟨.namedValue, String.ofList value⟩ :: after)).collect :=
  (interchangeable_splitValue hname value after).collect_append hbefore

/-- A value attached where another may still follow, before the tail. -/
theorem collect_splitValue_pending :
    ∃ (table : SwitchTable) (before after : List Token),
      (table.scan (some 0) before).occurrences = [.named "level" "--level" (.implied true)] ∧
      (table.scan (some 0) (before ++ Token.long ['j', '=', '3'] :: after)).collect =
        (table.scan (some 0)
          (before ++ Token.long ['j'] :: ⟨.namedValue, String.ofList ['3']⟩ :: after)).collect ∧
      (table.scan (some 0) (before ++ Token.long ['j', '=', '3'] :: after)).occurrences =
        [.named "level" "--level" (.implied true), .named "jobs" "--j" (.text "3"), .tail after] := by
  let table : SwitchTable := (Dict.empty.insert "--level" ⟨"level", .optional, some true⟩).insert
    "--j" ⟨"jobs", .required, none⟩
  have hbefore : (table.scan (some 0) [⟨.name, "--level"⟩]).occurrences =
      [.named "level" "--level" (.implied true)] := by decide +kernel
  exact ⟨table, [⟨.name, "--level"⟩], [⟨.positionalValue, "a"⟩], hbefore,
    @collect_splitValue table (some 0) ['j'] (by decide) ['3'] _ _ (by simp [hbefore]),
    by decide +kernel⟩

/-- **A stack of short options is its members written apart**, whatever stands before them and
after. Only the last member may take a value or be unknown. -/
theorem collect_stack (table : SwitchTable) (tailStart : Option Nat) {flags remainder : List Char}
    (hne : flags ≠ []) (hflags : ∀ c ∈ flags, table.IsFlag c)
    (hremainder : ∀ c ∈ remainder.head?, c ≠ '-' ∧ c ≠ '=') {before : List Token}
    (after : List Token)
    (hbefore : ∀ ts, .tail ts ∉ (table.scan tailStart before).occurrences) :
    (table.scan tailStart (before ++ Token.short (flags ++ remainder) :: after)).collect =
      (table.scan tailStart (before ++ (apart flags remainder ++ after))).collect :=
  (interchangeable_apart hne hflags hremainder after).collect_append hbefore

/-- A stack after an option that may still take a value, ending with one that needs a value. -/
theorem collect_stack_pending :
    ∃ (table : SwitchTable) (before after : List Token),
      (∀ c ∈ ['v', 'x'], table.IsFlag c) ∧
      (table.scan (some 0) before).occurrences = [.named "level" "--level" (.implied true)] ∧
      (table.scan (some 0) (before ++ Token.short ['v', 'x', 'o'] :: after)).collect =
        (table.scan (some 0) (before ++ (apart ['v', 'x'] ['o'] ++ after))).collect ∧
      (table.scan (some 0) (before ++ Token.short ['v', 'x', 'o'] :: after)).occurrences =
        [.named "level" "--level" (.implied true), .named "v" "-v" (.implied true),
          .named "x" "-x" (.implied false), .named "o" "-o" (.text "a")] := by
  let table : SwitchTable := (((Dict.empty.insert "--level" ⟨"level", .optional, some true⟩).insert
    "-v" ⟨"v", .none, some true⟩).insert "-x" ⟨"x", .none, some false⟩).insert
    "-o" ⟨"o", .required, none⟩
  have hbefore : (table.scan (some 0) [⟨.name, "--level"⟩]).occurrences =
      [.named "level" "--level" (.implied true)] := by decide +kernel
  have hflags : ∀ c ∈ ['v', 'x'], table.IsFlag c := by
    intro c hc
    obtain rfl | rfl := List.mem_pair.1 hc
    · exact ⟨by decide, ⟨"v", .none, some true⟩, by decide +kernel, rfl⟩
    · exact ⟨by decide, ⟨"x", .none, some false⟩, by decide +kernel, rfl⟩
  exact ⟨table, [⟨.name, "--level"⟩], [⟨.positionalValue, "a"⟩], hflags, hbefore,
    @collect_stack table (some 0) ['v', 'x'] ['o'] (by decide) hflags (by simp) _ _
      (by simp [hbefore]), by decide +kernel⟩

/-- **An equals sign gives the text after it**: to a long option in any case, and to a short one
unless the text is empty. `-c=` is `-c`, and takes its value from the next token or goes without. -/
theorem scan_afterEquals {table : SwitchTable} {name : List Char} {c : Char} {long short : Switch}
    (hname : '=' ∉ name) (hc : c ≠ '-') (hc' : c ≠ '=')
    (hlong : table.get? (String.ofList ('-' :: '-' :: name)) = some long)
    (hshort : table.get? (String.ofList ['-', c]) = some short) (hkey : long.key = short.key)
    (hlongArity : long.arity ≠ .none) (hshortArity : short.arity ≠ .none)
    (tailStart : Option Nat) (value : List Char) (rest : List Token) :
    table.scan tailStart (Token.long (name ++ '=' :: value) :: rest) =
        (table.scan tailStart rest).after
          [.named short.key (String.ofList ('-' :: '-' :: name)) (.text (String.ofList value))] ∧
      (value ≠ [] →
        table.scan tailStart (Token.short (c :: '=' :: value) :: rest) =
          (table.scan tailStart rest).after
            [.named short.key (String.ofList ['-', c]) (.text (String.ofList value))]) ∧
      table.scan tailStart (Token.short [c, '='] :: rest) =
        table.scan tailStart (Token.short [c] :: rest) := by
  refine ⟨?_, fun hvalue => ?_, ?_⟩
  · rw [← hkey]
    exact scanFrom_long_attached hname hlong hlongArity
  · exact scanFrom_short_equals hc hc' hshort hshortArity hvalue
  · exact scanFrom_short_equals_nil hc hc' hshort hshortArity

/-- A value that starts with an equals sign itself. -/
theorem scan_afterEquals_twice :
    ∃ (table : SwitchTable) (rest : List Token),
      table.scan none (Token.short ['j', '=', '=', '3'] :: rest) =
          (table.scan none rest).after [.named "jobs" "-j" (.text "=3")] ∧
        table.scan none (Token.long ['j', 'o', 'b', 's', '=', '=', '3'] :: rest) =
          (table.scan none rest).after [.named "jobs" "--jobs" (.text "=3")] := by
  let table : SwitchTable := (Dict.empty.insert "--jobs" ⟨"jobs", .required, none⟩).insert
    "-j" ⟨"jobs", .required, none⟩
  obtain ⟨hlong, hshort, -⟩ :=
    @scan_afterEquals table ['j', 'o', 'b', 's'] 'j' ⟨"jobs", .required, none⟩
      ⟨"jobs", .required, none⟩ (by decide) (by decide) (by decide) (by decide +kernel)
      (by decide +kernel) rfl (by decide) (by decide) none ['=', '3'] [⟨.positionalValue, "a"⟩]
  exact ⟨table, [⟨.positionalValue, "a"⟩], hshort (by decide), hlong⟩

end SwitchTable

namespace Usage

/-- An empty text after an equals sign is the value of a long option. The short spelling of the same
option takes the next token instead. -/
theorem emptyValue_ofLong_notShort :
    ∃ u r' switch, compile "[--name|-n=STR]" Registry.standard = .ok u r' ∧
      u.switches.get? "--name" = some switch ∧ u.switches.get? "-n" = some switch ∧
      switch.arity = .required ∧
      (u.scan [⟨.name, "--name="⟩, ⟨.positionalValue, "x"⟩]).collect =
        .ok [.named "name" "--name" (.text ""), .positional 0 (.text "x")] ∧
      (u.scan [⟨.name, "-n="⟩, ⟨.positionalValue, "x"⟩]).collect =
        .ok [.named "name" "-n" (.text "x")] := by
  obtain ⟨u, r', hcompile, hcheck⟩ :=
    exists_of_succeedsWith (compile "[--name|-n=STR]" Registry.standard)
      (fun u _ => u.switches.get? "--name" = some ⟨"name", .required, none⟩ &&
        u.switches.get? "-n" = some ⟨"name", .required, none⟩ &&
        (u.scan [⟨.name, "--name="⟩, ⟨.positionalValue, "x"⟩]).collect =
          .ok [.named "name" "--name" (.text ""), .positional 0 (.text "x")] &&
        (u.scan [⟨.name, "-n="⟩, ⟨.positionalValue, "x"⟩]).collect =
          .ok [.named "name" "-n" (.text "x")])
      (by decide +kernel)
  simp only [Bool.and_eq_true, decide_eq_true_eq] at hcheck
  obtain ⟨⟨⟨hlong, hshort⟩, hlongScan⟩, hshortScan⟩ := hcheck
  exact ⟨u, r', _, hcompile, hlong, hshort, rfl, hlongScan, hshortScan⟩

end Usage

end Synopsis
