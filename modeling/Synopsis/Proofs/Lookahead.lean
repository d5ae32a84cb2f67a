import Synopsis.Proofs.Pieces

/-!
# Scanning with one token of look-ahead

The scanner remembers between tokens what it is expecting. The direct reading of `ReadsPieces` needs
no memory.

**Theorem (`SwitchTable.pieces_of_scan`).** A scan without an error has one direct reading, whose
pieces are all the tokens in order and yield what the scan found.

What the scanner expects after an option is decided by its last switch alone. Going on from there is
looking at the next token (`goesOn_iff`), and the rest is induction on the tokens.
-/

namespace Synopsis

namespace SwitchUse

/-- What the scanner finds at the switch itself. -/
def found (use : SwitchUse) : List Occurrence :=
  if use.attached.isSome ∨ use.switch.arity = .none then [use.occurrence none] else []

/-- What the scanner expects after the switch. -/
def next (use : SwitchUse) : Expecting :=
  if use.attached.isSome then .option none
  else
    match use.switch.arity with
    | .none => .option (some use.spelling)
    | .required => .value use.switch.key use.spelling
    | .optional =>
      .optionalValue use.switch.key use.spelling (use.switch.implied.getD true)

theorem IsFlag.found {use : SwitchUse} (h : use.IsFlag) : use.found = [use.occurrence none] := by
  rw [SwitchUse.found, if_pos (Or.inr h.2)]

end SwitchUse

namespace SwitchTable

variable {table : SwitchTable} {token : Token}

theorem find_ok_iff {spelling : String} {switch : Switch} :
    table.find spelling = .ok switch ↔ table.get? spelling = some switch := by
  unfold find
  cases table.get? spelling <;> simp

theorem readLong_ok_iff {long : List Char} {move : Move} :
    table.readLong long = .ok move ↔
      ∃ use, table.ReadsLong long use ∧ move = .options use.found use.next := by
  constructor
  · intro h
    rcases splitEquals?_cases long with ⟨hname, hsplit⟩ | ⟨name, value, hname, rfl, hsplit⟩
    · simp only [readLong, hsplit, failing_bind_ok_iff, find_ok_iff] at h
      obtain ⟨switch, hswitch, h⟩ := h
      refine ⟨_, .bare hname hswitch, ?_⟩
      cases harity : switch.arity <;>
        simpa [harity, SwitchUse.found, SwitchUse.next, SwitchUse.occurrence, SwitchUse.payload]
          using h
    · simp only [readLong, hsplit, failing_bind_ok_iff, find_ok_iff] at h
      obtain ⟨switch, hswitch, h⟩ := h
      by_cases harity : switch.arity = .none
      · simp [harity] at h
      · refine ⟨_, .attached hname hswitch harity, ?_⟩
        cases hcase : switch.arity <;>
          simp_all [SwitchUse.found, SwitchUse.next, SwitchUse.occurrence, SwitchUse.payload]
  · rintro ⟨use, huse, rfl⟩
    cases huse with
    | bare hname hswitch =>
      simp only [readLong, splitEquals?_of_notMem hname, failing_bind_ok_iff, find_ok_iff]
      refine ⟨_, hswitch, ?_⟩
      split <;>
        simp_all [SwitchUse.found, SwitchUse.next, SwitchUse.occurrence, SwitchUse.payload]
    | attached hname hswitch harity =>
      simp only [readLong, splitEquals?_append hname, failing_bind_ok_iff, find_ok_iff]
      refine ⟨_, hswitch, ?_⟩
      split <;>
        simp_all [SwitchUse.found, SwitchUse.next, SwitchUse.occurrence, SwitchUse.payload]

/-- What the scanner expects after some switches, the last seen before them being `previous`. -/
def nextAfter (previous : Option String) (uses : List SwitchUse) : Expecting :=
  (uses.getLast?.map SwitchUse.next).getD (.option previous)

theorem nextAfter_cons (previous : Option String) {use : SwitchUse} (h : use.IsFlag)
    (uses : List SwitchUse) :
    nextAfter previous (use :: uses) = nextAfter (some use.spelling) uses := by
  cases uses with
  | nil => simp [nextAfter, SwitchUse.next, h.1, h.2]
  | cons use' uses => simp [nextAfter, List.getLast?_cons]

theorem withoutEquals_eq (cs : List Char) :
    (if cs.head? = some '=' then cs.tail else cs) = withoutEquals cs := by
  cases cs with
  | nil => rfl
  | cons c cs => by_cases hc : c = '=' <;> simp [withoutEquals, hc]

/-- Reading a stack is reading its switches. -/
theorem readStack_ok_iff {stack cs : List Char} {previous : Option String} {move : Move} :
    table.readStack stack cs previous = .ok move ↔
      ∃ uses, table.ReadsStack cs uses ∧
        move = .options (uses.flatMap SwitchUse.found) (nextAfter previous uses) := by
  induction cs generalizing previous move with
  | nil =>
    constructor
    · intro h
      obtain rfl := by simpa [readStack] using h
      exact ⟨[], .done, rfl⟩
    · rintro ⟨uses, huses, rfl⟩
      cases huses
      rfl
  | cons c cs ih =>
    by_cases hc : c = '='
    · subst hc
      constructor
      · intro h
        simp [readStack] at h
      · rintro ⟨uses, huses, -⟩
        cases huses <;> contradiction
    simp only [readStack, if_neg hc, withoutEquals_eq, failing_bind_ok_iff, find_ok_iff]
    constructor
    · rintro ⟨switch, hswitch, h⟩
      by_cases harity : switch.arity = .none
      · simp only [harity, failing_bind_ok_iff, failing_pure_ok_iff] at h
        obtain ⟨rest, hrest, rfl⟩ := h
        obtain ⟨uses, huses, rfl⟩ := ih.1 hrest
        refine ⟨_, .flag hc hswitch harity huses, ?_⟩
        rw [nextAfter_cons _ ⟨rfl, harity⟩, List.flatMap_cons, SwitchUse.IsFlag.found ⟨rfl, harity⟩]
        rfl
      · by_cases hvalue : withoutEquals cs = []
        · refine ⟨_, .bare hc hswitch harity hvalue, ?_⟩
          split at h <;> simp_all [nextAfter, SwitchUse.found, SwitchUse.next]
        · refine ⟨_, .attached hc hswitch harity hvalue, ?_⟩
          split at h <;>
            simp_all [nextAfter, SwitchUse.found, SwitchUse.next, SwitchUse.occurrence,
              SwitchUse.payload]
    · rintro ⟨uses, huses, rfl⟩
      cases huses with
      | flag _ hswitch harity huses =>
        refine ⟨_, hswitch, ?_⟩
        simp only [harity, failing_bind_ok_iff, failing_pure_ok_iff]
        refine ⟨_, ih.2 ⟨_, huses, rfl⟩, ?_⟩
        rw [nextAfter_cons _ ⟨rfl, harity⟩, List.flatMap_cons, SwitchUse.IsFlag.found ⟨rfl, harity⟩]
        rfl
      | bare _ hswitch harity hvalue =>
        refine ⟨_, hswitch, ?_⟩
        split <;> simp_all [nextAfter, SwitchUse.found, SwitchUse.next]
      | attached _ hswitch harity hvalue =>
        refine ⟨_, hswitch, ?_⟩
        split <;>
          simp_all [nextAfter, SwitchUse.found, SwitchUse.next, SwitchUse.occurrence,
            SwitchUse.payload]

theorem readFresh_of_not_isOption (h : token.isOption = false) :
    table.readFresh token = .ok (.positional [] token.payload) := by
  unfold Token.isOption Token.isName at h
  unfold readFresh Token.payload
  cases hkind : token.kind with
  | name | operator =>
    simp only [hkind] at h ⊢
    split
    · next htext => simp [htext] at h
    · next htext => simp [htext] at h
    · simp
  | positionalValue | namedValue | positionalExpression | namedExpression => simp

theorem readFresh_of_long {long : List Char} (hname : token.isName)
    (htext : token.text.toList = '-' :: '-' :: long) :
    table.readFresh token = table.readLong long := by
  unfold Token.isName at hname
  cases hkind : token.kind <;> simp [hkind] at hname <;> simp [readFresh, hkind, htext]

theorem readFresh_of_stack {c : Char} {cs : List Char} (hname : token.isName)
    (htext : token.text.toList = '-' :: c :: cs) (hc : c ≠ '-') :
    table.readFresh token = table.readStack (c :: cs) (c :: cs) none := by
  unfold Token.isName at hname
  cases hkind : token.kind <;> simp [hkind] at hname <;> simp [readFresh, hkind, htext]

theorem readFresh_ok_iff (h : token.isOption) {move : Move} :
    table.readFresh token = .ok move ↔
      ∃ uses, table.ReadsUses token uses ∧
        move = .options (uses.flatMap SwitchUse.found) (nextAfter none uses) := by
  obtain ⟨hname, hspelled⟩ := Bool.and_eq_true_iff.1 h
  obtain ⟨c, cs, htext⟩ : ∃ c cs, token.text.toList = '-' :: c :: cs := by
    split at hspelled
    · next c cs heq => exact ⟨c, cs, heq⟩
    · simp at hspelled
  by_cases hc : c = '-'
  · subst hc
    rw [readFresh_of_long hname htext, readLong_ok_iff]
    constructor
    · rintro ⟨use, huse, rfl⟩
      exact ⟨[use], .long hname htext huse, by simp [nextAfter]⟩
    · rintro ⟨uses, huses, rfl⟩
      cases huses with
      | long _ htext' huse =>
        obtain rfl := by simpa [htext] using htext'
        exact ⟨_, huse, by simp [nextAfter]⟩
      | stack _ htext' hc =>
        obtain ⟨rfl, -⟩ := by simpa [htext] using htext'
        exact absurd rfl hc
  · rw [readFresh_of_stack hname htext hc, readStack_ok_iff]
    constructor
    · rintro ⟨uses, huses, rfl⟩
      exact ⟨uses, .stack hname htext hc huses, rfl⟩
    · rintro ⟨uses, huses, rfl⟩
      cases huses with
      | long _ htext' =>
        obtain ⟨rfl, -⟩ := by simpa [htext] using htext'
        exact absurd rfl hc
      | stack _ htext' _ huses =>
        obtain ⟨rfl, rfl⟩ := by simpa [htext] using htext'
        exact ⟨uses, huses, rfl⟩

/-! ## The token after an option -/

variable {tailStart : Option Nat} {index : Nat} {rest : List Token} {occurrences : List Occurrence}

theorem after_eq_iff {found : List Occurrence} {s : Scan} :
    s.after found = ⟨occurrences, none⟩ ↔
      ∃ occurrences', s = ⟨occurrences', none⟩ ∧ occurrences = found ++ occurrences' := by
  obtain ⟨occurrences', error⟩ := s
  simp only [Scan.after, Scan.mk.injEq]
  constructor
  · rintro ⟨rfl, rfl⟩
    exact ⟨occurrences', ⟨rfl, rfl⟩, rfl⟩
  · rintro ⟨_, ⟨rfl, rfl⟩, rfl⟩
    exact ⟨rfl, rfl⟩

/-- After a switch that takes no value the next token is read afresh, unless it is split. -/
theorem scanFrom_option {spelling : String} (h : ¬rest.head?.any Token.isSplit) :
    table.scanFrom tailStart (.option (some spelling)) index rest =
      table.scanFrom tailStart (.option none) index rest := by
  cases rest with
  | nil => rfl
  | cons token rest =>
    have hread : table.readToken (.option (some spelling)) token =
        table.readToken (.option none) token := by
      unfold readToken
      cases hkind : token.kind <;> simp [Token.isSplit, hkind] at h ⊢
    simp only [scanFrom, hread]

theorem scanFrom_option_of_split {spelling : String} (h : token.isSplit) :
    table.scanFrom tailStart (.option (some spelling)) index (token :: rest) =
      ⟨[], some (.unexpectedValue spelling)⟩ := by
  have hread : table.readToken (.option (some spelling)) token =
      .error (.unexpectedValue spelling) := by
    unfold readToken
    cases hkind : token.kind <;> simp [Token.isSplit, hkind] at h ⊢
  simp only [scanFrom, hread]

theorem scanFrom_value {key spelling : String} (h : token.isName = false) :
    table.scanFrom tailStart (.value key spelling) index (token :: rest) =
      (table.scanFrom tailStart (.option none) index rest).after
        [.named key spelling token.payload] := by
  have hread : table.readToken (.value key spelling) token =
      .ok (.options [.named key spelling token.payload] (.option none)) := by
    unfold readToken Token.payload
    cases hkind : token.kind <;> simp [Token.isName, hkind] at h ⊢
  simp only [scanFrom, hread]

theorem scanFrom_value_of_name {key spelling : String} (h : token.isName) :
    table.scanFrom tailStart (.value key spelling) index (token :: rest) =
      ⟨[], some (.missingValue spelling)⟩ := by
  have hread : table.readToken (.value key spelling) token = .error (.missingValue spelling) := by
    unfold readToken
    cases hkind : token.kind <;> simp [Token.isName, hkind] at h ⊢
  simp only [scanFrom, hread]

theorem scanFrom_optionalValue_of_split {key spelling : String} {implied : Bool}
    (h : token.isSplit) :
    table.scanFrom tailStart (.optionalValue key spelling implied) index (token :: rest) =
      (table.scanFrom tailStart (.option none) index rest).after
        [.named key spelling token.payload] := by
  have hread : table.readToken (.optionalValue key spelling implied) token =
      .ok (.options [.named key spelling token.payload] (.option none)) := by
    unfold readToken Token.payload
    cases hkind : token.kind <;> simp [Token.isSplit, hkind] at h ⊢
  simp only [scanFrom, hread]

/-- An option without its value has the implied one, and the next token is read afresh. Where that
token fails, nothing is found at all. -/
theorem scanFrom_optionalValue_iff {key spelling : String} {implied : Bool}
    (h : ¬rest.head?.any Token.isSplit) :
    table.scanFrom tailStart (.optionalValue key spelling implied) index rest =
        ⟨occurrences, none⟩ ↔
      (table.scanFrom tailStart (.option none) index rest).after
        [.named key spelling (.implied implied)] = ⟨occurrences, none⟩ := by
  cases rest with
  | nil => simp [scanFrom, finishScan, Scan.after]
  | cons token rest =>
    have hread : table.readToken (.optionalValue key spelling implied) token =
        (table.readFresh token).map (.after [.named key spelling (.implied implied)]) := by
      unfold readToken
      cases hkind : token.kind <;> simp [Token.isSplit, hkind] at h ⊢
    have hread' : table.readToken (.option none) token = table.readFresh token := rfl
    simp only [scanFrom, hread, hread']
    cases table.readFresh token with
    | error e => simp [Except.map, Scan.after]
    | ok move =>
      cases move with
      | options found next => simp [Except.map, Move.after, Scan.after]
      | positional found payload =>
        simp only [Except.map, Move.after]
        split_ifs <;> simp [Scan.after]

/-- The scan of `rest` after a switch, as the next token decides it. -/
def GoesOn (table : SwitchTable) (tailStart : Option Nat) (index : Nat) (use : SwitchUse)
    (rest : List Token) (occurrences : List Occurrence) : Prop :=
  ∃ value, use.value? rest.head? = some value ∧
    (table.scanFrom tailStart (.option none) index (rest.drop value.toList.length)).after
      [use.occurrence value] = ⟨occurrences, none⟩

section GoesOn

variable {use : SwitchUse}

theorem goesOn_iff_of_value {value : Option Token} (h : use.value? rest.head? = some value) :
    table.GoesOn tailStart index use rest occurrences ↔
      (table.scanFrom tailStart (.option none) index (rest.drop value.toList.length)).after
        [use.occurrence value] = ⟨occurrences, none⟩ := by
  simp [GoesOn, h]

theorem not_goesOn (h : use.value? rest.head? = none) :
    ¬table.GoesOn tailStart index use rest occurrences := by
  simp [GoesOn, h]

theorem occurrence_of_token (h : use.attached = none) (token : Token) :
    use.occurrence (some token) = .named use.switch.key use.spelling token.payload := by
  simp [SwitchUse.occurrence, SwitchUse.payload, h]

theorem goesOn_of_flag (h : use.IsFlag) :
    (table.scanFrom tailStart use.next index rest).after use.found = ⟨occurrences, none⟩ ↔
      table.GoesOn tailStart index use rest occurrences := by
  obtain ⟨hattached, harity⟩ := h
  have hnext : use.next = .option (some use.spelling) := by
    simp [SwitchUse.next, hattached, harity]
  rw [hnext, SwitchUse.IsFlag.found ⟨hattached, harity⟩]
  by_cases hsplit : rest.head?.any Token.isSplit
  · have hvalue : use.value? rest.head? = none := by
      simp [SwitchUse.value?, hattached, harity, hsplit]
    cases rest with
    | nil => simp at hsplit
    | cons token rest =>
      rw [scanFrom_option_of_split (by simpa using hsplit)]
      simp [not_goesOn hvalue, Scan.after]
  · have hvalue : use.value? rest.head? = some none := by
      simp [SwitchUse.value?, hattached, harity, hsplit]
    rw [scanFrom_option hsplit, goesOn_iff_of_value hvalue]
    rfl

theorem goesOn_of_required (hattached : use.attached = none) (harity : use.switch.arity = .required) :
    (table.scanFrom tailStart use.next index rest).after use.found = ⟨occurrences, none⟩ ↔
      table.GoesOn tailStart index use rest occurrences := by
  have hfound : use.found = [] := by simp [SwitchUse.found, hattached, harity]
  have hnext : use.next = .value use.switch.key use.spelling := by
    simp [SwitchUse.next, hattached, harity]
  rw [hnext, hfound]
  cases rest with
  | nil =>
    have hvalue : use.value? ([] : List Token).head? = none := by
      simp [SwitchUse.value?, hattached, harity]
    simp [not_goesOn hvalue, scanFrom, finishScan, Scan.after]
  | cons token rest =>
    by_cases hname : token.isName
    · have hvalue : use.value? (token :: rest).head? = none := by
        simp [SwitchUse.value?, hattached, harity, hname]
      rw [scanFrom_value_of_name hname]
      simp [not_goesOn hvalue, Scan.after]
    · have hvalue : use.value? (token :: rest).head? = some (some token) := by
        simp [SwitchUse.value?, hattached, harity, hname]
      rw [scanFrom_value (by simpa using hname), goesOn_iff_of_value hvalue,
        occurrence_of_token hattached]
      rfl

theorem goesOn_of_optional (hattached : use.attached = none) (harity : use.switch.arity = .optional) :
    (table.scanFrom tailStart use.next index rest).after use.found = ⟨occurrences, none⟩ ↔
      table.GoesOn tailStart index use rest occurrences := by
  have hfound : use.found = [] := by simp [SwitchUse.found, hattached, harity]
  have hnext : use.next =
      .optionalValue use.switch.key use.spelling (use.switch.implied.getD true) := by
    simp [SwitchUse.next, hattached, harity]
  have himplied : use.occurrence none =
      .named use.switch.key use.spelling (.implied (use.switch.implied.getD true)) := by
    simp [SwitchUse.occurrence, SwitchUse.payload, hattached]
  have hafter (s : Scan) : s.after [] = s := rfl
  rw [hnext, hfound, hafter]
  by_cases hsplit : rest.head?.any Token.isSplit
  · cases rest with
    | nil => simp at hsplit
    | cons token rest =>
      have hsplit' : token.isSplit := by simpa using hsplit
      have hvalue : use.value? (token :: rest).head? = some (some token) := by
        simp [SwitchUse.value?, hattached, harity, Option.filter, hsplit']
      rw [scanFrom_optionalValue_of_split hsplit', goesOn_iff_of_value hvalue,
        occurrence_of_token hattached]
      rfl
  · have hvalue : use.value? rest.head? = some none := by
      cases rest <;> simp_all [SwitchUse.value?, Option.filter]
    rw [scanFrom_optionalValue_iff hsplit, goesOn_iff_of_value hvalue, himplied]
    rfl

/-- **Going on after an option is looking at the next token.** -/
theorem goesOn_iff :
    (table.scanFrom tailStart use.next index rest).after use.found = ⟨occurrences, none⟩ ↔
      table.GoesOn tailStart index use rest occurrences := by
  by_cases hattached : use.attached = none
  · cases harity : use.switch.arity with
    | none => exact goesOn_of_flag ⟨hattached, harity⟩
    | required => exact goesOn_of_required hattached harity
    | optional => exact goesOn_of_optional hattached harity
  · have hsome : use.attached.isSome := Option.isSome_iff_ne_none.2 hattached
    have hvalue : use.value? rest.head? = some none := by simp [SwitchUse.value?, hsome]
    rw [goesOn_iff_of_value hvalue]
    simp [SwitchUse.found, SwitchUse.next, hsome]

end GoesOn

/-! ## The whole reading -/

theorem scanFrom_positional (h : token.isOption = false) :
    table.scanFrom tailStart (.option none) index (token :: rest) =
      if tailStart = some index then ⟨[.tail (token :: rest)], none⟩
      else (table.scanFrom tailStart (.option none) (index + 1) rest).after
        [.positional index token.payload] := by
  have hread : table.readToken (.option none) token = .ok (.positional [] token.payload) :=
    readFresh_of_not_isOption h
  rw [scanFrom, hread]
  rfl

theorem ReadsUses.found {flags : List SwitchUse} {last : SwitchUse}
    (h : table.ReadsUses token (flags ++ [last])) :
    (flags ++ [last]).flatMap SwitchUse.found = flags.map (·.occurrence none) ++ last.found := by
  rw [List.flatMap_append, List.flatMap_congr fun use huse => (h.flags use huse).found,
    ← List.map_eq_flatMap, List.flatMap_singleton]

theorem after_append (found found' : List Occurrence) (s : Scan) :
    s.after (found ++ found') = (s.after found').after found := by
  simp [Scan.after]

/-- A token that is spelled as an option is its switches, and the last of them decides what the
next token is. -/
theorem scanFrom_option_iff (h : token.isOption) :
    table.scanFrom tailStart (.option none) index (token :: rest) = ⟨occurrences, none⟩ ↔
      ∃ flags last occurrences', table.ReadsUses token (flags ++ [last]) ∧
        table.GoesOn tailStart index last rest occurrences' ∧
        occurrences = flags.map (·.occurrence none) ++ occurrences' := by
  have hscan (flags : List SwitchUse) (last : SwitchUse)
      (huses : table.ReadsUses token (flags ++ [last])) :
      table.scanFrom tailStart (.option none) index (token :: rest) =
        ((table.scanFrom tailStart last.next index rest).after last.found).after
          (flags.map (·.occurrence none)) := by
    have hread : table.readToken (.option none) token =
        .ok (.options (flags.map (·.occurrence none) ++ last.found) last.next) := by
      refine (readFresh_ok_iff h).2 ⟨_, huses, ?_⟩
      rw [huses.found]
      simp [nextAfter]
    simp only [scanFrom, hread, after_append]
  constructor
  · intro hok
    cases hfresh : table.readFresh token with
    | error e =>
      have hread : table.readToken (.option none) token = .error e := hfresh
      simp [scanFrom, hread] at hok
    | ok move =>
      obtain ⟨uses, huses, -⟩ := (readFresh_ok_iff h).1 hfresh
      obtain ⟨flags, last, rfl⟩ := (List.eq_nil_or_concat' uses).resolve_left huses.ne_nil
      rw [hscan flags last huses, after_eq_iff] at hok
      obtain ⟨occurrences', hon, rfl⟩ := hok
      exact ⟨flags, last, occurrences', huses, goesOn_iff.1 hon, rfl⟩
  · rintro ⟨flags, last, occurrences', huses, hon, rfl⟩
    rw [hscan flags last huses, after_eq_iff]
    exact ⟨occurrences', goesOn_iff.2 hon, rfl⟩

/-- **A scan without an error is the direct reading.** -/
theorem scanFrom_iff {tokens : List Token} :
    table.scanFrom tailStart (.option none) index tokens = ⟨occurrences, none⟩ ↔
      ∃ pieces, table.ReadsPieces tailStart index tokens pieces ∧
        occurrences = pieces.flatMap Piece.occurrences := by
  induction hlength : tokens.length using Nat.strong_induction_on
    generalizing index tokens occurrences with
  | h n ih =>
    subst hlength
    constructor
    · intro h
      cases tokens with
      | nil =>
        obtain rfl := by simpa [scanFrom, finishScan] using h
        exact ⟨[], .done, rfl⟩
      | cons token rest =>
        by_cases htoken : token.isOption
        · obtain ⟨flags, last, occurrences, huses, ⟨value, hvalue, hon⟩, rfl⟩ :=
            (scanFrom_option_iff htoken).1 h
          obtain ⟨occurrences, hrest, rfl⟩ := after_eq_iff.1 hon
          obtain ⟨pieces, hpieces, rfl⟩ := (ih _ (by simp) rfl).1 hrest
          cases value with
          | none =>
            exact ⟨_, .option huses hvalue hpieces, by simp [Piece.occurrences]⟩
          | some value =>
            obtain ⟨rest, rfl⟩ := List.head?_eq_some_iff.1 (taken_of_value? hvalue).1
            exact ⟨_, .optionWithValue huses hvalue hpieces, by simp [Piece.occurrences]⟩
        · have hpositional : token.isOption = false := by simpa using htoken
          rw [scanFrom_positional hpositional] at h
          split_ifs at h with hindex
          · obtain rfl := by simpa using h
            exact ⟨_, .tail hpositional hindex, rfl⟩
          · obtain ⟨occurrences, hrest, rfl⟩ := after_eq_iff.1 h
            obtain ⟨pieces, hpieces, rfl⟩ := (ih _ (by simp) rfl).1 hrest
            exact ⟨_, .positional hpositional hindex hpieces, rfl⟩
    · rintro ⟨pieces, hpieces, rfl⟩
      cases hpieces with
      | done => rfl
      | @option _ token rest flags last pieces huses hvalue hrest =>
        refine (scanFrom_option_iff huses.isOption).2 ⟨flags, last,
          last.occurrence none :: pieces.flatMap Piece.occurrences, huses, ⟨none, hvalue, ?_⟩, ?_⟩
        · exact after_eq_iff.2 ⟨_, (ih _ (by simp) rfl).2 ⟨pieces, hrest, rfl⟩, rfl⟩
        · simp [Piece.occurrences]
      | @optionWithValue _ token value rest flags last pieces huses hvalue hrest =>
        refine (scanFrom_option_iff huses.isOption).2 ⟨flags, last,
          last.occurrence (some value) :: pieces.flatMap Piece.occurrences, huses,
          ⟨some value, hvalue, ?_⟩, ?_⟩
        · exact after_eq_iff.2 ⟨_, (ih _ (by simp) rfl).2 ⟨pieces, hrest, rfl⟩, rfl⟩
        · simp [Piece.occurrences]
      | @positional _ token rest pieces htoken hindex hrest =>
        rw [scanFrom_positional htoken, if_neg hindex]
        exact after_eq_iff.2 ⟨_, (ih _ (by simp) rfl).2 ⟨pieces, hrest, rfl⟩, rfl⟩
      | tail htoken hindex =>
        rw [scanFrom_positional htoken, if_pos hindex]
        rfl

theorem exists_pieces {tokens : List Token} (h : (table.scan tailStart tokens).error = none) :
    ∃ pieces, table.ReadsPieces tailStart 0 tokens pieces ∧
      (table.scan tailStart tokens).occurrences = pieces.flatMap Piece.occurrences := by
  refine scanFrom_iff.1 ?_
  rw [← h]
  rfl

/-- **Each token is accounted for once.** A scan without an error has one direct reading. Its pieces
are all the tokens, in order, and yield what is found, in order; a value is taken by the switch
before it and is not a name; positionals are numbered without gaps, up to where the tail starts; and
a tail is the last piece, starts with the positional of that number, and ends with the tokens. -/
theorem pieces_of_scan {tokens : List Token} (h : (table.scan tailStart tokens).error = none) :
    ∃ pieces, table.ReadsPieces tailStart 0 tokens pieces ∧
      (∀ pieces', table.ReadsPieces tailStart 0 tokens pieces' → pieces' = pieces) ∧
      pieces.flatMap Piece.tokens = tokens ∧
      (table.scan tailStart tokens).occurrences = pieces.flatMap Piece.occurrences ∧
      (∀ token flags last value, .option token flags last (some value) ∈ pieces →
        last.attached = none ∧ last.switch.arity ≠ .none ∧ value.isName = false) ∧
      (table.scan tailStart tokens).occurrences.filterMap Occurrence.index? =
        List.range (positionalsOf pieces).length ∧
      (∀ start, tailStart = some start → (positionalsOf pieces).length ≤ start) ∧
      ∀ ts, .tail ts ∈ (table.scan tailStart tokens).occurrences →
        ∃ before token, pieces = before ++ [.tail ts] ∧
          (∀ ts', .tail ts' ∉ before.flatMap Piece.occurrences) ∧
          before.flatMap Piece.tokens ++ ts = tokens ∧
          tailStart = some (positionalsOf pieces).length ∧
          ts.head? = some token ∧ token.isOption = false := by
  obtain ⟨pieces, hpieces, hoccurrences⟩ := exists_pieces h
  obtain ⟨hnumbered, hbound⟩ := hpieces.numbered
  rw [hoccurrences]
  refine ⟨pieces, hpieces, fun _ => hpieces.unique, hpieces.tokens_eq, rfl,
    fun _ _ _ _ => hpieces.taken, ?_, ?_, ?_⟩
  · rw [hnumbered, List.range_eq_range']
  · intro start hstart
    have := hbound start hstart (Nat.zero_le _)
    omega
  · intro ts hts
    obtain ⟨before, token, heq, hnone, hstart, hhead, htoken⟩ := hpieces.tail_last hts
    have htokens := hpieces.tokens_eq
    rw [heq, List.flatMap_append] at htokens
    exact ⟨before, token, heq, hnone, by simpa [Piece.tokens] using htokens, by simpa using hstart,
      hhead, htoken⟩

/-- A stack that ends with a value, an option without its value, and a tail. -/
theorem pieces_stackAndTail :
    ∃ (table : SwitchTable) (tokens : List Token),
      (table.scan (some 1) tokens).error = none ∧
      ∃ pieces, table.ReadsPieces (some 1) 0 tokens pieces ∧
        pieces.flatMap Piece.tokens = tokens ∧
        .tail [⟨.positionalValue, "b"⟩, ⟨.name, "-v"⟩] ∈ pieces := by
  let table : SwitchTable := ((Dict.empty.insert "-v" ⟨"v", .none, some true⟩).insert
    "-o" ⟨"o", .required, none⟩).insert "--level" ⟨"level", .optional, some true⟩
  let tokens : List Token := [⟨.name, "-vo"⟩, ⟨.positionalValue, "x"⟩, ⟨.name, "--level"⟩,
    ⟨.positionalValue, "a"⟩, ⟨.positionalValue, "b"⟩, ⟨.name, "-v"⟩]
  have herror : (table.scan (some 1) tokens).error = none := by decide +kernel
  obtain ⟨pieces, hpieces, -, htokens, -, -, -, -, htail⟩ := pieces_of_scan herror
  have hmem : .tail [⟨.positionalValue, "b"⟩, ⟨.name, "-v"⟩] ∈
      (table.scan (some 1) tokens).occurrences := by decide +kernel
  obtain ⟨before, token, heq, -⟩ := htail _ hmem
  exact ⟨table, tokens, herror, pieces, hpieces, htokens, by simp [heq]⟩

end SwitchTable

end Synopsis
