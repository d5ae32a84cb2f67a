import Synopsis.Proofs.Feeding

/-!
# The pieces of a command line

A direct reading takes tokens apart into *pieces*: an option with the value that it takes from the
next token, or a positional, or the tail. To end a piece it looks at one more token at most, and it
remembers nothing.

The reading is a relation with a rule for each kind of piece. No two rules apply to one command line
(`ReadsPieces.unique`), and the pieces are all its tokens (`ReadsPieces.tokens_eq`).
-/

namespace Synopsis

namespace Token

/-- The token is matched as a name, and so is never a value. -/
def isName (t : Token) : Bool := t.kind = .name || t.kind = .operator

/-- The token is a value already split from its option. -/
def isSplit (t : Token) : Bool := t.kind = .namedValue || t.kind = .namedExpression

/-- What the token carries where it is a value. -/
def payload (t : Token) : Payload :=
  if t.kind = .positionalExpression ∨ t.kind = .namedExpression then .deferred t.text
  else .text t.text

/-- The token is spelled as an option. -/
def isOption (t : Token) : Bool :=
  t.isName && match t.text.toList with
    | '-' :: _ :: _ => true
    | _ => false

end Token

/-- The number of a positional. -/
def Occurrence.index? : Occurrence → Option Nat
  | positional index _ => some index
  | _ => none

/-- A text after a short option, less one `=`. -/
def withoutEquals : List Char → List Char
  | '=' :: value => value
  | value => value

/-! ## Switches in a token -/

/-- A switch as it is written: its spelling, what the table has for it, and the text attached. -/
structure SwitchUse where
  spelling : String
  switch : Switch
  attached : Option String

namespace SwitchUse

/-- What the switch carries, with the value token that it takes. -/
def payload (use : SwitchUse) (value : Option Token) : Payload :=
  match use.attached, value with
  | some text, _ => .text text
  | none, some token => token.payload
  | none, none => .implied (use.switch.implied.getD true)

def occurrence (use : SwitchUse) (value : Option Token) : Occurrence :=
  .named use.switch.key use.spelling (use.payload value)

/-- The value that a switch takes from the token after its own, if it may stand before that
token. -/
def value? (use : SwitchUse) (next : Option Token) : Option (Option Token) :=
  if use.attached.isSome then some none
  else
    match use.switch.arity with
    | .none => if next.any Token.isSplit then none else some none
    | .required => (next.filter (!·.isName)).map some
    | .optional => some (next.filter Token.isSplit)

end SwitchUse

namespace SwitchTable

/-- The switch of a long option, after `--`. -/
inductive ReadsLong (table : SwitchTable) : List Char → SwitchUse → Prop
  | bare {name : List Char} {switch : Switch} (hname : '=' ∉ name)
      (hswitch : table.get? (String.ofList ('-' :: '-' :: name)) = some switch) :
      ReadsLong table name ⟨String.ofList ('-' :: '-' :: name), switch, none⟩
  | attached {name value : List Char} {switch : Switch} (hname : '=' ∉ name)
      (hswitch : table.get? (String.ofList ('-' :: '-' :: name)) = some switch)
      (harity : switch.arity ≠ .none) :
      ReadsLong table (name ++ '=' :: value)
        ⟨String.ofList ('-' :: '-' :: name), switch, some (String.ofList value)⟩

/-- The switches of a stack of short options, after `-`: one for each character, up to the first
that takes a value. What follows that one is its value. -/
inductive ReadsStack (table : SwitchTable) : List Char → List SwitchUse → Prop
  | done : ReadsStack table [] []
  | flag {c : Char} {cs : List Char} {switch : Switch} {uses : List SwitchUse} (hc : c ≠ '=')
      (hswitch : table.get? (String.ofList ['-', c]) = some switch) (harity : switch.arity = .none)
      (hrest : ReadsStack table cs uses) :
      ReadsStack table (c :: cs) (⟨String.ofList ['-', c], switch, none⟩ :: uses)
  | bare {c : Char} {cs : List Char} {switch : Switch} (hc : c ≠ '=')
      (hswitch : table.get? (String.ofList ['-', c]) = some switch) (harity : switch.arity ≠ .none)
      (hvalue : withoutEquals cs = []) :
      ReadsStack table (c :: cs) [⟨String.ofList ['-', c], switch, none⟩]
  | attached {c : Char} {cs : List Char} {switch : Switch} (hc : c ≠ '=')
      (hswitch : table.get? (String.ofList ['-', c]) = some switch) (harity : switch.arity ≠ .none)
      (hvalue : withoutEquals cs ≠ []) :
      ReadsStack table (c :: cs)
        [⟨String.ofList ['-', c], switch, some (String.ofList (withoutEquals cs))⟩]

/-- The switches of an option token. -/
inductive ReadsUses (table : SwitchTable) (token : Token) : List SwitchUse → Prop
  | long {long : List Char} {use : SwitchUse} (hname : token.isName)
      (htext : token.text.toList = '-' :: '-' :: long) (huse : table.ReadsLong long use) :
      ReadsUses table token [use]
  | stack {c : Char} {cs : List Char} {uses : List SwitchUse} (hname : token.isName)
      (htext : token.text.toList = '-' :: c :: cs) (hc : c ≠ '-')
      (huses : table.ReadsStack (c :: cs) uses) : ReadsUses table token uses

end SwitchTable

/-! ## Pieces -/

/-- One piece of a command line. -/
inductive Piece where
  /-- An option token whose switches are `flags` and then `last`, with the value that it takes. -/
  | option (token : Token) (flags : List SwitchUse) (last : SwitchUse) (value : Option Token)
  | positional (index : Nat) (token : Token)
  | tail (tokens : List Token)

namespace Piece

/-- The tokens that the piece takes. -/
def tokens : Piece → List Token
  | option token _ _ value => token :: value.toList
  | positional _ token => [token]
  | tail tokens => tokens

/-- What the piece yields. -/
def occurrences : Piece → List Occurrence
  | option _ flags last value => flags.map (·.occurrence none) ++ [last.occurrence value]
  | positional index token => [.positional index token.payload]
  | tail tokens => [.tail tokens]

end Piece

/-- The token of a positional. -/
def Piece.positional? : Piece → Option Token
  | positional _ token => some token
  | _ => none

/-- What the pieces yield for positionals. -/
def positionalsOf (pieces : List Piece) : List Payload :=
  (pieces.flatMap Piece.occurrences).filterMap Occurrence.positional?

theorem positionalsOf_append (first second : List Piece) :
    positionalsOf (first ++ second) = positionalsOf first ++ positionalsOf second := by
  rw [positionalsOf, List.flatMap_append, List.filterMap_append]
  rfl

section Occurrences

variable {token : Token} {flags : List SwitchUse} {last : SwitchUse} {value : Option Token}

theorem filterMap_occurrences_option {α : Type} {f : Occurrence → Option α}
    (h : ∀ key spelling payload, f (.named key spelling payload) = none) :
    (Piece.option token flags last value).occurrences.filterMap f = [] := by
  rw [List.filterMap_eq_nil_iff]
  intro occurrence hmem
  rcases List.mem_append.1 hmem with hmem | hmem
  · obtain ⟨use, -, rfl⟩ := List.mem_map.1 hmem
    exact h _ _ _
  · rw [List.mem_singleton.1 hmem]
    exact h _ _ _

@[simp] theorem index?_occurrences_option :
    (Piece.option token flags last value).occurrences.filterMap Occurrence.index? = [] :=
  filterMap_occurrences_option fun _ _ _ => rfl

@[simp] theorem tail_notMem_occurrences_option {ts : List Token} :
    .tail ts ∉ (Piece.option token flags last value).occurrences := by
  simp [Piece.occurrences, SwitchUse.occurrence]

@[simp] theorem positionalsOf_nil : positionalsOf [] = [] := rfl

@[simp] theorem positionalsOf_option {pieces : List Piece} :
    positionalsOf (.option token flags last value :: pieces) = positionalsOf pieces := by
  rw [positionalsOf, List.flatMap_cons, List.filterMap_append,
    filterMap_occurrences_option fun _ _ _ => rfl]
  rfl

@[simp] theorem positionalsOf_positional {index : Nat} {pieces : List Piece} :
    positionalsOf (.positional index token :: pieces) = token.payload :: positionalsOf pieces :=
  rfl

@[simp] theorem positionalsOf_tail {tokens : List Token} : positionalsOf [.tail tokens] = [] := rfl

end Occurrences

/-- **The direct reading** of tokens, when `index` positionals have been found. -/
inductive SwitchTable.ReadsPieces (table : SwitchTable) (tailStart : Option Nat) :
    Nat → List Token → List Piece → Prop
  | done {index : Nat} : ReadsPieces table tailStart index [] []
  | option {index : Nat} {token : Token} {rest : List Token} {flags : List SwitchUse}
      {last : SwitchUse} {pieces : List Piece} (huses : table.ReadsUses token (flags ++ [last]))
      (hvalue : last.value? rest.head? = some none)
      (hrest : ReadsPieces table tailStart index rest pieces) :
      ReadsPieces table tailStart index (token :: rest) (.option token flags last none :: pieces)
  | optionWithValue {index : Nat} {token value : Token} {rest : List Token} {flags : List SwitchUse}
      {last : SwitchUse} {pieces : List Piece} (huses : table.ReadsUses token (flags ++ [last]))
      (hvalue : last.value? (some value) = some (some value))
      (hrest : ReadsPieces table tailStart index rest pieces) :
      ReadsPieces table tailStart index (token :: value :: rest)
        (.option token flags last (some value) :: pieces)
  | positional {index : Nat} {token : Token} {rest : List Token} {pieces : List Piece}
      (htoken : token.isOption = false) (hindex : tailStart ≠ some index)
      (hrest : ReadsPieces table tailStart (index + 1) rest pieces) :
      ReadsPieces table tailStart index (token :: rest) (.positional index token :: pieces)
  | tail {index : Nat} {token : Token} {rest : List Token} (htoken : token.isOption = false)
      (hindex : tailStart = some index) :
      ReadsPieces table tailStart index (token :: rest) [.tail (token :: rest)]

/-! ## One token -/

theorem splitEquals?_of_notMem {cs : List Char} (h : '=' ∉ cs) : splitEquals? cs = none := by
  have hdrop : cs.dropWhile (· != '=') = [] := by
    rw [List.dropWhile_eq_nil_iff]
    intro c hc
    simpa using ne_of_mem_of_not_mem hc h
  rw [splitEquals?, hdrop]

theorem splitEquals?_append {name value : List Char} (h : '=' ∉ name) :
    splitEquals? (name ++ '=' :: value) = some (name, value) := by
  have hname : ∀ c ∈ name, (c != '=') = true := fun c hc => by
    simpa using ne_of_mem_of_not_mem hc h
  rw [splitEquals?, List.dropWhile_append_of_pos hname, List.takeWhile_append_of_pos hname]
  simp

theorem splitEquals?_cases (cs : List Char) :
    ('=' ∉ cs ∧ splitEquals? cs = none) ∨
      ∃ name value, '=' ∉ name ∧ cs = name ++ '=' :: value ∧ splitEquals? cs = some (name, value) := by
  by_cases h : '=' ∈ cs
  · obtain ⟨name, value, rfl, hname⟩ := List.eq_append_cons_of_mem h
    exact Or.inr ⟨name, value, hname, rfl, splitEquals?_append hname⟩
  · exact Or.inl ⟨h, splitEquals?_of_notMem h⟩

/-- The switch takes no value, nor is one attached. -/
def SwitchUse.IsFlag (use : SwitchUse) : Prop := use.attached = none ∧ use.switch.arity = .none

namespace SwitchTable

variable {table : SwitchTable} {token : Token} {tailStart : Option Nat} {index : Nat}

theorem ReadsStack.flags {cs : List Char} {uses : List SwitchUse} (h : table.ReadsStack cs uses) :
    ∀ use ∈ uses.dropLast, use.IsFlag := by
  induction h with
  | done => simp
  | @flag c cs switch uses hc hswitch harity hrest ih =>
    cases uses with
    | nil => simp
    | cons use' uses =>
      intro use huse
      rcases List.mem_cons.1 huse with rfl | huse
      · exact ⟨rfl, harity⟩
      · exact ih use huse
  | bare => simp
  | attached => simp

theorem ReadsUses.flags {flags : List SwitchUse} {last : SwitchUse}
    (h : table.ReadsUses token (flags ++ [last])) : ∀ flag ∈ flags, flag.IsFlag := by
  have hdrop : ∀ uses, table.ReadsUses token uses → ∀ use ∈ uses.dropLast, use.IsFlag := by
    intro uses huses
    cases huses with
    | long => simp
    | stack _ _ _ hstack => exact hstack.flags
  simpa using hdrop _ h

theorem ReadsUses.ne_nil {uses : List SwitchUse} (h : table.ReadsUses token uses) : uses ≠ [] := by
  cases h with
  | long => exact List.cons_ne_nil _ _
  | stack _ _ _ hstack => cases hstack <;> exact List.cons_ne_nil _ _

theorem ReadsUses.isOption {uses : List SwitchUse} (h : table.ReadsUses token uses) :
    token.isOption := by
  cases h with
  | long hname htext => simp [Token.isOption, hname, htext]
  | stack hname htext => simp [Token.isOption, hname, htext]

/-- What a switch takes is the next token, which is not a name. -/
theorem taken_of_value? {use : SwitchUse} {next : Option Token} {value : Token}
    (h : use.value? next = some (some value)) :
    next = some value ∧ use.attached = none ∧ use.switch.arity ≠ .none ∧ value.isName = false := by
  unfold SwitchUse.value? at h
  cases hattached : use.attached with
  | some text => simp [hattached] at h
  | none =>
    cases harity : use.switch.arity with
    | none => simp [hattached, harity] at h
    | required =>
      obtain ⟨hnext, hname⟩ : next = some value ∧ value.isName = false := by
        simpa [hattached, harity, Option.map_eq_some_iff, Option.filter_eq_some_iff] using h
      exact ⟨hnext, rfl, by simp, hname⟩
    | optional =>
      obtain ⟨hnext, hsplit⟩ : next = some value ∧ value.isSplit := by
        simpa [hattached, harity, Option.filter_eq_some_iff] using h
      refine ⟨hnext, rfl, by simp, ?_⟩
      unfold Token.isSplit at hsplit
      unfold Token.isName
      cases hkind : value.kind <;> simp [hkind] at hsplit ⊢

/-! ## What a reading is -/


theorem ReadsLong.name_value {long : List Char} {use : SwitchUse} (h : table.ReadsLong long use) :
    ∃ name value switch, (name, value) = (match splitEquals? long with
        | some (name, value) => (name, some (String.ofList value))
        | none => (long, none)) ∧
      table.get? (String.ofList ('-' :: '-' :: name)) = some switch ∧
      use = ⟨String.ofList ('-' :: '-' :: name), switch, value⟩ := by
  cases h with
  | bare hname hswitch => exact ⟨_, _, _, by rw [splitEquals?_of_notMem hname], hswitch, rfl⟩
  | attached hname hswitch => exact ⟨_, _, _, by rw [splitEquals?_append hname], hswitch, rfl⟩

theorem ReadsLong.unique {long : List Char} {use use' : SwitchUse} (h : table.ReadsLong long use)
    (h' : table.ReadsLong long use') : use = use' := by
  obtain ⟨name, value, switch, hsplit, hswitch, rfl⟩ := h.name_value
  obtain ⟨name', value', switch', hsplit', hswitch', rfl⟩ := h'.name_value
  obtain ⟨rfl, rfl⟩ := Prod.mk.inj (hsplit.trans hsplit'.symm)
  obtain rfl := Option.some_injective _ (hswitch.symm.trans hswitch')
  rfl

theorem ReadsStack.unique {cs : List Char} {uses uses' : List SwitchUse}
    (h : table.ReadsStack cs uses) (h' : table.ReadsStack cs uses') : uses = uses' := by
  induction h generalizing uses' with
  | done =>
    cases h'
    rfl
  | flag hc hswitch harity hrest ih =>
    cases h' with
    | flag _ hswitch' _ hrest' =>
      obtain rfl := Option.some_injective _ (hswitch.symm.trans hswitch')
      rw [ih hrest']
    | bare _ hswitch' harity' =>
      obtain rfl := Option.some_injective _ (hswitch.symm.trans hswitch')
      exact absurd harity harity'
    | attached _ hswitch' harity' =>
      obtain rfl := Option.some_injective _ (hswitch.symm.trans hswitch')
      exact absurd harity harity'
  | bare hc hswitch harity hvalue =>
    cases h' with
    | flag _ hswitch' harity' =>
      obtain rfl := Option.some_injective _ (hswitch.symm.trans hswitch')
      exact absurd harity' harity
    | bare _ hswitch' harity' =>
      obtain rfl := Option.some_injective _ (hswitch.symm.trans hswitch')
      rfl
    | attached _ _ _ hvalue' => exact absurd hvalue hvalue'
  | attached hc hswitch harity hvalue =>
    cases h' with
    | flag _ hswitch' harity' =>
      obtain rfl := Option.some_injective _ (hswitch.symm.trans hswitch')
      exact absurd harity' harity
    | bare _ _ _ hvalue' => exact absurd hvalue' hvalue
    | attached _ hswitch' harity' =>
      obtain rfl := Option.some_injective _ (hswitch.symm.trans hswitch')
      rfl

theorem ReadsUses.unique {uses uses' : List SwitchUse} (h : table.ReadsUses token uses)
    (h' : table.ReadsUses token uses') : uses = uses' := by
  cases h with
  | long _ htext huse =>
    cases h' with
    | long _ htext' huse' =>
      obtain rfl := by simpa [htext] using htext'
      rw [huse.unique huse']
    | stack _ htext' hc =>
      obtain ⟨rfl, -⟩ := by simpa [htext] using htext'
      exact absurd rfl hc
  | stack _ htext hc huses =>
    cases h' with
    | long _ htext' =>
      obtain ⟨rfl, -⟩ := by simpa [htext] using htext'
      exact absurd rfl hc
    | stack _ htext' _ huses' =>
      obtain ⟨rfl, rfl⟩ := by simpa [htext] using htext'
      exact huses.unique huses'

theorem ReadsUses.last_unique {flags flags' : List SwitchUse} {last last' : SwitchUse}
    (h : table.ReadsUses token (flags ++ [last])) (h' : table.ReadsUses token (flags' ++ [last'])) :
    flags = flags' ∧ last = last' :=
  List.append_singleton_inj.1 (h.unique h')

namespace ReadsPieces

variable {tokens : List Token} {pieces pieces' : List Piece}

theorem tokens_eq (h : table.ReadsPieces tailStart index tokens pieces) :
    pieces.flatMap Piece.tokens = tokens := by
  induction h with
  | done => rfl
  | option _ _ _ ih => simp [Piece.tokens, ih]
  | optionWithValue _ _ _ ih => simp [Piece.tokens, ih]
  | positional _ _ _ ih => simp [Piece.tokens, ih]
  | tail => simp [Piece.tokens]

theorem unique (h : table.ReadsPieces tailStart index tokens pieces)
    (h' : table.ReadsPieces tailStart index tokens pieces') : pieces' = pieces := by
  induction h generalizing pieces' with
  | done =>
    cases h'
    rfl
  | option huses hvalue hrest ih =>
    cases h' with
    | option huses' _ hrest' =>
      obtain ⟨rfl, rfl⟩ := huses.last_unique huses'
      rw [ih hrest']
    | optionWithValue huses' hvalue' =>
      obtain ⟨rfl, rfl⟩ := huses.last_unique huses'
      rw [List.head?_cons, hvalue'] at hvalue
      simp at hvalue
    | positional htoken => simp [huses.isOption] at htoken
    | tail htoken => simp [huses.isOption] at htoken
  | optionWithValue huses hvalue hrest ih =>
    cases h' with
    | option huses' hvalue' =>
      obtain ⟨rfl, rfl⟩ := huses.last_unique huses'
      rw [List.head?_cons, hvalue] at hvalue'
      simp at hvalue'
    | optionWithValue huses' _ hrest' =>
      obtain ⟨rfl, rfl⟩ := huses.last_unique huses'
      rw [ih hrest']
    | positional htoken => simp [huses.isOption] at htoken
    | tail htoken => simp [huses.isOption] at htoken
  | positional htoken hindex hrest ih =>
    cases h' with
    | option huses => simp [huses.isOption] at htoken
    | optionWithValue huses => simp [huses.isOption] at htoken
    | positional _ _ hrest' => rw [ih hrest']
    | tail _ hindex' => exact absurd hindex' hindex
  | tail htoken hindex =>
    cases h' with
    | option huses => simp [huses.isOption] at htoken
    | optionWithValue huses => simp [huses.isOption] at htoken
    | positional _ hindex' => exact absurd hindex hindex'
    | tail => rfl

/-- What is found for positionals is what their tokens carry. -/
theorem positionalsOf_eq (h : table.ReadsPieces tailStart index tokens pieces) :
    positionalsOf pieces = (pieces.filterMap Piece.positional?).map Token.payload := by
  induction h with
  | done => rfl
  | option _ _ _ ih => simpa [List.filterMap_cons, Piece.positional?] using ih
  | optionWithValue _ _ _ ih => simpa [List.filterMap_cons, Piece.positional?] using ih
  | positional _ _ _ ih => simpa [List.filterMap_cons, Piece.positional?] using ih
  | tail => rfl

/-- A value is taken by a switch that takes one and has none attached, and is not a name. -/
theorem taken (h : table.ReadsPieces tailStart index tokens pieces) {flags : List SwitchUse}
    {last : SwitchUse} {value : Token} (hmem : .option token flags last (some value) ∈ pieces) :
    last.attached = none ∧ last.switch.arity ≠ .none ∧ value.isName = false := by
  induction h with
  | done => simp at hmem
  | option _ _ _ ih => exact ih (by simpa using hmem)
  | optionWithValue _ hvalue _ ih =>
    rcases List.mem_cons.1 hmem with heq | hmem
    · obtain ⟨rfl, rfl, rfl, rfl⟩ := by simpa using heq
      exact (taken_of_value? hvalue).2
    · exact ih hmem
  | positional _ _ _ ih => exact ih (by simpa using hmem)
  | tail => simp at hmem

theorem numbered (h : table.ReadsPieces tailStart index tokens pieces) :
    (pieces.flatMap Piece.occurrences).filterMap Occurrence.index? =
        List.range' index (positionalsOf pieces).length ∧
      ∀ start, tailStart = some start → index ≤ start →
        index + (positionalsOf pieces).length ≤ start := by
  induction h with
  | done => simp
  | option _ _ _ ih => simpa using ih
  | optionWithValue _ _ _ ih => simpa using ih
  | @positional index token rest pieces _ hindex _ ih =>
    obtain ⟨hrange, hbound⟩ := ih
    refine ⟨?_, fun start hstart hle => ?_⟩
    · simp [Piece.occurrences, Occurrence.index?, hrange, List.range'_succ]
    · have hlt : index < start := lt_of_le_of_ne hle fun heq => hindex (heq ▸ hstart)
      have := hbound start hstart hlt
      simp only [positionalsOf_positional, List.length_cons]
      omega
  | tail => simp [Piece.occurrences, Occurrence.index?]

/-- The tail is the last piece, and starts with the positional that has its number. -/
theorem tail_last (h : table.ReadsPieces tailStart index tokens pieces) {ts : List Token}
    (hmem : .tail ts ∈ pieces.flatMap Piece.occurrences) :
    ∃ before token, pieces = before ++ [.tail ts] ∧
      (∀ ts', .tail ts' ∉ before.flatMap Piece.occurrences) ∧
      tailStart = some (index + (positionalsOf pieces).length) ∧
      ts.head? = some token ∧ token.isOption = false := by
  induction h with
  | done => simp at hmem
  | option _ _ _ ih =>
    obtain ⟨before, token, rfl, hnone, hstart, hhead, htoken⟩ := ih (by simpa using hmem)
    exact ⟨_ :: before, token, rfl, by simpa using hnone, by simpa using hstart, hhead, htoken⟩
  | optionWithValue _ _ _ ih =>
    obtain ⟨before, token, rfl, hnone, hstart, hhead, htoken⟩ := ih (by simpa using hmem)
    exact ⟨_ :: before, token, rfl, by simpa using hnone, by simpa using hstart, hhead, htoken⟩
  | @positional index _ _ _ _ _ _ ih =>
    obtain ⟨before, token, rfl, hnone, hstart, hhead, htoken⟩ :=
      ih (by simpa [Piece.occurrences] using hmem)
    refine ⟨_ :: before, token, rfl, by simpa [Piece.occurrences] using hnone, ?_, hhead, htoken⟩
    rw [hstart, positionalsOf_positional, List.length_cons, Nat.add_right_comm, Nat.add_assoc]
  | @tail _ token rest htoken hindex =>
    obtain rfl := by simpa [Piece.occurrences] using hmem
    exact ⟨[], token, rfl, by simp, by simpa using hindex, rfl, htoken⟩

/-- A switch that takes nothing from the next token may stand at the end. -/
theorem value?_head?_of_append {use : SwitchUse} {first second : List Token}
    (h : use.value? (first ++ second).head? = some none) : use.value? first.head? = some none := by
  cases first with
  | nil =>
    unfold SwitchUse.value? at h ⊢
    cases hattached : use.attached with
    | some text => simp
    | none => cases harity : use.switch.arity <;> simp_all
  | cons token first => exact h

/-- The first pieces of a reading are the reading of their tokens, and so are the others. -/
theorem of_append {before after : List Piece}
    (h : table.ReadsPieces tailStart index tokens (before ++ after)) :
    table.ReadsPieces tailStart index (before.flatMap Piece.tokens) before ∧
      table.ReadsPieces tailStart (index + (positionalsOf before).length)
        (after.flatMap Piece.tokens) after := by
  induction before generalizing index tokens with
  | nil =>
    rw [List.nil_append] at h
    exact ⟨.done, by rw [h.tokens_eq]; exact h⟩
  | cons piece before ih =>
    rw [List.cons_append] at h
    generalize hpieces : before ++ after = pieces at h
    cases h with
    | @option _ _ rest flags last _ huses hvalue hrest =>
      subst hpieces
      obtain ⟨hbefore, hafter⟩ := ih hrest
      rw [← hrest.tokens_eq, List.flatMap_append] at hvalue
      exact ⟨.option huses (value?_head?_of_append hvalue) hbefore, by simpa using hafter⟩
    | optionWithValue huses hvalue hrest =>
      subst hpieces
      obtain ⟨hbefore, hafter⟩ := ih hrest
      exact ⟨.optionWithValue huses hvalue hbefore, by simpa using hafter⟩
    | positional htoken hindex hrest =>
      subst hpieces
      obtain ⟨hbefore, hafter⟩ := ih hrest
      refine ⟨.positional htoken hindex hbefore, ?_⟩
      rwa [positionalsOf_positional, List.length_cons, Nat.add_comm _ 1, ← Nat.add_assoc]
    | tail htoken hindex =>
      obtain ⟨rfl, rfl⟩ := List.append_eq_nil_iff.1 hpieces
      exact ⟨by simpa [Piece.tokens] using .tail htoken hindex, .done⟩

end ReadsPieces

end SwitchTable

end Synopsis
