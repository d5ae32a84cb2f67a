import Synopsis.Proofs.Lookahead

/-!
# The pieces of an argument list

An argument is one token, or a long option and the value attached to it. A value that is attached
goes to its option (`not_flag_before_split`), so a piece takes whole arguments, and a tail starts at
an argument (`arguments_of_tail`).
-/

namespace Synopsis

namespace Token

theorem classify_cases (argument : String) :
    classify argument = [⟨.positionalValue, argument⟩] ∨
      classify argument = [⟨.name, argument⟩] ∧ (⟨.name, argument⟩ : Token).isOption ∨
      ∃ name value, '=' ∉ name ∧ classify argument =
        [⟨.name, String.ofList ('-' :: '-' :: name)⟩, ⟨.namedValue, String.ofList value⟩] := by
  unfold classify
  split
  · next rest hrest =>
    split_ifs with hplain
    · exact Or.inl rfl
    cases rest with
    | nil => simp at hplain
    | cons c cs =>
      have hoption : (⟨.name, argument⟩ : Token).isOption := by simp [isOption, isName, hrest]
      split
      · next long heq =>
        rcases splitEquals?_cases long with ⟨-, hsplit⟩ | ⟨name, value, hname, -, hsplit⟩
        · rw [hsplit]
          exact Or.inr (Or.inl ⟨rfl, hoption⟩)
        · rw [hsplit]
          exact Or.inr (Or.inr ⟨name, value, hname, rfl⟩)
      · exact Or.inr (Or.inl ⟨rfl, hoption⟩)
  · exact Or.inl rfl

theorem isOption_long (name : List Char) :
    (⟨.name, String.ofList ('-' :: '-' :: name)⟩ : Token).isOption := by
  simp [isOption, isName]

theorem isOption_of_not_isName {token : Token} (h : token.isName = false) :
    token.isOption = false := by
  simp [isOption, h]

@[simp] theorem classifyAll_nil : classifyAll [] = [] := rfl

@[simp] theorem classifyAll_cons (argument : String) (arguments : List String) :
    classifyAll (argument :: arguments) = classify argument ++ classifyAll arguments := by
  simp [classifyAll]

theorem classifyAll_eq_nil {arguments : List String} (h : classifyAll arguments = []) :
    arguments = [] := by
  cases arguments with
  | nil => rfl
  | cons argument arguments =>
    rw [classifyAll_cons] at h
    rcases classify_cases argument with heq | ⟨heq, -⟩ | ⟨name, value, -, heq⟩ <;> simp [heq] at h

theorem classifyAll_append (first second : List String) :
    classifyAll (first ++ second) = classifyAll first ++ classifyAll second :=
  List.flatMap_append

theorem payload_of_mem_classifyAll {arguments : List String} {token : Token}
    (h : token ∈ classifyAll arguments) : token.payload = .text token.text := by
  obtain ⟨argument, -, hmem⟩ := List.mem_flatMap.1 h
  unfold payload
  rw [if_neg]
  rcases classify_cases argument with heq | ⟨heq, -⟩ | ⟨name, value, -, heq⟩
  · rw [heq, List.mem_singleton] at hmem
    simp [hmem]
  · rw [heq, List.mem_singleton] at hmem
    simp [hmem]
  · rw [heq] at hmem
    rcases List.mem_pair.1 hmem with rfl | rfl <;> simp

/-- A first token that is not spelled as an option is a plain argument. -/
theorem plain_of_not_isOption {arguments : List String} {value : Token} {rest : List Token}
    (h : classifyAll arguments = value :: rest) (hvalue : value.isOption = false) :
    ∃ argument arguments', arguments = argument :: arguments' ∧
      classify argument = [⟨.positionalValue, argument⟩] ∧ value = ⟨.positionalValue, argument⟩ ∧
      rest = classifyAll arguments' := by
  cases arguments with
  | nil => simp at h
  | cons argument arguments =>
    rw [classifyAll_cons] at h
    rcases classify_cases argument with heq | ⟨heq, hoption⟩ | ⟨name, text, -, heq⟩
    · rw [heq] at h
      obtain ⟨rfl, rfl⟩ := List.cons.inj h
      exact ⟨argument, arguments, rfl, heq, rfl, rfl⟩
    · rw [heq] at h
      obtain ⟨rfl, -⟩ := List.cons.inj h
      exact absurd (hoption.symm.trans hvalue) (by decide)
    · rw [heq] at h
      obtain ⟨rfl, -⟩ := List.cons.inj h
      exact absurd ((isOption_long name).symm.trans hvalue) (by decide)

/-- The tokens of arguments do not start with a value that is split. -/
theorem not_isSplit_head? (arguments : List String) :
    ¬(classifyAll arguments).head?.any isSplit := by
  cases arguments with
  | nil => simp
  | cons argument arguments =>
    rcases classify_cases argument with heq | ⟨heq, -⟩ | ⟨name, value, -, heq⟩ <;>
      simp [heq, isSplit]

end Token

namespace SwitchTable

variable {table : SwitchTable} {tailStart : Option Nat} {index : Nat} {rest : List Token}
  {pieces : List Piece}

theorem ReadsUses.bare_of_long {token : Token} {name : List Char} {uses : List SwitchUse}
    (hname : '=' ∉ name) (htext : token.text.toList = '-' :: '-' :: name)
    (h : table.ReadsUses token uses) :
    ∃ switch, table.get? (String.ofList ('-' :: '-' :: name)) = some switch ∧
      uses = [⟨String.ofList ('-' :: '-' :: name), switch, none⟩] := by
  cases h with
  | long _ htext' huse =>
    obtain rfl := by simpa [htext] using htext'
    cases huse with
    | bare _ hswitch => exact ⟨_, hswitch, rfl⟩
    | attached => simp at hname
  | stack _ htext' hc =>
    obtain ⟨rfl, -⟩ := by simpa [htext] using htext'
    exact absurd rfl hc

/-- A switch with nothing attached takes a value that is split, or may not stand before it. -/
theorem value?_of_split {use : SwitchUse} {value : Token} (hattached : use.attached = none)
    (hvalue : value.isSplit) : use.value? (some value) ≠ some none := by
  have hname : value.isName = false := by
    unfold Token.isSplit at hvalue
    unfold Token.isName
    cases hkind : value.kind <;> simp [hkind] at hvalue ⊢
  cases harity : use.switch.arity <;>
    simp [SwitchUse.value?, hattached, harity, hvalue, hname, Option.filter]

theorem ReadsPieces.of_attached {name value : List Char} (hname : '=' ∉ name)
    (h : table.ReadsPieces tailStart index
      (⟨.name, String.ofList ('-' :: '-' :: name)⟩ :: ⟨.namedValue, String.ofList value⟩ :: rest)
      pieces) :
    ∃ flags last pieces', pieces =
        .option ⟨.name, String.ofList ('-' :: '-' :: name)⟩ flags last
          (some ⟨.namedValue, String.ofList value⟩) :: pieces' ∧
      table.ReadsPieces tailStart index rest pieces' := by
  have hoption := Token.isOption_long name
  cases h with
  | @option _ _ _ flags last _ huses hvalue hrest =>
    obtain ⟨switch, -, heq⟩ := huses.bare_of_long hname (by simp)
    obtain ⟨-, rfl⟩ : flags = [] ∧ last = _ := by simpa [List.append_eq_cons_iff] using heq
    exact absurd hvalue (value?_of_split rfl (by simp [Token.isSplit]))
  | optionWithValue _ _ hrest => exact ⟨_, _, _, rfl, hrest⟩
  | positional htoken => exact absurd (hoption.symm.trans htoken) (by decide)
  | tail htoken => exact absurd (hoption.symm.trans htoken) (by decide)

theorem ReadsPieces.of_plain {argument : String}
    (h : table.ReadsPieces tailStart index (⟨.positionalValue, argument⟩ :: rest) pieces) :
    pieces = [.tail (⟨.positionalValue, argument⟩ :: rest)] ∨
      ∃ pieces', pieces = .positional index ⟨.positionalValue, argument⟩ :: pieces' ∧
        table.ReadsPieces tailStart (index + 1) rest pieces' := by
  cases h with
  | option huses => exact absurd huses.isOption (by simp [Token.isOption, Token.isName])
  | optionWithValue huses => exact absurd huses.isOption (by simp [Token.isOption, Token.isName])
  | positional _ _ hrest => exact Or.inr ⟨_, rfl, hrest⟩
  | tail => exact Or.inl rfl

theorem ReadsPieces.of_option {token : Token} {arguments : List String} (htoken : token.isOption)
    (h : table.ReadsPieces tailStart index (token :: Token.classifyAll arguments) pieces) :
    ∃ flags last pieces',
      pieces = .option token flags last none :: pieces' ∧
          table.ReadsPieces tailStart index (Token.classifyAll arguments) pieces' ∨
        ∃ argument arguments', arguments = argument :: arguments' ∧
          Token.classify argument = [⟨.positionalValue, argument⟩] ∧
          pieces = .option token flags last (some ⟨.positionalValue, argument⟩) :: pieces' ∧
          table.ReadsPieces tailStart index (Token.classifyAll arguments') pieces' := by
  generalize htokens : Token.classifyAll arguments = tokens at h
  cases h with
  | option _ _ hrest =>
    subst htokens
    exact ⟨_, _, _, Or.inl ⟨rfl, hrest⟩⟩
  | optionWithValue _ hvalue hrest =>
    obtain ⟨argument, arguments, rfl, hplain, rfl, rfl⟩ :=
      Token.plain_of_not_isOption htokens
        (Token.isOption_of_not_isName (taken_of_value? hvalue).2.2.2)
    exact ⟨_, _, _, Or.inr ⟨argument, arguments, rfl, hplain, rfl, hrest⟩⟩
  | positional hnot => simp [htoken] at hnot
  | tail hnot => simp [htoken] at hnot

/-- **A piece takes whole arguments.** -/
theorem ReadsPieces.groups {arguments : List String}
    (h : table.ReadsPieces tailStart index (Token.classifyAll arguments) pieces) :
    ∃ groups : List (List String), groups.flatten = arguments ∧
      List.Forall₂ (fun piece group => piece.tokens = Token.classifyAll group) pieces groups := by
  induction hlength : arguments.length using Nat.strong_induction_on
    generalizing arguments index pieces with
  | h n ih =>
    subst hlength
    cases arguments with
    | nil =>
      cases h
      exact ⟨[], rfl, .nil⟩
    | cons argument arguments =>
      rw [Token.classifyAll_cons] at h
      rcases Token.classify_cases argument with heq | ⟨heq, hoption⟩ | ⟨name, value, hname, heq⟩
      · rw [heq] at h
        rcases h.of_plain with rfl | ⟨pieces, rfl, hrest⟩
        · exact ⟨[argument :: arguments], by simp, .cons (by simp [heq, Piece.tokens]) .nil⟩
        · obtain ⟨groups, rfl, hgroups⟩ := ih _ (by simp) hrest rfl
          exact ⟨[argument] :: groups, rfl, .cons (by simp [heq, Piece.tokens]) hgroups⟩
      · rw [heq] at h
        obtain ⟨flags, last, pieces, ⟨rfl, hrest⟩ | ⟨value, arguments, rfl, hvalue, rfl, hrest⟩⟩ :=
          h.of_option hoption
        · obtain ⟨groups, rfl, hgroups⟩ := ih _ (by simp) hrest rfl
          exact ⟨[argument] :: groups, rfl, .cons (by simp [heq, Piece.tokens]) hgroups⟩
        · obtain ⟨groups, rfl, hgroups⟩ := ih _ (by simp) hrest rfl
          exact ⟨[argument, value] :: groups, rfl, .cons (by simp [heq, hvalue, Piece.tokens]) hgroups⟩
      · rw [heq] at h
        obtain ⟨flags, last, pieces, rfl, hrest⟩ := h.of_attached hname
        obtain ⟨groups, rfl, hgroups⟩ := ih _ (by simp) hrest rfl
        exact ⟨[argument] :: groups, rfl, .cons (by simp [heq, Piece.tokens]) hgroups⟩

theorem flatMap_tokens_of_groups {groups : List (List String)}
    (h : List.Forall₂ (fun piece group => piece.tokens = Token.classifyAll group) pieces groups) :
    pieces.flatMap Piece.tokens = Token.classifyAll groups.flatten := by
  induction h with
  | nil => rfl
  | cons hpiece _ ih =>
    rw [List.flatMap_cons, hpiece, ih, List.flatten_cons, Token.classifyAll_append]

/-- **A tail starts at a plain argument**, and takes all arguments from there. -/
theorem ReadsPieces.arguments_of_tail {arguments : List String} {before : List Piece}
    {ts : List Token}
    (h : table.ReadsPieces tailStart index (Token.classifyAll arguments) (before ++ [.tail ts])) :
    ∃ pre first post, arguments = pre ++ first :: post ∧
      Token.classify first = [⟨.positionalValue, first⟩] ∧
      before.flatMap Piece.tokens = Token.classifyAll pre ∧
      ts = Token.classifyAll (first :: post) := by
  have hmem : .tail ts ∈ (before ++ [Piece.tail ts]).flatMap Piece.occurrences := by
    simp [Piece.occurrences]
  obtain ⟨_, token, -, -, -, hhead, htoken⟩ := h.tail_last hmem
  obtain ⟨groups, rfl, hgroups⟩ := h.groups
  have hbefore := List.forall₂_take_append _ _ _ hgroups.flip
  obtain ⟨last, hlast⟩ : ∃ last, groups.drop before.length = [last] ∧
      ts = Token.classifyAll last := by
    have hdrop := List.forall₂_drop_append _ _ _ hgroups.flip
    generalize groups.drop before.length = rest at hdrop
    cases hdrop with
    | cons htail hnil =>
      cases hnil
      exact ⟨_, rfl, htail⟩
  obtain ⟨hdrop, rfl⟩ := hlast
  obtain ⟨rest, hrest⟩ := List.head?_eq_some_iff.1 hhead
  obtain ⟨first, post, rfl, hfirst, -, -⟩ := Token.plain_of_not_isOption hrest htoken
  refine ⟨(groups.take before.length).flatten, first, post, ?_, hfirst,
    flatMap_tokens_of_groups hbefore.flip, rfl⟩
  calc groups.flatten
      = (groups.take before.length).flatten ++ (groups.drop before.length).flatten := by
        rw [← List.flatten_append, List.take_append_drop]
    _ = (groups.take before.length).flatten ++ first :: post := by rw [hdrop, List.flatten_singleton]

end SwitchTable

end Synopsis
