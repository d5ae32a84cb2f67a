import Synopsis.Proofs.Interchangeable
import Synopsis.Proofs.Polarities

/-!
# Switches on a plain command line

**Theorem (`Usage.reached_of_compile`).** Every spelling in the table of a compiled usage is read, as
an argument of its own, as the one occurrence that the table says, and so is every stack of switches
without a value. The exception is a *negative decimal*, which is a plain value. Of the spellings
these are the digits after a hyphen.

**Words.** The classifier also takes a hyphen and `inf`, `infinity` or `nan` for a number. Such an
argument is no negative number, and may be a switch that is declared. The theorem leaves it out.

Which of the two an argument is, if any, is decided by the characters that an option starts with
(`Token.isNumber_iff`).
-/

namespace Synopsis

/-! ## Texts that are numbers -/

section Numbers

variable {c : Char} {cs : List Char}

/-- The texts without a digit that stand for a number, in lower case. -/
def numberWords : List String := ["inf", "infinity", "nan"]

theorem ne_of_isAlpha {d : Char} (h : c.isAlpha) (hd : ¬d.isAlpha) : c ≠ d := by
  rintro rfl
  exact hd h

theorem decimal?_of_head (hdigit : ¬c.isDigit) (hpoint : c ≠ '.') : decimal? (c :: cs) = none := by
  have hwhole : (c :: cs).takeWhile Char.isDigit = [] := by simp [hdigit]
  have hafter : (c :: cs).dropWhile Char.isDigit = c :: cs := by simp [hdigit]
  simp [decimal?, hwhole, hafter, hpoint, natural?]

theorem isSome_decimal?_of_digits (hne : cs ≠ []) (hcs : ∀ c ∈ cs, c.isDigit) :
    (decimal? cs).isSome := by
  have hwhole : cs.takeWhile Char.isDigit = cs := List.takeWhile_eq_self_iff.2 hcs
  have hafter : cs.dropWhile Char.isDigit = [] := List.dropWhile_eq_nil_iff.2 hcs
  have hnatural : natural? cs = some (Nat.ofDigitChars 10 cs 0) := by
    simp [natural?, hne, List.all_eq_true.2 hcs]
  simp [decimal?, hwhole, hafter, hnatural]

/-- A number without a sign is a word or a decimal. -/
theorem isSome_magnitude?_iff (cs : List Char) :
    (magnitude? cs).isSome ↔
      String.ofList (cs.map Char.toLower) ∈ numberWords ∨ (decimal? cs).isSome := by
  simp only [magnitude?, numberWords]
  split_ifs <;> grind

theorem readFloat?_of_head (hhyphen : c ≠ '-') (hplus : c ≠ '+') :
    readFloat? (String.ofList (c :: cs)) = magnitude? (c :: cs) := by
  unfold readFloat?
  rw [String.toList_ofList]
  split
  · next heq => exact absurd (List.cons.inj heq).1 hhyphen
  · next heq => exact absurd (List.cons.inj heq).1 hplus
  · rfl

theorem isSome_readFloat?_hyphen (cs : List Char) :
    (readFloat? (String.ofList ('-' :: cs))).isSome = (magnitude? cs).isSome := by
  unfold readFloat?
  rw [String.toList_ofList]
  simp

theorem isSome_readFloat?_of_decimal (h : (decimal? cs).isSome) :
    (readFloat? (String.ofList cs)).isSome := by
  cases cs with
  | nil => exact absurd h (by decide)
  | cons c cs =>
    have hsign (d : Char) (hdigit : ¬d.isDigit) (hpoint : d ≠ '.') : c ≠ d := by
      rintro rfl
      simp [decimal?_of_head hdigit hpoint] at h
    rw [readFloat?_of_head (hsign '-' (by decide) (by decide)) (hsign '+' (by decide) (by decide))]
    exact (isSome_magnitude?_iff _).2 (Or.inr h)

end Numbers

/-! ## Arguments -/

namespace Token

variable {argument : String} {c : Char} {cs : List Char}

/-- The argument is a hyphen and a text that is read as a number. -/
def isNumber (argument : String) : Bool :=
  match argument.toList with
  | '-' :: number => (readFloat? (String.ofList number)).isSome
  | _ => false

/-- The argument is a negative decimal: a hyphen and digits, with a fraction and an exponent or
without. -/
def isNegativeDecimal (argument : String) : Bool :=
  match argument.toList with
  | '-' :: number => (decimal? number).isSome
  | _ => false

/-- The argument is one of the words after a hyphen or two, in any case. -/
def isNumberWord (argument : String) : Bool :=
  match argument.toList with
  | '-' :: '-' :: word => String.ofList (word.map Char.toLower) ∈ numberWords
  | '-' :: word => String.ofList (word.map Char.toLower) ∈ numberWords
  | _ => false

/-- Characters that an option starts with: a letter or a digit after a hyphen, or a letter after
two. -/
inductive StartsOption : List Char → Prop
  | short {c : Char} {cs : List Char} (hc : c.isAlphanum) : StartsOption ('-' :: c :: cs)
  | long {c : Char} {cs : List Char} (hc : c.isAlpha) : StartsOption ('-' :: '-' :: c :: cs)

theorem isNumber_of_toList (h : argument.toList = '-' :: cs) :
    isNumber argument = (readFloat? (String.ofList cs)).isSome := by
  simp only [isNumber, h]

theorem isNegativeDecimal_of_toList (h : argument.toList = '-' :: cs) :
    isNegativeDecimal argument = (decimal? cs).isSome := by
  simp only [isNegativeDecimal, h]

/-- **An option that is taken for a number is a negative decimal or one of the words.** -/
theorem isNumber_iff (h : StartsOption argument.toList) :
    isNumber argument ↔ isNegativeDecimal argument ∨ isNumberWord argument := by
  generalize hlist : argument.toList = list at h
  cases h with
  | @short c cs hc =>
    have hhyphen : c ≠ '-' := (ne_of_isAlphanum hc).1
    have hplus : c ≠ '+' := by
      rintro rfl
      exact absurd hc (by decide)
    rw [isNumber_of_toList hlist, isNegativeDecimal_of_toList hlist,
      readFloat?_of_head hhyphen hplus, isSome_magnitude?_iff, or_comm]
    simp [isNumberWord, hlist, hhyphen]
  | @long c cs hc =>
    have hnone : decimal? ('-' :: c :: cs) = none := decimal?_of_head (by decide) (by decide)
    have hnone' : decimal? (c :: cs) = none :=
      decimal?_of_head (not_isDigit_of_isAlpha hc) (ne_of_isAlpha hc (by decide))
    rw [isNumber_of_toList hlist, isNegativeDecimal_of_toList hlist, isSome_readFloat?_hyphen,
      isSome_magnitude?_iff, hnone, hnone']
    simp [isNumberWord, hlist]

theorem not_isNumber (h : StartsOption argument.toList) (hdecimal : ¬isNegativeDecimal argument)
    (hword : ¬isNumberWord argument) : ¬isNumber argument := by
  rw [isNumber_iff h]
  exact not_or.2 ⟨hdecimal, hword⟩

theorem classify_of_isNumber (h : isNumber argument) :
    classify argument = [⟨.positionalValue, argument⟩] := by
  unfold isNumber at h
  split at h
  · next number hlist =>
    unfold classify
    rw [hlist]
    simp only [h, Bool.or_true, if_true]
  · simp at h

theorem classify_of_isNegativeDecimal (h : isNegativeDecimal argument) :
    classify argument = [⟨.positionalValue, argument⟩] := by
  apply classify_of_isNumber
  unfold isNegativeDecimal at h
  split at h
  · next number hlist =>
    rw [isNumber_of_toList hlist]
    exact isSome_readFloat?_of_decimal h
  · simp at h

theorem classify_of_head?_ne (h : argument.toList.head? ≠ some '-') :
    classify argument = [⟨.positionalValue, argument⟩] := by
  unfold classify
  split
  · next rest heq => simp [heq] at h
  · rfl

theorem classify_short (hlist : argument.toList = '-' :: c :: cs) (hc : c ≠ '-')
    (h : ¬isNumber argument) : classify argument = [⟨.name, argument⟩] := by
  rw [isNumber_of_toList hlist] at h
  unfold classify
  rw [hlist]
  simp only [h, List.isEmpty_cons, Bool.or_self, Bool.false_eq_true, if_false]
  split
  · next heq => exact absurd (List.cons.inj heq).1 hc
  · rfl

theorem classify_long (hlist : argument.toList = '-' :: '-' :: cs) (hcs : '=' ∉ cs)
    (h : ¬isNumber argument) : classify argument = [⟨.name, argument⟩] := by
  rw [isNumber_of_toList hlist] at h
  unfold classify
  rw [hlist]
  simp only [h, List.isEmpty_cons, Bool.or_self, Bool.false_eq_true, if_false,
    splitEquals?_of_notMem hcs]

/-- An argument spelled as an option is no plain value, unless it is taken for a number. -/
theorem kind_ne_of_mem_classify (hoption : (⟨.name, argument⟩ : Token).isOption)
    (h : ¬isNumber argument) : ∀ token ∈ classify argument, token.kind ≠ .positionalValue := by
  obtain ⟨c, cs, hlist⟩ : ∃ c cs, argument.toList = '-' :: c :: cs := by
    simp only [isOption, isName, decide_true, Bool.true_or, Bool.true_and] at hoption
    split at hoption
    · next c cs heq => exact ⟨c, cs, heq⟩
    · simp at hoption
  by_cases hc : c = '-'
  · subst hc
    rcases splitEquals?_cases cs with ⟨hcs, -⟩ | ⟨name, value, hname, rfl, hsplit⟩
    · simp [classify_long hlist hcs h]
    · rw [isNumber_of_toList hlist] at h
      unfold classify
      rw [hlist]
      simp only [h, List.isEmpty_cons, Bool.or_self, Bool.false_eq_true, if_false, hsplit]
      simp
  · simp [classify_short hlist hc h]

end Token

/-! ## Spellings -/

section Spellings

variable {spelling : String} {c : Char}

theorem toLower_of_kebab (h : c.isLower ∨ c.isDigit ∨ c = '-') : c.toLower = c := by
  apply Char.toLower_eq_of_not_isUpper
  rcases h with hlower | hdigit | rfl
  · simpa using Char.not_isUpper_of_isLower hlower
  · intro hupper
    exact not_isDigit_of_isAlpha (by simp [Char.isAlpha, hupper]) hdigit
  · decide

theorem mem_of_isNumberWord_long (h : isLongSpelling spelling)
    (hword : Token.isNumberWord spelling) : spelling ∈ ["--inf", "--infinity", "--nan"] := by
  obtain ⟨c, cs, hlist, hc, hcs⟩ := isLongSpelling_iff.1 h
  have hkebab : ∀ d ∈ c :: cs, d.toLower = d := by
    intro d hd
    rcases List.mem_cons.1 hd with rfl | hd
    · exact toLower_of_kebab (Or.inl hc)
    · exact toLower_of_kebab (isLower_or_isDigit_of_isKebabRest hcs d hd)
  have hmem : String.ofList (c :: cs) ∈ numberWords := by
    simpa [Token.isNumberWord, hlist, List.map_congr_left hkebab, hkebab c] using hword
  have hspelling : spelling = "--" ++ String.ofList (c :: cs) := by
    rw [← String.toList_inj, hlist]
    simp
  rw [hspelling]
  exact (List.mem_map_of_mem hmem : _ ∈ numberWords.map ("--" ++ ·))

theorem not_isNegativeDecimal_long (h : isLongSpelling spelling) :
    ¬Token.isNegativeDecimal spelling := by
  obtain ⟨c, cs, hlist, -⟩ := isLongSpelling_iff.1 h
  rw [Token.isNegativeDecimal_of_toList hlist, decimal?_of_head (by decide) (by decide)]
  decide

/-- A short spelling is a negative decimal exactly if it is a digit after its hyphen. -/
theorem isNegativeDecimal_short_iff (hlist : spelling.toList = ['-', c]) (hc : c.isAlphanum) :
    Token.isNegativeDecimal spelling ↔ c.isDigit := by
  rw [Token.isNegativeDecimal_of_toList hlist]
  constructor
  · intro hdecimal
    by_contra hdigit
    have hpoint : c ≠ '.' := by
      rintro rfl
      exact absurd hc (by decide)
    simp [decimal?_of_head hdigit hpoint] at hdecimal
  · intro hdigit
    exact isSome_decimal?_of_digits (by simp) (by simpa using hdigit)

theorem not_isNumberWord_short (hlist : spelling.toList = ['-', c]) (hc : c.isAlphanum) :
    ¬Token.isNumberWord spelling := by
  have hlength : ∀ word ∈ numberWords, word.toList.length ≠ 1 := by decide
  intro hword
  have hmem : String.ofList [c.toLower] ∈ numberWords := by
    simpa [Token.isNumberWord, hlist, (ne_of_isAlphanum hc).1] using hword
  exact hlength _ hmem (by simp)

theorem startsOption_of_spelling (h : isLongSpelling spelling ∨ isShortSpelling spelling) :
    Token.StartsOption spelling.toList := by
  rcases h with hlong | hshort
  · obtain ⟨c, cs, hlist, hc, -⟩ := isLongSpelling_iff.1 hlong
    rw [hlist]
    exact .long (by simp [Char.isAlpha, hc])
  · obtain ⟨c, hlist, hc⟩ := isShortSpelling_iff.1 hshort
    rw [hlist]
    exact .short hc

/-- A spelling that is not taken for a number is a name. -/
theorem Token.classify_spelling (h : isLongSpelling spelling ∨ isShortSpelling spelling)
    (hnumber : ¬isNumber spelling) : classify spelling = [⟨.name, spelling⟩] := by
  rcases h with hlong | hshort
  · obtain ⟨c, cs, hlist, -⟩ := isLongSpelling_iff.1 hlong
    have hequals := equals_notMem_of_spelling (Or.inl hlong)
    rw [hlist] at hequals
    exact classify_long hlist (by simpa using hequals) hnumber
  · obtain ⟨c, hlist, hc⟩ := isShortSpelling_iff.1 hshort
    exact classify_short hlist (ne_of_isAlphanum hc).1 hnumber

end Spellings

namespace SwitchTable

variable {table : SwitchTable} {tailStart : Option Nat} {spelling : String} {switch : Switch}
  {rest : List Token}

theorem scan_spelling (h : isLongSpelling spelling ∨ isShortSpelling spelling)
    (hget : table.get? spelling = some switch) :
    table.scan tailStart (⟨.name, spelling⟩ :: rest) =
      (table.scanFrom tailStart (SwitchUse.next ⟨spelling, switch, none⟩) 0 rest).after
        (SwitchUse.found ⟨spelling, switch, none⟩) := by
  rcases h with hlong | hshort
  · obtain ⟨c, cs, hlist, -⟩ := isLongSpelling_iff.1 hlong
    obtain rfl : spelling = String.ofList ('-' :: '-' :: c :: cs) := by
      rw [← hlist, String.ofList_toList]
    have hequals := equals_notMem_of_spelling (Or.inl hlong)
    rw [hlist] at hequals
    exact scanFrom_long_bare (by simpa using hequals) hget
  · obtain ⟨c, hlist, hc⟩ := isShortSpelling_iff.1 hshort
    obtain rfl : spelling = String.ofList ['-', c] := by rw [← hlist, String.ofList_toList]
    obtain ⟨hhyphen, hequals⟩ := ne_of_isAlphanum hc
    exact scanFrom_of_options (readToken_short_bare hhyphen hequals hget)

theorem scan_spelling_alone (h : isLongSpelling spelling ∨ isShortSpelling spelling)
    (hget : table.get? spelling = some switch) (harity : switch.arity ≠ .required) :
    table.scan tailStart [⟨.name, spelling⟩] =
      ⟨[.named switch.key spelling (.implied (switch.implied.getD true))], none⟩ := by
  rw [scan_spelling h hget]
  cases hcase : switch.arity with
  | none => simp [SwitchUse.next, SwitchUse.found, hcase, scanFrom, finishScan, Scan.after,
      SwitchUse.occurrence, SwitchUse.payload]
  | required => exact absurd hcase harity
  | optional => simp [SwitchUse.next, SwitchUse.found, hcase, scanFrom, finishScan, Scan.after]

theorem scan_spelling_value (h : isLongSpelling spelling ∨ isShortSpelling spelling)
    (hget : table.get? spelling = some switch) (harity : switch.arity = .required)
    (value : String) :
    table.scan tailStart [⟨.name, spelling⟩, ⟨.positionalValue, value⟩] =
      ⟨[.named switch.key spelling (.text value)], none⟩ := by
  rw [scan_spelling h hget]
  simp only [SwitchUse.next, SwitchUse.found, harity, Option.isSome_none, Bool.false_eq_true,
    if_false, reduceCtorEq, or_self]
  rw [scanFrom_value rfl]
  simp [scanFrom, finishScan, Scan.after, Token.payload]

/-! ## Stacks of flags -/

section Stacks

variable {cs : List Char} {switches : Char → Switch}

/-- The switch of a letter or digit in a stack, when it takes no value. -/
def flagUse (switches : Char → Switch) (c : Char) : SwitchUse :=
  ⟨String.ofList ['-', c], switches c, none⟩

theorem readsStack_of_flags
    (h : ∀ c ∈ cs, c ≠ '=' ∧ table.get? (String.ofList ['-', c]) = some (switches c) ∧
      (switches c).arity = .none) :
    table.ReadsStack cs (cs.map (flagUse switches)) := by
  induction cs with
  | nil => exact .done
  | cons c cs ih =>
    obtain ⟨hequals, hget, harity⟩ := h c (by simp)
    exact .flag hequals hget harity (ih fun d hd => h d (List.mem_cons_of_mem c hd))

/-- After flags an option is expected. -/
theorem nextAfter_of_flags {uses : List SwitchUse} (h : ∀ use ∈ uses, use.IsFlag)
    (previous : Option String) : ∃ last, nextAfter previous uses = .option last := by
  induction uses generalizing previous with
  | nil => exact ⟨previous, rfl⟩
  | cons use uses ih =>
    rw [nextAfter_cons previous (h use (by simp))]
    exact ih (fun use' huse' => h use' (List.mem_cons_of_mem use huse')) _

/-- **A stack of flags is one occurrence for each character.** -/
theorem scan_flags (hne : cs ≠ [])
    (h : ∀ c ∈ cs, c.isAlphanum ∧ table.get? (String.ofList ['-', c]) = some (switches c) ∧
      (switches c).arity = .none) :
    table.scan tailStart [Token.short cs] =
      ⟨cs.map fun c => .named (switches c).key (String.ofList ['-', c])
        (.implied ((switches c).implied.getD true)), none⟩ := by
  have hflags : ∀ use ∈ cs.map (flagUse switches), use.IsFlag := by
    intro use huse
    obtain ⟨c, hc, rfl⟩ := List.mem_map.1 huse
    exact ⟨rfl, (h c hc).2.2⟩
  obtain ⟨last, hlast⟩ := nextAfter_of_flags hflags none
  have hread : table.readToken (.option none) (Token.short cs) =
      .ok (.options ((cs.map (flagUse switches)).flatMap SwitchUse.found) (.option last)) := by
    obtain ⟨c, cs, rfl⟩ := List.exists_cons_of_ne_nil hne
    rw [readToken_short (ne_of_isAlphanum (h c (by simp)).1).1, readStack_ok_iff, ← hlast]
    exact ⟨_, readsStack_of_flags fun c hc => ⟨(ne_of_isAlphanum (h c hc).1).2, (h c hc).2⟩, rfl⟩
  rw [scan, scanFrom_of_options hread, List.flatMap_congr fun use huse => (hflags use huse).found,
    ← List.map_eq_flatMap, List.map_map]
  simp only [scanFrom, finishScan, Scan.after, List.append_nil]
  rfl

end Stacks

end SwitchTable

/-! ## The theorem -/

namespace Usage

variable {text : String} {r r' : Registry} {u : Usage} {spelling : String} {switch : Switch}

theorem long_or_short_of_get? (h : compile text r = .ok u r')
    (hget : u.switches.get? spelling = some switch) :
    isLongSpelling spelling ∨ isShortSpelling spelling := by
  obtain ⟨o, ho, hmem, -⟩ := listed_of_get? h hget
  exact (lists_of_compile h ho spelling hmem).1

theorem isAlphanum_of_get? (h : compile text r = .ok u r') {c : Char}
    (hget : u.switches.get? (String.ofList ['-', c]) = some switch) : c.isAlphanum := by
  rcases long_or_short_of_get? h hget with hlong | hshort
  · obtain ⟨d, ds, hlist, -⟩ := isLongSpelling_iff.1 hlong
    simp at hlist
  · obtain ⟨d, hlist, hd⟩ := isShortSpelling_iff.1 hshort
    obtain rfl : c = d := by simpa using hlist
    exact hd

/-- What spells switches of a compiled usage starts as an option does. -/
theorem startsOption_of_uses (h : compile text r = .ok u r') {argument : String}
    {uses : List SwitchUse} (huses : u.switches.ReadsUses ⟨.name, argument⟩ uses) :
    Token.StartsOption argument.toList := by
  have hshort {c : Char} {cs : List Char} {switch : Switch}
      (hget : u.switches.get? (String.ofList ['-', c]) = some switch) :
      Token.StartsOption ('-' :: c :: cs) := .short (isAlphanum_of_get? h hget)
  have hlong {name : List Char} (rest : List Char) {switch : Switch}
      (hget : u.switches.get? (String.ofList ('-' :: '-' :: name)) = some switch) :
      Token.StartsOption ('-' :: '-' :: (name ++ rest)) := by
    rcases long_or_short_of_get? h hget with hvalid | hvalid
    · obtain ⟨c, cs, hlist, hc, -⟩ := isLongSpelling_iff.1 hvalid
      obtain rfl : name = c :: cs := by simpa using hlist
      exact .long (by simp [Char.isAlpha, hc])
    · obtain ⟨c, hlist, hc⟩ := isShortSpelling_iff.1 hvalid
      obtain ⟨rfl, -⟩ : '-' = c ∧ name = [] := by simpa using hlist
      exact absurd hc (by decide)
  cases huses with
  | long hname htext huse =>
    rw [htext]
    cases huse with
    | bare hname hswitch => simpa using hlong [] hswitch
    | attached hname hswitch harity => exact hlong _ hswitch
  | stack hname htext hc huses =>
    rw [htext]
    cases huses with
    | flag _ hswitch _ _ | bare _ hswitch _ _ | attached _ hswitch _ _ => exact hshort hswitch

/-- How the switches of a usage are reached from plain arguments, and which arguments are not
switches. Nothing is said about a hyphen or two and `inf`, `infinity` or `nan`. -/
structure ReachedPlainly (u : Usage) : Prop where
  /-- A spelling that needs no value is an occurrence by itself. -/
  alone : ∀ spelling switch, u.switches.get? spelling = some switch →
    ¬Token.isNegativeDecimal spelling → ¬Token.isNumberWord spelling → switch.arity ≠ .required →
      u.scan (Token.classifyAll [spelling]) =
        ⟨[.named switch.key spelling (.implied (switch.implied.getD true))], none⟩
  /-- A spelling that needs a value takes the argument after it, if that does not start with a
  hyphen. -/
  withValue : ∀ spelling switch, u.switches.get? spelling = some switch →
    ¬Token.isNegativeDecimal spelling → ¬Token.isNumberWord spelling → switch.arity = .required →
      ∀ value : String, value.toList.head? ≠ some '-' →
        u.scan (Token.classifyAll [spelling, value]) =
          ⟨[.named switch.key spelling (.text value)], none⟩
  /-- A stack of switches that take no value is an occurrence for each character. -/
  stack : ∀ (cs : List Char) (switches : Char → Switch), cs ≠ [] →
    (∀ c ∈ cs, u.switches.get? (String.ofList ['-', c]) = some (switches c) ∧
      (switches c).arity = .none) →
    ¬Token.isNegativeDecimal (String.ofList ('-' :: cs)) →
    ¬Token.isNumberWord (String.ofList ('-' :: cs)) →
      u.scan (Token.classifyAll [String.ofList ('-' :: cs)]) =
        ⟨cs.map fun c => .named (switches c).key (String.ofList ['-', c])
          (.implied ((switches c).implied.getD true)), none⟩
  /-- An argument that spells switches of the usage is no plain value. -/
  notPlain : ∀ argument uses, u.switches.ReadsUses ⟨.name, argument⟩ uses →
    ¬Token.isNegativeDecimal argument → ¬Token.isNumberWord argument →
      ∀ token ∈ Token.classify argument, token.kind ≠ .positionalValue
  /-- A negative decimal is a plain value. -/
  decimals : ∀ argument, Token.isNegativeDecimal argument →
    Token.classify argument = [⟨.positionalValue, argument⟩]
  /-- The spellings that are negative decimals are digits after a hyphen. -/
  digits : ∀ spelling switch, u.switches.get? spelling = some switch →
    (Token.isNegativeDecimal spelling ↔ ∃ c, c.isDigit ∧ spelling = String.ofList ['-', c])
  /-- The spellings that are left out. -/
  words : ∀ spelling switch, u.switches.get? spelling = some switch →
    Token.isNumberWord spelling → spelling ∈ ["--inf", "--infinity", "--nan"]

/-- **Every declared switch can be reached from a plain command line**, unless it is a negative
decimal: by its spelling, with a value after it if it needs one, and by any stack of switches that
take none. -/
theorem reached_of_compile (h : compile text r = .ok u r') : u.ReachedPlainly where
  alone := by
    intro spelling switch hget hdecimal hword harity
    have hvalid := long_or_short_of_get? h hget
    have hnumber := Token.not_isNumber (startsOption_of_spelling hvalid) hdecimal hword
    rw [Token.classifyAll_cons, Token.classify_spelling hvalid hnumber, Token.classifyAll_nil]
    exact SwitchTable.scan_spelling_alone hvalid hget harity
  withValue := by
    intro spelling switch hget hdecimal hword harity value hvalue
    have hvalid := long_or_short_of_get? h hget
    have hnumber := Token.not_isNumber (startsOption_of_spelling hvalid) hdecimal hword
    rw [Token.classifyAll_cons, Token.classify_spelling hvalid hnumber, Token.classifyAll_cons,
      Token.classify_of_head?_ne hvalue, Token.classifyAll_nil]
    exact SwitchTable.scan_spelling_value hvalid hget harity value
  stack := by
    intro cs switches hne hcs hdecimal hword
    have hflags : ∀ c ∈ cs, c.isAlphanum ∧
        u.switches.get? (String.ofList ['-', c]) = some (switches c) ∧
          (switches c).arity = .none :=
      fun c hc => ⟨isAlphanum_of_get? h (hcs c hc).1, hcs c hc⟩
    have hname : Token.classify (String.ofList ('-' :: cs)) = [Token.short cs] := by
      obtain ⟨c, cs, rfl⟩ := List.exists_cons_of_ne_nil hne
      have hc := (hflags c (by simp)).1
      have hstarts : Token.StartsOption (String.ofList ('-' :: c :: cs)).toList := by
        rw [String.toList_ofList]
        exact .short hc
      exact Token.classify_short String.toList_ofList (ne_of_isAlphanum hc).1
        (Token.not_isNumber hstarts hdecimal hword)
    rw [Token.classifyAll_cons, hname, Token.classifyAll_nil]
    exact SwitchTable.scan_flags hne hflags
  notPlain := by
    intro argument uses huses hdecimal hword
    exact Token.kind_ne_of_mem_classify huses.isOption
      (Token.not_isNumber (startsOption_of_uses h huses) hdecimal hword)
  decimals := fun argument hdecimal => Token.classify_of_isNegativeDecimal hdecimal
  digits := by
    intro spelling switch hget
    rcases long_or_short_of_get? h hget with hlong | hshort
    · refine iff_of_false (not_isNegativeDecimal_long hlong) ?_
      rintro ⟨c, -, rfl⟩
      obtain ⟨d, ds, hlist, -⟩ := isLongSpelling_iff.1 hlong
      simp at hlist
    · obtain ⟨c, hlist, hc⟩ := isShortSpelling_iff.1 hshort
      obtain rfl : spelling = String.ofList ['-', c] := by rw [← hlist, String.ofList_toList]
      rw [isNegativeDecimal_short_iff hlist hc]
      simp
  words := by
    intro spelling switch hget hword
    rcases long_or_short_of_get? h hget with hlong | hshort
    · exact mem_of_isNumberWord_long hlong hword
    · obtain ⟨c, hlist, hc⟩ := isShortSpelling_iff.1 hshort
      exact absurd hword (not_isNumberWord_short hlist hc)

/-- A stack of a flag and a negated one, and an option with its value. -/
theorem reached_stackAndValue :
    ∃ u r', compile "[--color|-c] [--no-wrap|-w] [--jobs|-j=INT]" Registry.standard = .ok u r' ∧
      u.scan (Token.classifyAll ["-wc"]) =
        ⟨[.named "wrap" "-w" (.implied false), .named "color" "-c" (.implied true)], none⟩ ∧
      u.scan (Token.classifyAll ["--jobs", "3"]) = ⟨[.named "jobs" "--jobs" (.text "3")], none⟩ := by
  let switches : Char → Switch := fun c =>
    if c = 'w' then ⟨"wrap", .none, some false⟩ else ⟨"color", .none, some true⟩
  obtain ⟨u, r', hcompile, hcheck⟩ :=
    exists_of_succeedsWith (compile "[--color|-c] [--no-wrap|-w] [--jobs|-j=INT]" Registry.standard)
      (fun u _ => u.switches.get? "-w" = some ⟨"wrap", .none, some false⟩ &&
        u.switches.get? "-c" = some ⟨"color", .none, some true⟩ &&
        u.switches.get? "--jobs" = some ⟨"jobs", .required, none⟩)
      (by decide +kernel)
  simp only [Bool.and_eq_true, decide_eq_true_eq] at hcheck
  obtain ⟨⟨hw, hc⟩, hjobs⟩ := hcheck
  have hreached := reached_of_compile hcompile
  have hflags : ∀ c ∈ ['w', 'c'], u.switches.get? (String.ofList ['-', c]) = some (switches c) ∧
      (switches c).arity = .none := by
    intro c hmem
    obtain rfl | rfl := List.mem_pair.1 hmem
    · exact ⟨hw, rfl⟩
    · exact ⟨hc, rfl⟩
  exact ⟨u, r', hcompile, hreached.stack ['w', 'c'] switches (by decide) hflags (by decide +kernel)
      (by decide +kernel),
    hreached.withValue "--jobs" _ hjobs (by decide +kernel) (by decide +kernel) rfl "3" (by decide)⟩

/-- A declared digit is a negative decimal on the command line, and so a positional. -/
theorem digit_notReached :
    ∃ u r', compile "[-1]" Registry.standard = .ok u r' ∧
      u.switches.get? "-1" = some ⟨"1", .none, some true⟩ ∧
      (u.scan (Token.classifyAll ["-1"])).collect = .ok [.positional 0 (.text "-1")] := by
  obtain ⟨u, r', hcompile, hcheck⟩ :=
    exists_of_succeedsWith (compile "[-1]" Registry.standard)
      (fun u _ => u.switches.get? "-1" = some ⟨"1", .none, some true⟩ &&
        (u.scan (Token.classifyAll ["-1"])).collect = .ok [.positional 0 (.text "-1")])
      (by decide +kernel)
  simp only [Bool.and_eq_true, decide_eq_true_eq] at hcheck
  exact ⟨u, r', hcompile, hcheck.1, hcheck.2⟩

end Usage

end Synopsis
