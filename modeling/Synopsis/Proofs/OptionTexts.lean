import Synopsis.Proofs.Notes
import Synopsis.Proofs.Parts
import Synopsis.Proofs.Rereadings

/-!
# Options are read from what they are described as

An option is described with all its spellings in one group. The group is read where its spellings
may stand together, and then declares what these declare (`Reader.options_described`); a switch with
two sides that was made of two groups need not be of this kind.
-/

namespace Synopsis

open Lexeme (StopsAt optionTail)

/-! ## Spellings -/

theorem isAlphanum_of_isLower {c : Char} (h : c.isLower = true) : c.isAlphanum = true := by
  simp [Char.isAlphanum, Char.isAlpha, h]

/-- A spelling that an option may have. -/
def IsSpelling (spelling : String) : Prop := isLongSpelling spelling ∨ isShortSpelling spelling

theorem IsSpelling.cases {spelling : String} (h : IsSpelling spelling) :
    ∃ c cs, c.isAlphanum = true ∧ (∀ d ∈ cs, optionTail d = true) ∧
      (spelling.toList = '-' :: '-' :: c :: cs ∨ spelling.toList = '-' :: c :: cs) := by
  rcases h with h | h
  · obtain ⟨c, cs, hlist, hc, hcs⟩ := isLongSpelling_iff.1 h
    refine ⟨c, cs, isAlphanum_of_isLower hc, fun d hd => ?_, Or.inl hlist⟩
    have htail := isLower_or_isDigit_of_isKebabRest hcs d hd
    simp only [optionTail, Char.isAlphanum, Char.isAlpha, Bool.or_eq_true, decide_eq_true_eq]
    tauto
  · obtain ⟨c, hlist, hc⟩ := isShortSpelling_iff.1 h
    exact ⟨c, [], hc, by simp, Or.inr hlist⟩

theorem IsSpelling.option_eq {spelling : String} (h : IsSpelling spelling) :
    ∃ hyphens c cs, spelling.toList = hyphens ++ c :: cs ∧ c.isAlphanum = true ∧
      (∀ d ∈ cs, optionTail d = true) ∧ ∀ after, Lexeme.option (spelling.toList ++ after) =
        hyphens ++ c :: (cs ++ after).takeWhile optionTail := by
  obtain ⟨c, cs, hc, hcs, hlist⟩ := h.cases
  have hname (after : List Char) : Lexeme.optionName (c :: (cs ++ after)) =
      c :: (cs ++ after).takeWhile optionTail := Lexeme.leading_cons hc
  rcases hlist with hlist | hlist
  · refine ⟨['-', '-'], c, cs, hlist, hc, hcs, fun after => ?_⟩
    rw [hlist, List.cons_append, List.cons_append, List.cons_append, Lexeme.option, hname]
    rfl
  · have hne : c ≠ '-' := by
      rintro rfl
      simp at hc
    refine ⟨['-'], c, cs, hlist, hc, hcs, fun after => ?_⟩
    rw [hlist, List.cons_append, List.cons_append, Lexeme.option, hname]
    · rfl
    · simpa using hne

theorem Lexeme.option_append {spelling : String} (h : IsSpelling spelling) {after : List Char}
    (hafter : StopsAt optionTail after) :
    Lexeme.option (spelling.toList ++ after) = spelling.toList := by
  obtain ⟨hyphens, c, cs, hlist, hc, hcs, hoption⟩ := h.option_eq
  rw [hoption, hlist, takeWhile_append_of_stopsAt hcs hafter]

theorem IsSpelling.option_ne_nil {spelling : String} (h : IsSpelling spelling)
    (after : List Char) : Lexeme.option (spelling.toList ++ after) ≠ [] := by
  obtain ⟨hyphens, c, cs, -, -, -, hoption⟩ := h.option_eq
  rw [hoption]
  simp

theorem IsSpelling.isPart {spelling text : String} (h : IsSpelling spelling) {after : List Char}
    (htext : text.toList = spelling.toList ++ after) : IsPart text := by
  obtain ⟨c, cs, hc, -, hlist | hlist⟩ := h.cases
  · exact isPart_of_long (by rw [htext, hlist]; rfl) hc
  · exact isPart_of_short (by rw [htext, hlist]; rfl) hc

theorem IsSpelling.head {spelling : String} (h : IsSpelling spelling) :
    ∃ cs, spelling.toList = '-' :: cs := by
  obtain ⟨c, cs, -, -, hlist | hlist⟩ := h.cases <;> exact ⟨_, hlist⟩

theorem barred_head {texts : List String} (hne : texts ≠ [])
    (hvalid : ∀ text ∈ texts, IsSpelling text) : ∃ cs, barred texts = '-' :: cs := by
  obtain ⟨text, texts, rfl⟩ := List.exists_cons_of_ne_nil hne
  obtain ⟨cs, hcs⟩ := (hvalid text (by simp)).head
  by_cases hlast : texts = []
  · exact ⟨cs, by rw [hlast, barred_singleton, hcs]⟩
  · exact ⟨_, by rw [barred_cons _ hlast, hcs]; rfl⟩

namespace Reader

variable {s s' : ReaderState} {after : List Char}

theorem spelling_complete {text : String} (h : IsSpelling text)
    (hrest : s.rest = text.toList ++ after) (hafter : StopsAt optionTail after) :
    ∃ s₁, spelling s = .ok (text, s.offset) s₁ ∧ s₁.rest = after ∧ s₁.known = s.known := by
  have hfound : Lexeme.option s.rest = text.toList := by
    rw [hrest]
    exact Lexeme.option_append h hafter
  refine ⟨_, spelling_ok_iff.2 ⟨h, ?_, rfl⟩, ?_, rfl⟩
  · rw [hfound, String.ofList_toList]
  · rw [ReaderState.rest_advance, hfound, hrest, List.drop_left]

/-- The spellings of a group are read, up to what may follow the last. -/
theorem spellings_complete {fuel : Nat} {texts : List String} (hne : texts ≠ [])
    (hvalid : ∀ text ∈ texts, IsSpelling text) (hrest : s.rest = barred texts ++ after)
    (hafter : StopsAt optionTail after) (hsolid : StopsAt isBlank after)
    (hbar : Lexeme.startsWith "|" after = false) (hfuel : s.rest.length < fuel) :
    ∃ found s₁, spellings fuel s = .ok found s₁ ∧ found.map (·.1) = texts ∧ s₁.rest = after ∧
      s₁.known = s.known := by
  induction texts generalizing fuel s with
  | nil => exact absurd rfl hne
  | cons text texts ih =>
    obtain ⟨fuel, rfl⟩ : ∃ n, fuel = n + 1 := ⟨fuel - 1, by omega⟩
    rw [List.forall_mem_cons] at hvalid
    by_cases hlast : texts = []
    · rw [hlast, barred_singleton] at hrest
      obtain ⟨s₁, hread, hs₁, hknown⟩ := spelling_complete hvalid.1 hrest hafter
      have htrim : trimStart s₁.rest = after := by
        rw [hs₁]
        exact trimStart_of_stopsAt hsolid
      refine ⟨_, pastBlanks s₁, spellings_succ_ok_iff.2 ⟨_, s₁, hread, Or.inr ⟨?_, rfl, rfl⟩⟩,
        by simp [hlast], by rwa [rest_pastBlanks], by simpa using hknown⟩
      rw [htrim, hbar]
    · rw [barred_cons text hlast] at hrest
      have hrest' : s.rest = text.toList ++ '|' :: (barred texts ++ after) := by
        rw [hrest]
        simp
      obtain ⟨s₁, hread, hs₁, hknown⟩ :=
        spelling_complete hvalid.1 hrest' (Lexeme.stopsAt_cons (by decide))
      have htrim : trimStart s₁.rest = '|' :: (barred texts ++ after) := by
        rw [hs₁]
        exact trimStart_of_stopsAt (Lexeme.stopsAt_cons (by decide))
      have hpast : (past "|" (pastBlanks s₁)).rest = barred texts ++ after :=
        rest_past (by rwa [rest_pastBlanks])
      have hnext : (pastBlanks (past "|" (pastBlanks s₁))).rest = barred texts ++ after := by
        obtain ⟨cs, hcs⟩ := barred_head hlast hvalid.2
        rw [rest_pastBlanks, hpast, hcs]
        exact trimStart_of_stopsAt (Lexeme.stopsAt_cons isBlank_hyphen)
      have hlength : (pastBlanks (past "|" (pastBlanks s₁))).rest.length < fuel := by
        rw [hrest'] at hfuel
        rw [hnext]
        simp only [List.length_append, List.length_cons] at hfuel ⊢
        omega
      obtain ⟨more, s₂, hmore, hmap, hs₂, hknown₂⟩ := ih hlast hvalid.2 hnext hlength
      refine ⟨_, s₂, spellings_succ_ok_iff.2 ⟨_, s₁, hread, Or.inl ⟨?_, more, hmore, rfl⟩⟩,
        by rw [List.map_cons, hmap], hs₂, by simpa [hknown] using hknown₂⟩
      rw [htrim]
      rfl

/-! ## Values -/

/-- What may follow the value of an option, or its spellings where it has none. -/
structure EndsValue (cs : List Char) : Prop where
  stops : StopsAt optionTail cs
  required : Lexeme.startsWith "=" cs = false
  optional : Lexeme.startsWith "[=" cs = false

theorem endsValue_of_ends (h : Ends after) : EndsValue after where
  stops := Lexeme.stopsAt_of_atBoundary (fun _ => id) h.boundary
  required := startsWith_of_atBoundary (by decide) h.boundary
  optional := startsWith_of_atBoundary (by decide) h.boundary

theorem endsValue_dots (cs : List Char) : EndsValue ("...".toList ++ cs) :=
  ⟨Lexeme.stopsAt_cons rfl, rfl, rfl⟩

theorem identifier_complete {label : String} (hid : IsIdentifier label)
    (hrest : s.rest = label.toList ++ after) (hafter : StopsAt optionTail after) :
    Lexeme.identifier s.rest = label.toList ∧ Lexeme.startsWith "(" s.rest = false := by
  constructor
  · rw [hrest]
    refine Lexeme.identifier_append hid fun c hc => ?_
    by_contra hgoes
    have := Lexeme.optionTail_of_identifierTail (Bool.of_not_eq_false hgoes)
    simp [hafter c hc] at this
  · obtain ⟨c, cs, htext, hupper⟩ := hid.head
    have hne : '(' ≠ c := by
      rintro rfl
      simp at hupper
    simp [hrest, htext, Lexeme.startsWith, List.isPrefixOf, hne]

theorem valueType_complete {k k' : Known} {type : ValueType} {label : String}
    (h : ReadsType k type label k') (hknown : s.known = k) (hrest : s.rest = label.toList ++ after)
    (hafter : StopsAt optionTail after) :
    ∃ s₁, valueType s = .ok (type, label) s₁ ∧ s₁.rest = after ∧ s₁.known = k' := by
  have hregistry : s.registry = k.registry := congrArg Known.registry hknown
  have hnumbered : s.numbered = k.numbered := congrArg Known.numbered hknown
  cases h with
  | @identifier _ name number _ r hid hname htype =>
    obtain ⟨hfound, hopen⟩ := identifier_complete hid hrest hafter
    refine ⟨_, valueType_ok_iff.2 (Or.inr ⟨hopen, hfound ▸ hid.1, ?_, name, number, r, hname,
      hregistry ▸ htype, rfl⟩), ?_, ?_⟩
    · rw [hfound, String.ofList_toList]
    · show s.rest.drop (Lexeme.identifier s.rest).length = after
      rw [hfound, hrest, List.drop_left]
    · show Known.mk r s.numbered = _
      rw [hnumbered]
  | @group _ group _ r hgroup htype =>
    obtain ⟨s₁, hread, hs₁, hknown₁⟩ := alternatives_complete hgroup hrest
    have hregistry₁ : s₁.registry = k.registry := congrArg Known.registry (hknown₁.trans hknown)
    have hnumbered₁ : s₁.numbered = k.numbered := congrArg Known.numbered (hknown₁.trans hknown)
    have hopen : Lexeme.startsWith "(" s.rest = true := by
      obtain ⟨blanks, items, l, -, -, -, htext⟩ := hgroup
      rw [hrest, htext]
      rfl
    refine ⟨_, valueType_ok_iff.2 (Or.inl ⟨hopen, group, s₁, r, hread, hregistry₁ ▸ htype, rfl, ?_⟩),
      hs₁, ?_⟩
    · simp [hrest, hs₁]
    · show Known.mk r s₁.numbered = _
      rw [hnumbered₁]

theorem takenValue_complete {k k' : Known} {value : TakenValue} {metavar : Option String}
    (h : ReadsValue k value metavar k') (hknown : s.known = k)
    (hrest : s.rest = (value.write metavar).toList ++ after) (hafter : EndsValue after) :
    ∃ s₁, takenValue s = .ok (value, metavar) s₁ ∧ s₁.rest = after ∧ s₁.known = k' := by
  cases h with
  | flag =>
    have hrest' : s.rest = after := by simpa [TakenValue.write] using hrest
    refine ⟨s, takenValue_ok_iff.2 (Or.inr (Or.inr ⟨?_, ?_, rfl, rfl, rfl⟩)), hrest', hknown⟩
    · rw [hrest', hafter.required]
    · rw [hrest', hafter.optional]
  | @required _ type label h =>
    have hrest' : s.rest = '=' :: (label.toList ++ after) := by
      rw [hrest]
      simp [TakenValue.write]
    obtain ⟨s₁, hread, hs₁, hknown₁⟩ := @valueType_complete (past "=" s) _ _ _ _ _ h
      (by rwa [known_past]) (rest_past hrest') hafter.stops
    refine ⟨s₁, takenValue_ok_iff.2 (Or.inl ⟨?_, type, label, hread, rfl, rfl⟩), hs₁, hknown₁⟩
    rw [hrest']
    rfl
  | @optional _ type label h =>
    have hrest' : s.rest = '[' :: '=' :: (label.toList ++ ']' :: after) := by
      rw [hrest]
      simp [TakenValue.write]
    obtain ⟨s₁, hread, hs₁, hknown₁⟩ := @valueType_complete (past "[=" s) _ _ _ _ _ h
      (by rwa [known_past]) (rest_past hrest') (Lexeme.stopsAt_cons (by decide))
    refine ⟨past "]" s₁, takenValue_ok_iff.2 (Or.inr (Or.inl ⟨?_, ?_, type, label, s₁, hread, ?_, rfl,
      rfl, rfl⟩)), rest_past hs₁, by rwa [known_past]⟩
    · rw [hrest']
      rfl
    · rw [hrest']
      rfl
    · rw [hs₁]
      rfl

end Reader

/-! ## Described options -/

/-- The text that opens an option of this form. -/
def Reader.OptionForm.opener : Reader.OptionForm → String
  | .bracketed => "["
  | .parenthesized => "("
  | .bare => ""

/-- The text that closes an option of this form, before dots. -/
def Reader.OptionForm.closer : Reader.OptionForm → String
  | .bracketed => "]"
  | .parenthesized => ")"
  | .bare => ""

/-- The dots after an option that may be repeated. -/
def recursMark (recurs : Bool) : List Char := if recurs then "...".toList else []

namespace OptionSpec

/-- The value that the option takes, as a declaration has it. -/
def taken (o : OptionSpec) : TakenValue :=
  match o.arity with
  | .none => .flag
  | .required => .required o.type
  | .optional => .optional o.type

/-- The spellings that the option is described with. -/
def written (o : OptionSpec) : List String := o.allSpellings.eraseDups

/-- What the declarations of the described option share. -/
def shared (o : OptionSpec) : Shared where
  value := o.taken
  metavar := o.metavar
  recurs := o.recurs
  note := none

/-- The form that the option is described in. -/
def form (o : OptionSpec) : Reader.OptionForm :=
  if o.mandatory then if o.written.length = 1 then .bare else .parenthesized else .bracketed

/-- The declarations that the described option makes. -/
def regrouped (o : OptionSpec) : List Declaration := o.shared.declares o.written

/-- The option has spellings, and each is one that an option may have. -/
structure Spelled (o : OptionSpec) : Prop where
  ne_nil : o.written ≠ []
  valid : ∀ spelling ∈ o.written, IsSpelling spelling

/-- The option can be described: it has spellings, and its value can be read from its label. -/
structure Describable (o : OptionSpec) (r : Registry) : Prop extends Spelled o where
  value : ∀ numbered, ReadsValue ⟨r, numbered⟩ o.taken o.metavar ⟨r, numbered⟩

theorem describe_eq (o : OptionSpec) :
    o.describe =
      let written := "|".intercalate o.written ++ o.taken.write o.metavar
      let bracketed :=
        if o.mandatory then if o.written.length = 1 then written else "(" ++ written ++ ")"
        else "[" ++ written ++ "]"
      if o.recurs then bracketed ++ "..." else bracketed := by
  unfold describe taken TakenValue.write
  cases o.arity <;> cases o.metavar <;> rfl

theorem toList_describe (o : OptionSpec) :
    o.describe.toList = o.form.opener.toList ++ (barred o.written ++
      ((o.taken.write o.metavar).toList ++ (o.form.closer.toList ++ recursMark o.recurs))) := by
  have hbarred : ("|".intercalate o.written).toList = barred o.written := by
    rw [String.toList_intercalate]
    rfl
  rw [describe_eq]
  unfold form recursMark
  cases o.mandatory <;> cases o.recurs <;> by_cases hlength : o.written.length = 1 <;>
    simp [hlength, hbarred, Reader.OptionForm.opener, Reader.OptionForm.closer]

theorem written_of_bare {o : OptionSpec} (h : o.form = .bare) :
    ∃ spelling, o.written = [spelling] := by
  unfold form at h
  split_ifs at h with hmandatory hlength
  exact List.length_eq_one_iff.1 hlength

end OptionSpec

namespace Reader

variable {s s' : ReaderState} {after : List Char} {o : OptionSpec} {r : Registry}

/-- The reader of an option in this form. -/
def OptionForm.reader : OptionForm → Reader (List Declaration)
  | .bracketed => optionGroup "[" "]"
  | .parenthesized => optionGroup "(" ")"
  | .bare => bareOption

theorem past_recursMark {recurs : Bool} (hrest : s.rest = recursMark recurs ++ after)
    (hafter : Ends after) :
    Lexeme.startsWith "..." s.rest = recurs ∧ (past "..." s).rest = after := by
  cases recurs with
  | false =>
    have hrest' : s.rest = after := hrest
    have hdots : Lexeme.startsWith "..." s.rest = false := by rw [hrest', hafter.startsWith_dots]
    exact ⟨hdots, by rw [past_of_not hdots, hrest']⟩
  | true => exact ⟨Lexeme.startsWith_iff.2 ⟨after, hrest⟩, rest_past hrest⟩

theorem value_head {k k' : Known} {value : TakenValue} {metavar : Option String}
    (h : ReadsValue k value metavar k') {closer : String} (hcloser : closer = "]" ∨ closer = ")")
    (cs : List Char) :
    ∃ c ds, (value.write metavar).toList ++ (closer.toList ++ cs) = c :: ds ∧
      (c = '=' ∨ c = '[' ∨ c = ']' ∨ c = ')') := by
  cases h with
  | flag =>
    rcases hcloser with rfl | rfl
    · exact ⟨']', cs, rfl, by simp⟩
    · exact ⟨')', cs, rfl, by simp⟩
  | required h => exact ⟨'=', _, by simp [TakenValue.write]; rfl, by simp⟩
  | optional h => exact ⟨'[', _, by simp [TakenValue.write]; rfl, by simp⟩

/-- After the spelling of an option without brackets comes its value, or what ends it. -/
theorem stopsAt_value {k k' : Known} {value : TakenValue} {metavar : Option String}
    (h : ReadsValue k value metavar k') {cs : List Char} (hcs : EndsValue cs) :
    StopsAt optionTail ((value.write metavar).toList ++ cs) := by
  cases h with
  | flag => exact hcs.stops
  | required h =>
    rw [TakenValue.write, String.toList_append]
    exact Lexeme.stopsAt_cons rfl
  | optional h =>
    rw [TakenValue.write, String.toList_append, String.toList_append]
    exact Lexeme.stopsAt_cons rfl

section Stages

variable {found : List (String × Nat)} {value : TakenValue} {metavar text : Option String}
  {s₁ s₂ s₃ : ReaderState} {declared : List Declaration}

/-- A group whose parts have been read comes to the declarations of its spellings. -/
theorem optionGroup_iff_of_stages {opener closer : String}
    (hopen : Lexeme.startsWith opener s.rest = true)
    (hfound : spellings ((pastBlanks (past opener s)).rest.length + 1) (pastBlanks (past opener s)) =
      .ok found s₁)
    (hvalue : takenValue (pastBlanks s₁) = .ok (value, metavar) s₂)
    (hclose : Lexeme.startsWith closer (trimStart s₂.rest) = true)
    (hnote : note (past "..." (past closer (pastBlanks s₂))) = .ok text s₃) :
    optionGroup opener closer s = .ok declared s' ↔
      declarations found
        { value, metavar, note := text,
          recurs := Lexeme.startsWith "..." (past closer (pastBlanks s₂)).rest } s₃ =
        .ok declared s' := by
  rw [optionGroup_ok_iff hopen]
  constructor
  · rintro ⟨found', s₁', value', metavar', s₂', text', s₃', hfound', hvalue', -, hnote', hdeclared⟩
    obtain ⟨rfl, rfl⟩ := by simpa using hfound.symm.trans hfound'
    obtain ⟨⟨rfl, rfl⟩, rfl⟩ := by simpa using hvalue.symm.trans hvalue'
    obtain ⟨rfl, rfl⟩ := by simpa using hnote.symm.trans hnote'
    exact hdeclared
  · intro hdeclared
    exact ⟨found, s₁, value, metavar, s₂, text, s₃, hfound, hvalue, hclose, hnote, hdeclared⟩

/-- The same of an option without brackets. -/
theorem bareOption_iff_of_stages {first : String × Nat} (hfirst : spelling s = .ok first s₁)
    (hvalue : takenValue s₁ = .ok (value, metavar) s₂)
    (hboundary : Lexeme.atBoundary (past "..." s₂).rest = true)
    (hnote : note (past "..." s₂) = .ok text s₃) :
    bareOption s = .ok declared s' ↔
      declarations [first]
        { value, metavar, recurs := Lexeme.startsWith "..." s₂.rest, note := text } s₃ =
        .ok declared s' := by
  rw [bareOption_ok_iff]
  constructor
  · rintro ⟨first', s₁', value', metavar', s₂', text', s₃', hfirst', hvalue', -, hnote', hdeclared⟩
    obtain ⟨rfl, rfl⟩ := by simpa using hfirst.symm.trans hfirst'
    obtain ⟨⟨rfl, rfl⟩, rfl⟩ := by simpa using hvalue.symm.trans hvalue'
    obtain ⟨rfl, rfl⟩ := by simpa using hnote.symm.trans hnote'
    exact hdeclared
  · intro hdeclared
    exact ⟨first, s₁, value, metavar, s₂, text, s₃, hfirst, hvalue, hboundary, hnote, hdeclared⟩

end Stages

theorem groupSpellings_complete {opener : String} {c : Char} {ds : List Char} (ho : o.Spelled)
    (hrest : s.rest = opener.toList ++ (barred o.written ++ c :: ds))
    (hc : c = '=' ∨ c = '[' ∨ c = ']' ∨ c = ')') :
    ∃ found s₁, spellings ((pastBlanks (past opener s)).rest.length + 1) (pastBlanks (past opener s)) =
        .ok found s₁ ∧ found.map (·.1) = o.written ∧ (pastBlanks s₁).rest = c :: ds ∧
      (pastBlanks s₁).known = s.known := by
  have hstart : (pastBlanks (past opener s)).rest = barred o.written ++ c :: ds := by
    obtain ⟨cs, hcs⟩ := barred_head ho.ne_nil ho.valid
    rw [rest_pastBlanks, rest_past hrest, hcs]
    exact trimStart_of_stopsAt (Lexeme.stopsAt_cons isBlank_hyphen)
  have hstops : optionTail c = false ∧ isBlank c = false ∧ Lexeme.startsWith "|" (c :: ds) = false := by
    rcases hc with rfl | rfl | rfl | rfl <;> exact ⟨by decide, by decide, rfl⟩
  obtain ⟨found, s₁, hfound, hmap, hs₁, hknown₁⟩ :=
    spellings_complete ho.ne_nil ho.valid hstart (Lexeme.stopsAt_cons hstops.1)
      (Lexeme.stopsAt_cons hstops.2.1) hstops.2.2 (Nat.lt_succ_self _)
  refine ⟨found, s₁, hfound, hmap, ?_, by simpa using hknown₁⟩
  rw [rest_pastBlanks, hs₁]
  exact trimStart_of_stopsAt (Lexeme.stopsAt_cons hstops.2.1)

/-- **A described group is read where its spellings may stand together**, and then declares what
these declare. -/
theorem optionGroup_described {opener closer : String} (ho : o.Describable r)
    (hs : s.registry = r) (hcloser : closer = "]" ∨ closer = ")")
    (hrest : s.rest = opener.toList ++ (barred o.written ++
      ((o.taken.write o.metavar).toList ++ (closer.toList ++ (recursMark o.recurs ++ after)))))
    (hafter : Ends after) :
    ∃ s₁, s₁.rest = after ∧ s₁.known = s.known ∧ ∀ declared s',
      optionGroup opener closer s = .ok declared s' ↔
        o.shared.Admits o.written ∧ declared = o.regrouped ∧ s' = s₁ := by
  have hknown : s.known = ⟨r, s.numbered⟩ := by rw [ReaderState.known, hs]
  have hvalue := ho.value s.numbered
  obtain ⟨c, ds, hhead, hc⟩ := value_head hvalue hcloser (recursMark o.recurs ++ after)
  -- the spellings
  obtain ⟨found, s₁, hfound, hmap, hrest₁, hknown₁⟩ :=
    groupSpellings_complete ho.toSpelled (by rwa [hhead] at hrest) hc
  rw [← hhead] at hrest₁
  rw [hknown] at hknown₁
  -- the value
  have hcloses : EndsValue (closer.toList ++ (recursMark o.recurs ++ after)) := by
    rcases hcloser with rfl | rfl <;> exact ⟨Lexeme.stopsAt_cons rfl, rfl, rfl⟩
  obtain ⟨s₂, htaken, hs₂, hknown₂⟩ := takenValue_complete hvalue hknown₁ hrest₁ hcloses
  -- the closing bracket, and the dots
  have htrim₂ : trimStart s₂.rest = closer.toList ++ (recursMark o.recurs ++ after) := by
    rw [hs₂]
    rcases hcloser with rfl | rfl <;>
      exact trimStart_of_stopsAt (Lexeme.stopsAt_cons (by decide))
  have hpast : (past closer (pastBlanks s₂)).rest = recursMark o.recurs ++ after :=
    rest_past (by rwa [rest_pastBlanks])
  obtain ⟨hdots, hpast'⟩ := past_recursMark hpast hafter
  have hnote : note (past "..." (past closer (pastBlanks s₂))) =
      .ok none (past "..." (past closer (pastBlanks s₂))) := Ends.note (hpast' ▸ hafter)
  have hopen : Lexeme.startsWith opener s.rest = true := Lexeme.startsWith_iff.2 ⟨_, hrest⟩
  have hclose : Lexeme.startsWith closer (trimStart s₂.rest) = true :=
    Lexeme.startsWith_iff.2 ⟨_, htrim₂⟩
  refine ⟨past "..." (past closer (pastBlanks s₂)), hpast', by simp [hknown₂, hknown], ?_⟩
  intro declared s'
  rw [optionGroup_iff_of_stages hopen hfound htaken hclose hnote, hdots, declarations_ok_iff, hmap]
  rfl

theorem bareOption_described {spelling : String} (ho : o.Describable r) (hs : s.registry = r)
    (hwritten : o.written = [spelling])
    (hrest : s.rest = spelling.toList ++ ((o.taken.write o.metavar).toList ++
      (recursMark o.recurs ++ after))) (hafter : Ends after) :
    ∃ s₁, s₁.rest = after ∧ s₁.known = s.known ∧ ∀ declared s',
      bareOption s = .ok declared s' ↔
        o.shared.Admits o.written ∧ declared = o.regrouped ∧ s' = s₁ := by
  have hknown : s.known = ⟨r, s.numbered⟩ := by rw [ReaderState.known, hs]
  have hvalue := ho.value s.numbered
  have hdotsEnds : EndsValue (recursMark o.recurs ++ after) := by
    cases o.recurs with
    | false => exact endsValue_of_ends hafter
    | true => exact endsValue_dots after
  have hstops := stopsAt_value hvalue hdotsEnds
  obtain ⟨s₁, hread, hs₁, hknown₁⟩ :=
    spelling_complete (ho.valid spelling (by simp [hwritten])) hrest hstops
  obtain ⟨s₂, htaken, hs₂, hknown₂⟩ :=
    takenValue_complete hvalue (hknown₁.trans hknown) hs₁ hdotsEnds
  obtain ⟨hdots, hpast⟩ := past_recursMark hs₂ hafter
  have hnote : note (past "..." s₂) = .ok none (past "..." s₂) := Ends.note (hpast ▸ hafter)
  refine ⟨past "..." s₂, hpast, by simp [hknown₂, hknown], ?_⟩
  intro declared s'
  rw [bareOption_iff_of_stages hread htaken (hpast ▸ hafter.boundary) hnote, hdots,
    declarations_ok_iff, OptionSpec.regrouped, hwritten]
  rfl

theorem describe_isPart (ho : o.Spelled) : IsPart o.describe := by
  obtain ⟨cs, hcs⟩ := barred_head ho.ne_nil ho.valid
  have htext := o.toList_describe
  cases hform : o.form with
  | bracketed =>
    rw [hform] at htext
    exact isPart_of_head htext (by decide) (by decide)
  | parenthesized =>
    rw [hform] at htext
    exact isPart_of_head htext (by decide) (by decide)
  | bare =>
    obtain ⟨spelling, hwritten⟩ := o.written_of_bare hform
    rw [hform, hwritten, barred_singleton] at htext
    exact (ho.valid spelling (by simp [hwritten])).isPart htext

theorem forall_isPart {os : List OptionSpec} {parts : List String}
    (hos : ∀ o ∈ os, o.Spelled) (hparts : ∀ part ∈ parts, IsPart part) :
    ∀ part ∈ os.map OptionSpec.describe ++ parts, IsPart part := by
  intro part hpart
  rcases List.mem_append.1 hpart with hpart | hpart
  · obtain ⟨o, ho, rfl⟩ := List.mem_map.1 hpart
    exact describe_isPart (hos o ho)
  · exact hparts part hpart

/-- A described option is told by how it starts. -/
theorem optionForm?_described (ho : o.Spelled) (cs : List Char) :
    optionForm? (o.describe.toList ++ cs) = some o.form := by
  obtain ⟨ds, hds⟩ := barred_head ho.ne_nil ho.valid
  rw [o.toList_describe, hds]
  cases hform : o.form with
  | bracketed => rfl
  | parenthesized => rfl
  | bare =>
    obtain ⟨spelling, hwritten⟩ := o.written_of_bare hform
    rw [hwritten, barred_singleton] at hds
    have hoption := (ho.valid spelling (by simp [hwritten])).option_ne_nil
      ((o.taken.write o.metavar).toList ++ (recursMark o.recurs ++ cs))
    rw [hds] at hoption
    simp only [OptionForm.opener, OptionForm.closer, String.toList_empty, List.nil_append,
      List.append_assoc, List.cons_append] at hoption ⊢
    simp [optionForm?, Lexeme.opensOption, hoption]

/-- The declarations of one more option of this form. -/
def OptionForm.add (form : OptionForm) (declared : List Declaration) :
    List Declaration × List Declaration → List Declaration × List Declaration
  | (mandatory, optional) =>
    match form with
    | .bracketed => (mandatory, declared ++ optional)
    | _ => (declared ++ mandatory, optional)

theorem OptionForm.add_form (declared : List Declaration)
    (rest : List Declaration × List Declaration) :
    o.form.add declared rest =
      if o.mandatory then (declared ++ rest.1, rest.2) else (rest.1, declared ++ rest.2) := by
  unfold OptionSpec.form
  cases o.mandatory
  · rfl
  · simp only [if_true]
    split_ifs <;> rfl

theorem options_succ_ok_iff {fuel : Nat} {form : OptionForm}
    {found : List Declaration × List Declaration}
    (hform : optionForm? (trimStart s.rest) = some form) :
    options (fuel + 1) s = .ok found s' ↔
      ∃ declared s₁ rest, form.reader (pastBlanks s) = .ok declared s₁ ∧
        options fuel s₁ = .ok rest s' ∧ found = form.add declared rest := by
  simp only [options, keeping_bind_ok_iff, skipBlanks_ok_iff, remaining_ok_iff]
  constructor
  · rintro ⟨-, _, rfl, _, _, ⟨rfl, rfl⟩, h⟩
    rw [rest_pastBlanks, hform] at h
    cases form <;> simp only [keeping_bind_ok_iff, keeping_pure_ok_iff] at h <;>
      obtain ⟨declared, s₁, hread, rest, s₂, hrest, rfl, rfl⟩ := h <;>
      exact ⟨declared, s₁, rest, hread, hrest, rfl⟩
  · rintro ⟨declared, s₁, rest, hread, hrest, rfl⟩
    refine ⟨(), _, rfl, _, _, ⟨rfl, rfl⟩, ?_⟩
    rw [rest_pastBlanks, hform]
    cases form <;> simp only [keeping_bind_ok_iff, keeping_pure_ok_iff] <;>
      exact ⟨declared, s₁, hread, rest, s', hrest, rfl, rfl⟩

theorem options_none {fuel : Nat} (hform : optionForm? (trimStart s.rest) = none) :
    options (fuel + 1) s = .ok ([], []) (pastBlanks s) := by
  simp [options, hform]

/-- A described option is read by the reader of its form. -/
theorem reader_described (ho : o.Describable r) (hs : s.registry = r)
    (hrest : s.rest = o.describe.toList ++ after) (hafter : Ends after) :
    ∃ s₁, s₁.rest = after ∧ s₁.known = s.known ∧ ∀ declared s',
      o.form.reader s = .ok declared s' ↔
        o.shared.Admits o.written ∧ declared = o.regrouped ∧ s' = s₁ := by
  rw [o.toList_describe] at hrest
  simp only [List.append_assoc] at hrest
  cases hform : o.form with
  | bracketed =>
    rw [hform] at hrest
    exact optionGroup_described ho hs (Or.inl rfl) hrest hafter
  | parenthesized =>
    rw [hform] at hrest
    exact optionGroup_described ho hs (Or.inr rfl) hrest hafter
  | bare =>
    obtain ⟨spelling, hwritten⟩ := o.written_of_bare hform
    rw [hform, hwritten, barred_singleton] at hrest
    exact bareOption_described ho hs hwritten hrest hafter

/-- What stands at the front of described options, and what is left when the first has been read. -/
theorem front_described {os : List OptionSpec} {parts : List String} (ho : o.Spelled)
    (hos : ∀ o ∈ os, o.Spelled) (hparts : ∀ part ∈ parts, IsPart part)
    (hrest : trimStart s.rest = joined ((o :: os).map OptionSpec.describe ++ parts)) :
    optionForm? (trimStart s.rest) = some o.form ∧
      (pastBlanks s).rest =
        o.describe.toList ++ spaced (os.map OptionSpec.describe ++ parts) ∧
      Ends (spaced (os.map OptionSpec.describe ++ parts)) ∧
      ∀ s₁ : ReaderState, s₁.rest = spaced (os.map OptionSpec.describe ++ parts) →
        trimStart s₁.rest = joined (os.map OptionSpec.describe ++ parts) ∧
          s₁.rest.length < s.rest.length := by
  have hparts' := forall_isPart hos hparts
  rw [List.map_cons, List.cons_append] at hrest
  refine ⟨?_, ?_, by simpa using ends_spaced hparts' ends_nil, fun s₁ hs₁ => ?_⟩
  · rw [hrest, joined_cons]
    exact optionForm?_described ho _
  · rw [rest_pastBlanks, hrest, joined_cons]
  · simpa using @next_part (os.map OptionSpec.describe ++ parts) [] o.describe s.rest s₁.rest
      (describe_isPart ho) hparts' (by simp [StopsAt]) (by rw [hrest, List.append_nil])
      (by rw [hs₁, List.append_nil])

/-- **Described options are read where the spellings of each may stand together**, and declare what
these declare, the mandatory ones first. -/
theorem options_described {fuel : Nat} {os : List OptionSpec} {parts : List String}
    (hos : ∀ o ∈ os, o.Describable r) (hparts : ∀ part ∈ parts, IsPart part)
    (hform : optionForm? (joined parts) = none) (hs : s.registry = r)
    (hrest : trimStart s.rest = joined (os.map OptionSpec.describe ++ parts))
    (hfuel : s.rest.length < fuel) :
    ∃ s₁, s₁.rest = joined parts ∧ s₁.known = s.known ∧ ∀ mandatory optional s',
      options fuel s = .ok (mandatory, optional) s' ↔
        (∀ o ∈ os, o.shared.Admits o.written) ∧
          mandatory = (os.filter OptionSpec.mandatory).flatMap OptionSpec.regrouped ∧
          optional = (os.filter (!·.mandatory)).flatMap OptionSpec.regrouped ∧ s' = s₁ := by
  induction os generalizing fuel s with
  | nil =>
    obtain ⟨fuel, rfl⟩ : ∃ n, fuel = n + 1 := ⟨fuel - 1, by omega⟩
    rw [List.map_nil, List.nil_append] at hrest
    refine ⟨pastBlanks s, by rwa [rest_pastBlanks], known_pastBlanks s, fun m o s' => ?_⟩
    rw [options_none (by rwa [hrest])]
    simp [and_assoc, eq_comm]
  | cons o os ih =>
    obtain ⟨fuel, rfl⟩ : ∃ n, fuel = n + 1 := ⟨fuel - 1, by omega⟩
    rw [List.forall_mem_cons] at hos
    obtain ⟨hopening, hfront, hends, hnext⟩ := front_described hos.1.toSpelled
      (fun o ho => (hos.2 o ho).toSpelled) hparts hrest
    obtain ⟨s₁, hs₁, hknown₁, hiff⟩ :=
      reader_described hos.1 (s := pastBlanks s) hs hfront hends
    obtain ⟨hrest₁, hlength⟩ := hnext s₁ hs₁
    have hregistry₁ : s₁.registry = r := (congrArg Known.registry hknown₁).trans hs
    obtain ⟨s₂, hs₂, hknown₂, hiff₂⟩ := @ih s₁ fuel hos.2 hregistry₁ hrest₁ (by omega)
    refine ⟨s₂, hs₂, hknown₂.trans hknown₁, fun m opt s' => ?_⟩
    rw [options_succ_ok_iff hopening, List.forall_mem_cons]
    constructor
    · rintro ⟨declared, s₁', ⟨m', opt'⟩, hread, hrest', hadd⟩
      obtain ⟨hadmits, rfl, rfl⟩ := (hiff _ _).1 hread
      obtain ⟨hadmits', rfl, rfl, rfl⟩ := (hiff₂ _ _ _).1 hrest'
      rw [OptionForm.add_form] at hadd
      cases hmandatory : o.mandatory <;> rw [hmandatory] at hadd <;> cases hadd <;>
        exact ⟨⟨hadmits, hadmits'⟩, by simp [hmandatory], by simp [hmandatory], rfl⟩
    · rintro ⟨⟨hadmits, hadmits'⟩, rfl, rfl, rfl⟩
      refine ⟨_, s₁, _, (hiff _ _).2 ⟨hadmits, rfl, rfl⟩,
        (hiff₂ _ _ _).2 ⟨hadmits', rfl, rfl, rfl⟩, ?_⟩
      rw [OptionForm.add_form]
      cases hmandatory : o.mandatory <;> simp [hmandatory]

end Reader

end Synopsis
