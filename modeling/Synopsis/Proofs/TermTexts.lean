import Synopsis.Proofs.Identifiers
import Synopsis.Proofs.Levels
import Synopsis.Proofs.Notes
import Synopsis.Proofs.Parts

/-!
# Terms are read from what they are written as

The other direction of `Reader.terms_reads`: where `ReadsLevel` says that terms are a level, the
reader takes them from their written form, and what is known afterwards is what the relation says.
Notes are not written, so bare terms are read (`Reader.terms_complete`).
-/

namespace Synopsis

open Lexeme (StopsAt)

/-! ## How a term starts -/

/-- A character that a term other than the trailing capture starts with. -/
def startsTerm (c : Char) : Bool := c.isUpper || c.isLower || c = '(' || c = '['

theorem ReadsOne.write_start {k k' : Known} {t : Term} (h : ReadsOne k t k') :
    ∃ c cs, t.write.toList = c :: cs ∧ startsTerm c = true := by
  have hgroup (texts : List String) :
      ∃ c cs, (writeAlternatives texts).toList = c :: cs ∧ startsTerm c = true :=
    ⟨_, _, toList_writeAlternatives texts, rfl⟩
  cases h with
  | word h =>
    obtain ⟨c, cs, htext, hc⟩ := h.head
    exact ⟨c, cs, htext, by simp [startsTerm, hc]⟩
  | typed hid =>
    obtain ⟨c, cs, htext, hc⟩ := hid.head
    exact ⟨c, cs, htext, by simp [startsTerm, hc]⟩
  | choice => exact hgroup _
  | union => exact hgroup _

theorem startsTerm_solid {c : Char} (hc : startsTerm c = true) : isBlank c = false ∧ c ≠ '-' := by
  simp only [startsTerm, Bool.or_eq_true, decide_eq_true_eq] at hc
  rcases hc with (hletter | rfl) | rfl
  · have halnum : c.isAlphanum = true := by
      rcases hletter with h | h <;> simp [Char.isAlphanum, Char.isAlpha, h]
    refine ⟨isBlank_of_isAlphanum halnum, ?_⟩
    rintro rfl
    simp at halnum
  · decide
  · decide

theorem isPart_of_startsTerm {text : String} {c : Char} {cs : List Char}
    (htext : text.toList = c :: cs) (hc : startsTerm c = true) : IsPart text :=
  isPart_of_head htext (startsTerm_solid hc).1 (startsTerm_solid hc).2

theorem ReadsLevel.isPart {depth : Nat} {seen : Bool} {k k' : Known} {ts : List Term}
    (h : ReadsLevel depth seen k ts k') : ∀ text ∈ Term.writeAll ts, IsPart text := by
  induction h with
  | done => simp [Term.writeAll]
  | one h rest ih =>
    obtain ⟨c, cs, hwrite, hc⟩ := h.write_start
    exact List.forall_mem_cons.2 ⟨isPart_of_startsTerm hwrite hc, ih⟩
  | @repeated _ _ _ _ _ t _ _ h _ rest ih =>
    obtain ⟨c, cs, hwrite, hc⟩ := h.write_start
    refine List.forall_mem_cons.2 ⟨?_, ih⟩
    have htext : (Term.list t 1 none).write.toList = c :: (cs ++ "...".toList) := by
      simp [Term.write, hwrite]
    exact isPart_of_startsTerm htext hc
  | optional h rest ih =>
    refine List.forall_mem_cons.2 ⟨?_, ih⟩
    exact isPart_of_startsTerm (by simp [Term.write]; rfl) (show startsTerm '[' = true from rfl)
  | segment hne h rest ihinner ih =>
    refine List.forall_mem_cons.2 ⟨?_, ih⟩
    exact isPart_of_startsTerm (by simp [Term.write]; rfl) (show startsTerm '[' = true from rfl)
  | rest =>
    have hrest : IsPart "..." := isPart_of_head rfl (by decide) (by decide)
    simpa [Term.writeAll, Term.write] using hrest

theorem ReadsOne.bare_eq {k k' : Known} {t : Term} (h : ReadsOne k t k') : t.bare = t := by
  cases h <;> rfl

theorem Term.bareAll_ne_nil {ts : List Term} (h : ts ≠ []) : Term.bareAll ts ≠ [] := by
  cases ts with
  | nil => exact absurd rfl h
  | cons t ts => simp [Term.bareAll]

namespace Reader

variable {s s' : ReaderState}

/-! ## What a text opens with -/

section Opening

variable {c : Char} {cs : List Char}

theorem opening_of_isUpper (hc : c.isUpper = true) : opening (c :: cs) = .identifier := by
  have hne (d : Char) (hd : d.isUpper = false) : (d == c) = false := by
    rw [beq_eq_false_iff_ne]
    rintro rfl
    simp [hd] at hc
  have hid : Lexeme.identifier (c :: cs) ≠ [] := by
    rw [Lexeme.identifier, Lexeme.leading_cons hc]
    simp
  simp [opening, Lexeme.startsWith, List.isPrefixOf, hne, hid]

theorem opening_of_isLower (hc : c.isLower = true) : opening (c :: cs) = .word := by
  have hne (d : Char) (hd : d.isLower = false) : (d == c) = false := by
    rw [beq_eq_false_iff_ne]
    rintro rfl
    simp [hd] at hc
  have hid : Lexeme.identifier (c :: cs) = [] :=
    Lexeme.leading_eq_nil (by simpa using Char.not_isUpper_of_isLower hc)
  have hword : Lexeme.word (c :: cs) ≠ [] := by
    rw [Lexeme.word, Lexeme.leading_cons hc]
    simp
  simp [opening, Lexeme.startsWith, List.isPrefixOf, hne, hid, hword]

end Opening

/-! ## Rounds of a level -/

section Rounds

variable {fuel depth : Nat} {seen : Bool} {t t' : Term} {ts inner : List Term}
  {s₁ s₂ s₃ s₄ : ReaderState}

theorem terms_levelEnd (h : opening (trimStart s.rest) = .levelEnd) :
    terms (fuel + 1) depth seen s = .ok [] (pastBlanks s) := by
  simp [terms, h]

/-- The parameter of a type or a group is read to `s'`, from the blanks before it. -/
def ReadsParameter (s : ReaderState) (t : Term) (s' : ReaderState) : Prop :=
  opening (trimStart s.rest) = .identifier ∧ typed (pastBlanks s) = .ok t s' ∨
    opening (trimStart s.rest) = .group ∧ grouped (pastBlanks s) = .ok t s'

theorem terms_parameter (hterm : ReadsParameter s t s₁) (hrepeat : repeatable t s₁ = .ok t' s₂)
    (hts : terms fuel depth seen s₂ = .ok ts s₃) :
    terms (fuel + 1) depth seen s = .ok (t' :: ts) s₃ := by
  simp only [terms, keeping_bind_ok_iff, skipBlanks_ok_iff, offset_ok_iff, remaining_ok_iff]
  refine ⟨(), _, rfl, _, _, ⟨rfl, rfl⟩, _, _, ⟨rfl, rfl⟩, ?_⟩
  rw [rest_pastBlanks]
  rcases hterm with ⟨h, hterm⟩ | ⟨h, hterm⟩ <;> rw [h] <;>
    simp only [keeping_bind_ok_iff, keeping_pure_ok_iff]
  · exact ⟨t, s₁, hterm, t', s₂, hrepeat, ts, s₃, hts, rfl, rfl⟩
  · exact ⟨t, s₁, hterm, t', s₂, hrepeat, ts, s₃, hts, rfl, rfl⟩

theorem terms_word (h : opening (trimStart s.rest) = .word)
    (hterm : wordTerm (pastBlanks s) = .ok t s₁) (hts : terms fuel depth seen s₁ = .ok ts s₂) :
    terms (fuel + 1) depth seen s = .ok (t :: ts) s₂ := by
  simp only [terms, keeping_bind_ok_iff, skipBlanks_ok_iff, offset_ok_iff, remaining_ok_iff]
  refine ⟨(), _, rfl, _, _, ⟨rfl, rfl⟩, _, _, ⟨rfl, rfl⟩, ?_⟩
  rw [rest_pastBlanks, h]
  simp only [keeping_bind_ok_iff, keeping_pure_ok_iff]
  exact ⟨t, s₁, hterm, ts, s₂, hts, rfl, rfl⟩

theorem terms_segment (h : opening (trimStart s.rest) = .segment)
    (hinner : terms fuel (depth + 1) false (past "[" (pastBlanks s)) = .ok inner s₁)
    (hterm : segmentTerm inner seen (pastBlanks s).offset s₁ = .ok t s₂)
    (hts : terms fuel depth (seen || t.isSegment) s₂ = .ok ts s₃) :
    terms (fuel + 1) depth seen s = .ok (t :: ts) s₃ := by
  simp only [terms, keeping_bind_ok_iff, skipBlanks_ok_iff, offset_ok_iff, remaining_ok_iff]
  refine ⟨(), _, rfl, _, _, ⟨rfl, rfl⟩, _, _, ⟨rfl, rfl⟩, ?_⟩
  rw [rest_pastBlanks, h]
  simp only [keeping_bind_ok_iff, keeping_pure_ok_iff, acceptMark_ok_iff]
  exact ⟨_, _, ⟨rfl, rfl⟩, inner, s₁, hinner, t, s₂, hterm, ts, s₃, hts, rfl, rfl⟩

theorem terms_rest (h : opening (trimStart s.rest) = .rest)
    (hterm : restTerm depth (pastBlanks s).offset (pastBlanks s) = .ok t s₁) :
    terms (fuel + 1) depth seen s = .ok [t] s₁ := by
  simp only [terms, keeping_bind_ok_iff, skipBlanks_ok_iff, offset_ok_iff, remaining_ok_iff]
  refine ⟨(), _, rfl, _, _, ⟨rfl, rfl⟩, _, _, ⟨rfl, rfl⟩, ?_⟩
  rw [rest_pastBlanks, h]
  simp only [keeping_bind_ok_iff, keeping_pure_ok_iff]
  exact ⟨t, s₁, hterm, rfl, rfl⟩

end Rounds

/-! ## Single terms -/

section Single

variable {k k' : Known} {t : Term} {after : List Char}

theorem readsParameter_complete (h : ReadsOne k t k') (hword : t.isWord = false)
    (hknown : s.known = k) (hrest : trimStart s.rest = t.write.toList ++ after)
    (hafter : StopsAt Lexeme.identifierTail after) :
    ∃ s₁, ReadsParameter s t s₁ ∧ s₁.rest = after ∧ s₁.known = k' := by
  have hregistry : s.registry = k.registry := congrArg Known.registry hknown
  have hnumbered : s.numbered = k.numbered := congrArg Known.numbered hknown
  have hgroup {texts : List String} {group : Alternatives} {type : ValueType} {r : Registry}
      (hrest : trimStart s.rest = (writeAlternatives texts).toList ++ after)
      (htext : GroupText (writeAlternatives texts).toList group)
      (htype : group.resolve k.registry = .ok type r) :
      ∃ s₁, ReadsParameter s (group.term type) s₁ ∧ s₁.rest = after ∧
        s₁.known = ⟨r, k.numbered⟩ := by
    obtain ⟨s₁, hread, hs₁, hknown₁⟩ := alternatives_complete htext
      (s := pastBlanks s) (by rwa [rest_pastBlanks])
    have hknown₁' : s₁.known = k := by rw [hknown₁, known_pastBlanks, hknown]
    have hregistry₁ : s₁.registry = k.registry := congrArg Known.registry hknown₁'
    have hnumbered₁ : s₁.numbered = k.numbered := congrArg Known.numbered hknown₁'
    refine ⟨{ s₁ with registry := r }, Or.inr ⟨?_, ?_⟩, hs₁, ?_⟩
    · rw [hrest, toList_writeAlternatives]
      rfl
    · exact grouped_ok_iff.2 ⟨group, s₁, type, r, hread, hregistry₁ ▸ htype, rfl, rfl⟩
    · rw [ReaderState.known, hnumbered₁]
  cases h with
  | word => simp [Term.isWord] at hword
  | @typed identifier name number type r hid hname htype hnew =>
    have hfound : Lexeme.identifier (pastBlanks s).rest = identifier.toList := by
      rw [rest_pastBlanks, hrest]
      exact Lexeme.identifier_append hid hafter
    have hopening : opening (trimStart s.rest) = .identifier := by
      cases htext : identifier.toList with
      | nil => exact absurd htext hid.1
      | cons c cs =>
        rw [IsIdentifier, htext] at hid
        rw [hrest, Term.write, htext]
        exact opening_of_isUpper (Lexeme.isUpper_of_isWhole_identifier hid)
    refine ⟨_, Or.inl ⟨hopening, typed_ok_iff.2 ⟨name, number, type, r, ?_, ?_, ?_, ?_, rfl⟩⟩, ?_, ?_⟩
    · rw [hfound, String.ofList_toList, hname]
    · exact hregistry ▸ htype
    · rw [hfound, String.ofList_toList]
      exact hnumbered ▸ hnew
    · rw [hfound, String.ofList_toList]
    · show ((pastBlanks s).rest.drop (Lexeme.identifier (pastBlanks s).rest).length) = after
      rw [hfound, rest_pastBlanks, hrest, Term.write, List.drop_left]
    · have hnumbered' : (pastBlanks s).numbered = k.numbered := hnumbered
      simp only [ReaderState.known, hfound, String.ofList_toList, hnumbered']
  | choice htext htype =>
    obtain ⟨cs, htext⟩ := htext
    exact hgroup hrest htext.write_words htype
  | union htext htype =>
    obtain ⟨cs, htext⟩ := htext
    exact hgroup hrest htext.write_types htype

theorem wordTerm_complete {text : String} (h : IsWord text)
    (hrest : trimStart s.rest = text.toList ++ after) (hafter : Ends after) :
    ∃ s₁, opening (trimStart s.rest) = .word ∧
      wordTerm (pastBlanks s) = .ok (.word text) s₁ ∧ s₁.rest = after ∧ s₁.known = s.known := by
  have hfound : Lexeme.word (pastBlanks s).rest = text.toList := by
    rw [rest_pastBlanks, hrest]
    exact Lexeme.word_append h <|
      Lexeme.stopsAt_of_atBoundary (fun _ => Lexeme.optionTail_of_wordTail) hafter.boundary
  have hrest₁ : ((pastBlanks s).advance (Lexeme.word (pastBlanks s).rest).length).rest = after := by
    rw [ReaderState.rest_advance, hfound, rest_pastBlanks, hrest, List.drop_left]
  refine ⟨_, ?_, wordTerm_ok_iff.2 ⟨?_, rfl, ?_, ?_⟩, hrest₁, rfl⟩
  · cases htext : text.toList with
    | nil => exact absurd htext h.1
    | cons c cs =>
      rw [IsWord, htext] at h
      rw [hrest, htext]
      exact opening_of_isLower (Lexeme.isLower_of_isWhole_word h)
  · rw [hfound, String.ofList_toList]
  · rw [hrest₁, hafter.boundary]
  · rw [hrest₁, hafter.no_note]

theorem repeatable_once (hs : Ends s.rest) : repeatable t s = .ok t s :=
  repeatable_ok_iff.2 (Or.inr ⟨hs.startsWith_dots, hs.boundary, hs.no_note, rfl, rfl⟩)

theorem repeatable_list (hrest : s.rest = "...".toList ++ after) (hafter : Ends after) :
    repeatable t s = .ok (.list t 1 none) (past "..." s) := by
  have hpast : (past "..." s).rest = after := rest_past hrest
  refine repeatable_ok_iff.2 (Or.inl ⟨Lexeme.startsWith_iff.2 ⟨after, hrest⟩, ?_, none, ?_, rfl⟩)
  · rw [hpast, hafter.boundary]
  · exact Ends.note (hpast ▸ hafter)

theorem terms_one (h : ReadsOne k t k') (hknown : s.known = k)
    (hrest : trimStart s.rest = t.write.toList ++ after) (hafter : Ends after) :
    ∃ s₁, s₁.rest = after ∧ s₁.known = k' ∧
      ∀ fuel depth seen ts s', terms fuel depth seen s₁ = .ok ts s' →
        terms (fuel + 1) depth seen s = .ok (t :: ts) s' := by
  cases hword : t.isWord with
  | false =>
    obtain ⟨s₁, hread, hs₁, hknown₁⟩ := readsParameter_complete h hword hknown hrest <|
      Lexeme.stopsAt_of_atBoundary (fun _ => Lexeme.optionTail_of_identifierTail) hafter.boundary
    refine ⟨s₁, hs₁, hknown₁, fun fuel depth seen ts s' hts => ?_⟩
    exact terms_parameter hread (repeatable_once (hs₁ ▸ hafter)) hts
  | true =>
    cases h with
    | word h =>
      obtain ⟨s₁, hopening, hread, hs₁, hknown₁⟩ := wordTerm_complete h hrest hafter
      refine ⟨s₁, hs₁, hknown₁.trans hknown, fun fuel depth seen ts s' hts => ?_⟩
      exact terms_word hopening hread hts
    | _ => simp [Term.isWord] at hword

theorem terms_repeated (h : ReadsOne k t k') (hword : t.isWord = false) (hknown : s.known = k)
    (hrest : trimStart s.rest = t.write.toList ++ ("...".toList ++ after)) (hafter : Ends after) :
    ∃ s₁, s₁.rest = after ∧ s₁.known = k' ∧
      ∀ fuel depth seen ts s', terms fuel depth seen s₁ = .ok ts s' →
        terms (fuel + 1) depth seen s = .ok (.list t 1 none :: ts) s' := by
  obtain ⟨s₁, hread, hs₁, hknown₁⟩ := readsParameter_complete h hword hknown hrest <|
    Lexeme.stopsAt_cons (by decide)
  refine ⟨past "..." s₁, rest_past hs₁, by simpa using hknown₁, fun fuel depth seen ts s' hts => ?_⟩
  exact terms_parameter hread (repeatable_list hs₁ hafter) hts

end Single

/-! ## Segments -/

section Segments

variable {k k' : Known} {t : Term} {inner : List Term} {start : Nat} {after : List Char}

theorem rest_past_open {cs : List Char} (hrest : trimStart s.rest = '[' :: cs) :
    (past "[" (pastBlanks s)).rest = cs ∧ cs.length < s.rest.length := by
  refine ⟨rest_past (by rwa [rest_pastBlanks]), ?_⟩
  have hlength : (trimStart s.rest).length ≤ s.rest.length := List.length_dropWhile_le _ _
  rwa [hrest] at hlength

theorem rest_past_bracket (hrest : s.rest = ']' :: after) :
    Lexeme.startsWith "]" (trimStart s.rest) = true ∧
      (past "]" (pastBlanks s)).rest = after := by
  have htrim : trimStart s.rest = ']' :: after := by
    rw [hrest]
    exact trimStart_of_stopsAt (Lexeme.stopsAt_cons (by decide))
  exact ⟨Lexeme.startsWith_iff.2 ⟨after, htrim⟩, rest_past (by rwa [rest_pastBlanks])⟩

theorem segmentTerm_complete (hne : inner ≠ []) (hrest : s.rest = ']' :: after)
    (hafter : Ends after) :
    ∃ s₁, (∀ start, segmentTerm inner false start s = .ok (.segment inner) s₁) ∧
      s₁.rest = after ∧ s₁.known = s.known := by
  obtain ⟨hclose, hpast⟩ := rest_past_bracket hrest
  refine ⟨past "]" (pastBlanks s), fun start => segmentTerm_ok_iff.2
    ⟨hclose, Or.inr ⟨?_, rfl, hne, rfl, ?_, rfl⟩⟩, hpast, by simp⟩
  · rw [hpast, hafter.startsWith_dots]
  · rw [hpast, hafter.no_note]

theorem segmentTerm_list (h : ReadsOne k t k')
    (hrest : s.rest = ']' :: ("...".toList ++ after)) (hafter : Ends after) :
    ∃ s₁, (∀ seen start, segmentTerm [t] seen start s = .ok (.list t 0 none) s₁) ∧
      s₁.rest = after ∧ s₁.known = s.known := by
  obtain ⟨hclose, hpast⟩ := rest_past_bracket hrest
  have hdots : Lexeme.startsWith "..." (past "]" (pastBlanks s)).rest = true :=
    Lexeme.startsWith_iff.2 ⟨after, hpast⟩
  have hpast' : (past "..." (past "]" (pastBlanks s))).rest = after := rest_past hpast
  refine ⟨past "..." (past "]" (pastBlanks s)), fun seen start =>
    segmentTerm_ok_iff.2 ⟨hclose, Or.inl ⟨hdots, repeatedSegment_ok_iff.2 ?_⟩⟩, hpast', by simp⟩
  exact ⟨t, none, rfl, h.containsList_eq_false, h.isSegment_eq_false, h.isRest_eq_false,
    by rw [hpast', hafter.boundary], Ends.note (hpast' ▸ hafter), rfl⟩

theorem terms_optional (h : ReadsOne k t k') (hknown : s.known = k)
    (hrest : trimStart s.rest = '[' :: (t.write.toList ++ (']' :: ("...".toList ++ after))))
    (hafter : Ends after) :
    ∃ s₁, s₁.rest = after ∧ s₁.known = k' ∧
      ∀ fuel depth seen ts s', 2 ≤ fuel → terms fuel depth seen s₁ = .ok ts s' →
        terms (fuel + 1) depth seen s = .ok (.list t 0 none :: ts) s' := by
  have hpast := (rest_past_open hrest).1
  have htrim : trimStart (past "[" (pastBlanks s)).rest =
      t.write.toList ++ (']' :: ("...".toList ++ after)) := by
    obtain ⟨c, cs, hwrite, hc⟩ := h.write_start
    have hpart := isPart_of_startsTerm hwrite hc
    rw [hpast]
    refine trimStart_of_stopsAt fun d hd => hpart.solid d ?_
    rwa [List.head?_append_of_ne_nil _ hpart.ne_nil] at hd
  obtain ⟨s₁, hs₁, hknown₁, hone⟩ := terms_one h (by simpa using hknown) htrim (ends_bracket _)
  have htrim₁ : trimStart s₁.rest = ']' :: ("...".toList ++ after) := by
    rw [hs₁]
    exact trimStart_of_stopsAt (Lexeme.stopsAt_cons (by decide))
  obtain ⟨s₂, hterm, hs₂, hknown₂⟩ :=
    segmentTerm_list (s := pastBlanks s₁) h (by rwa [rest_pastBlanks]) hafter
  refine ⟨s₂, hs₂, by simpa [hknown₁] using hknown₂, fun fuel depth seen ts s' hfuel hts => ?_⟩
  obtain ⟨fuel, rfl⟩ : ∃ n, fuel = n + 2 := ⟨fuel - 2, by omega⟩
  have hend : terms (fuel + 1) (depth + 1) false s₁ = .ok [] (pastBlanks s₁) := by
    refine terms_levelEnd ?_
    rw [htrim₁]
    rfl
  have hopening : opening (trimStart s.rest) = .segment := by
    rw [hrest]
    rfl
  refine terms_segment hopening (hone _ _ _ _ _ hend) (hterm _ _) ?_
  simpa [Term.isSegment] using hts

end Segments

/-! ## Levels -/

/-- Where the terms of a level end: at the end of the text, or at the bracket of the segment. -/
def EndsLevel (depth : Nat) (after : List Char) : Prop :=
  after = [] ∨ 0 < depth ∧ ∃ cs, after = ']' :: cs

theorem EndsLevel.ends {depth : Nat} {after : List Char} (h : EndsLevel depth after) :
    Ends after ∧ StopsAt isBlank after ∧ opening after = .levelEnd := by
  rcases h with rfl | ⟨-, cs, rfl⟩
  · exact ⟨ends_nil, by simp [StopsAt], rfl⟩
  · exact ⟨ends_bracket cs, Lexeme.stopsAt_cons (by decide), rfl⟩

/-- The terms are read from their written form, notes aside, where a level at this depth ends. -/
def ReadBack (depth : Nat) (seen : Bool) (k : Known) (ts : List Term) (k' : Known) : Prop :=
  ∀ (fuel : Nat) (s : ReaderState) (after : List Char), s.known = k →
    trimStart s.rest = joined (Term.writeAll ts) ++ after → EndsLevel depth after →
    s.rest.length < fuel →
    ∃ s', terms fuel depth seen s = .ok (Term.bareAll ts) s' ∧ s'.rest = after ∧ s'.known = k'

section Levels

variable {depth : Nat} {seen seen' : Bool} {k k₁ k' : Known} {t : Term} {ts inner : List Term}

theorem readBack_done : ReadBack depth seen k [] k := by
  intro fuel s after hknown hrest hafter hfuel
  obtain ⟨fuel, rfl⟩ := Nat.exists_eq_add_one.2 (Nat.zero_lt_of_lt hfuel)
  rw [Term.writeAll, joined_nil, List.nil_append] at hrest
  exact ⟨pastBlanks s, terms_levelEnd (by rw [hrest, hafter.ends.2.2]), by simpa using hrest,
    by simpa using hknown⟩

/-- Past the first term of a level, the others are read. -/
theorem ReadBack.next (ih : ReadBack depth seen' k₁ ts k')
    (hparts : ∀ part ∈ Term.writeAll (t :: ts), IsPart part) {fuel : Nat} {s₁ : ReaderState}
    {after : List Char} (hrest : trimStart s.rest = joined (Term.writeAll (t :: ts)) ++ after)
    (hafter : EndsLevel depth after) (hfuel : s.rest.length < fuel + 1)
    (hs₁ : s₁.rest = spaced (Term.writeAll ts) ++ after) (hknown₁ : s₁.known = k₁)
    (hgoesOn : ∀ s', terms fuel depth seen' s₁ = .ok (Term.bareAll ts) s' →
      terms (fuel + 1) depth seen s = .ok (t.bare :: Term.bareAll ts) s') :
    ∃ s', terms (fuel + 1) depth seen s = .ok (Term.bareAll (t :: ts)) s' ∧ s'.rest = after ∧
      s'.known = k' := by
  rw [Term.writeAll, List.forall_mem_cons] at hparts
  obtain ⟨hrest₁, hlength⟩ := next_part hparts.1 hparts.2 hafter.ends.2.1 hrest hs₁
  obtain ⟨s', hts, hs', hknown'⟩ := ih fuel s₁ after hknown₁ hrest₁ hafter (by omega)
  exact ⟨s', hgoesOn s' hts, hs', hknown'⟩

theorem readBack_one (h : ReadsOne k t k₁) (rest : ReadsLevel depth seen k₁ ts k')
    (ih : ReadBack depth seen k₁ ts k') : ReadBack depth seen k (t :: ts) k' := by
  intro fuel s after hknown hrest hafter hfuel
  obtain ⟨fuel, rfl⟩ := Nat.exists_eq_add_one.2 (Nat.zero_lt_of_lt hfuel)
  obtain ⟨s₁, hs₁, hknown₁, hgoesOn⟩ := terms_one h hknown
    (by simpa [Term.writeAll] using hrest) (ends_spaced rest.isPart hafter.ends.1)
  refine ih.next (ReadsLevel.one h rest).isPart hrest hafter hfuel hs₁ hknown₁ ?_
  rw [h.bare_eq]
  exact fun s' => hgoesOn _ _ _ _ _

theorem readBack_repeated {note : Option String} (h : ReadsOne k t k₁) (hword : t.isWord = false)
    (rest : ReadsLevel depth seen k₁ ts k') (ih : ReadBack depth seen k₁ ts k') :
    ReadBack depth seen k (.list t 1 note :: ts) k' := by
  intro fuel s after hknown hrest hafter hfuel
  obtain ⟨fuel, rfl⟩ := Nat.exists_eq_add_one.2 (Nat.zero_lt_of_lt hfuel)
  obtain ⟨s₁, hs₁, hknown₁, hgoesOn⟩ := terms_repeated h hword hknown
    (by simpa [Term.writeAll, Term.write] using hrest) (ends_spaced rest.isPart hafter.ends.1)
  refine ih.next (ReadsLevel.repeated h hword rest).isPart hrest hafter hfuel hs₁ hknown₁ ?_
  rw [Term.bare, h.bare_eq]
  exact fun s' => hgoesOn _ _ _ _ _

theorem readBack_optional {note : Option String} (h : ReadsOne k t k₁)
    (rest : ReadsLevel depth seen k₁ ts k') (ih : ReadBack depth seen k₁ ts k') :
    ReadBack depth seen k (.list t 0 note :: ts) k' := by
  intro fuel s after hknown hrest hafter hfuel
  obtain ⟨fuel, rfl⟩ := Nat.exists_eq_add_one.2 (Nat.zero_lt_of_lt hfuel)
  have hopen : trimStart s.rest = '[' :: (t.write.toList ++ (']' :: ("...".toList ++
      (spaced (Term.writeAll ts) ++ after)))) := by
    rw [hrest]
    simp [Term.writeAll, Term.write]
  have hlength := (rest_past_open hopen).2
  simp only [List.length_append, List.length_cons] at hlength
  obtain ⟨s₁, hs₁, hknown₁, hgoesOn⟩ :=
    terms_optional h hknown hopen (ends_spaced rest.isPart hafter.ends.1)
  refine ih.next (@ReadsLevel.optional _ _ _ _ _ _ _ note h rest).isPart hrest hafter hfuel hs₁
    hknown₁ ?_
  rw [Term.bare, h.bare_eq]
  exact fun s' => hgoesOn _ _ _ _ _ (by omega)

/-- The bracket that closes a segment ends the level of its terms. -/
theorem readBack_segment (hne : inner ≠ []) (h : ReadsLevel (depth + 1) false k inner k₁)
    (rest : ReadsLevel depth true k₁ ts k') (ihinner : ReadBack (depth + 1) false k inner k₁)
    (ih : ReadBack depth true k₁ ts k') : ReadBack depth false k (.segment inner :: ts) k' := by
  intro fuel s after hknown hrest hafter hfuel
  obtain ⟨fuel, rfl⟩ := Nat.exists_eq_add_one.2 (Nat.zero_lt_of_lt hfuel)
  have hopen : trimStart s.rest = '[' :: (joined (Term.writeAll inner) ++
      (']' :: (spaced (Term.writeAll ts) ++ after))) := by
    rw [hrest, Term.writeAll, Term.write, joined_cons, String.toList_append, String.toList_append,
      toList_intercalate_blank]
    simp
  obtain ⟨hpast, hlength⟩ := rest_past_open hopen
  have hinner : trimStart (past "[" (pastBlanks s)).rest = joined (Term.writeAll inner) ++
      (']' :: (spaced (Term.writeAll ts) ++ after)) := by
    rw [hpast]
    exact trimStart_of_stopsAt (stopsAt_joined h.isPart (Lexeme.stopsAt_cons (by decide)))
  obtain ⟨s₁, hread, hs₁, hknown₁⟩ := ihinner fuel _ _ (by simpa using hknown) hinner
    (Or.inr ⟨Nat.succ_pos _, _, rfl⟩)
    (Nat.lt_of_lt_of_le (hpast ▸ hlength) (Nat.le_of_lt_succ hfuel))
  obtain ⟨s₂, hterm, hs₂, hknown₂⟩ :=
    segmentTerm_complete (Term.bareAll_ne_nil hne) hs₁ (ends_spaced rest.isPart hafter.ends.1)
  have hopening : opening (trimStart s.rest) = .segment := by
    rw [hopen]
    rfl
  exact ih.next (ReadsLevel.segment hne h rest).isPart hrest hafter hfuel hs₂
    (hknown₂.trans hknown₁) fun s' => terms_segment hopening hread (hterm _)

theorem readBack_rest : ReadBack 0 seen k [.rest] k := by
  intro fuel s after hknown hrest hafter hfuel
  obtain ⟨fuel, rfl⟩ := Nat.exists_eq_add_one.2 (Nat.zero_lt_of_lt hfuel)
  obtain rfl : after = [] := hafter.resolve_right fun h => absurd h.1 (lt_irrefl 0)
  have hpast : (past "..." (pastBlanks s)).rest = [] := by
    refine rest_past ?_
    rw [rest_pastBlanks, hrest]
    simp [Term.writeAll, Term.write]
  have hopening : opening (trimStart s.rest) = .rest := by
    rw [hrest]
    rfl
  refine ⟨pastBlanks (past "..." (pastBlanks s)),
    terms_rest hopening (restTerm_ok_iff.2 ⟨rfl, rfl, rfl, ?_⟩), by simp [hpast, trimStart],
    by simpa using hknown⟩
  simp [hpast, trimStart]

/-- **The terms of a level are read from their written form**, notes aside. -/
theorem terms_complete (h : ReadsLevel depth seen k ts k') : ReadBack depth seen k ts k' := by
  induction h with
  | done => exact readBack_done
  | one h rest ih => exact readBack_one h rest ih
  | repeated h hword rest ih => exact readBack_repeated h hword rest ih
  | optional h rest ih => exact readBack_optional h rest ih
  | segment hne h rest ihinner ih => exact readBack_segment hne h rest ihinner ih
  | rest => exact readBack_rest

end Levels

end Reader

end Synopsis
