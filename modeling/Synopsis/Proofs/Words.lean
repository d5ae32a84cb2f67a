import Synopsis.Proofs.OptionTexts
import Synopsis.Proofs.TermTexts

/-!
# Where words, options and terms of a text end

The words of a command go on while a word stands at the cursor (`Lexeme.startsWord`). No option and
no term but a word starts with one, and no term starts as an option does, so words that are followed
by described options, or by terms of which the first is no word, are read up to these and not
further (`Reader.words_complete`). In a text without options the first term is never a word, as it
would have been one of the command (`Reader.startsWord_of_terms`).
-/

namespace Synopsis

/-- A word of the command stands at the cursor. -/
def Lexeme.startsWord (cs : List Char) : Bool :=
  !((word cs).isEmpty || !atBoundary (cs.drop (word cs).length))

open Lexeme (StopsAt startsWord)

theorem startsWord_of_head {c : Char} (hc : c.isLower = false) (cs : List Char) :
    startsWord (c :: cs) = false := by
  have hword : Lexeme.word (c :: cs) = [] := Lexeme.leading_eq_nil hc
  simp [startsWord, hword]

theorem startsWord_iff {cs : List Char} :
    startsWord cs = true ↔
      Lexeme.word cs ≠ [] ∧ Lexeme.atBoundary (cs.drop (Lexeme.word cs).length) = true := by
  simp [startsWord]

namespace Reader

variable {s s' : ReaderState} {fuel : Nat}

/-! ## Words -/

/-- The state after the word at the cursor and the blanks after it. -/
def pastWord (s : ReaderState) : ReaderState :=
  pastBlanks (s.advance (Lexeme.word s.rest).length)

theorem rest_pastWord (s : ReaderState) :
    (pastWord s).rest = trimStart (s.rest.drop (Lexeme.word s.rest).length) := by
  rw [pastWord, rest_pastBlanks, ReaderState.rest_advance]

theorem words_succ_ok_iff {ws : List String} :
    words (fuel + 1) s = .ok ws s' ↔
      startsWord s.rest = false ∧ ws = [] ∧ s' = s ∨
        startsWord s.rest = true ∧ ∃ rest, words fuel (pastWord s) = .ok rest s' ∧
          ws = String.ofList (Lexeme.word s.rest) :: rest := by
  have hcondition : ((Lexeme.word s.rest).isEmpty ||
      !Lexeme.atBoundary (s.rest.drop (Lexeme.word s.rest).length)) = !startsWord s.rest := by
    rw [startsWord, Bool.not_not]
  have hrun : words (fuel + 1) s = .ok ws s' ↔
      (if !startsWord s.rest then pure [] else do
        let _ ← accept Lexeme.word
        skipBlanks
        return String.ofList (Lexeme.word s.rest) :: (← words fuel) : Reader (List String)) s =
        .ok ws s' := by
    rw [← hcondition]
    rfl
  rw [hrun]
  cases hword : startsWord s.rest with
  | false => simp [eq_comm]
  | true =>
    simp [pastWord, and_comm]

theorem length_pastWord (h : startsWord s.rest = true) :
    (pastWord s).rest.length < s.rest.length := by
  obtain ⟨hne, -⟩ := startsWord_iff.1 h
  have hpos := List.length_pos_of_ne_nil hne
  have hlength := congrArg List.length (@Lexeme.word_append_drop s.rest)
  have htrim : (trimStart (s.rest.drop (Lexeme.word s.rest).length)).length ≤
      (s.rest.drop (Lexeme.word s.rest).length).length := List.length_dropWhile_le _ _
  rw [List.length_append] at hlength
  rw [rest_pastWord]
  omega

/-- Words are read up to where none stands. -/
theorem words_sound {ws : List String} (h : words fuel s = .ok ws s') (hfuel : s.rest.length < fuel)
    (htrim : trimStart s.rest = s.rest) :
    (∀ w ∈ ws, IsWord w) ∧ s'.known = s.known ∧ startsWord s'.rest = false ∧
      trimStart s'.rest = s'.rest := by
  induction fuel generalizing s ws with
  | zero => omega
  | succ fuel ih =>
    rcases words_succ_ok_iff.1 h with ⟨hstop, rfl, rfl⟩ | ⟨hword, rest, hrest, rfl⟩
    · exact ⟨by simp, rfl, hstop, htrim⟩
    · have hlength := length_pastWord hword
      have htrim' : trimStart (pastWord s).rest = (pastWord s).rest := by
        rw [rest_pastWord]
        exact List.dropWhile_idempotent _ _
      obtain ⟨hws, hknown, hstop⟩ := ih hrest (by omega) htrim'
      refine ⟨List.forall_mem_cons.2 ⟨?_, hws⟩, hknown, hstop⟩
      simpa [IsWord] using Lexeme.isWhole_word (startsWord_iff.1 hword).1

theorem isPart_of_isWord {w : String} (h : IsWord w) : IsPart w := by
  obtain ⟨c, cs, hw, hc⟩ := (ReadsOne.word (k := ⟨.empty, []⟩) h).write_start
  exact isPart_of_startsTerm hw hc

/-- **Words are read from their written form**, up to a part that is none. -/
theorem words_complete {ws parts : List String} (hws : ∀ w ∈ ws, IsWord w)
    (hparts : ∀ part ∈ parts, IsPart part) (hstop : startsWord (joined parts) = false)
    (hrest : s.rest = joined (ws ++ parts)) (hfuel : s.rest.length < fuel) :
    ∃ s', words fuel s = .ok ws s' ∧ s'.rest = joined parts ∧ s'.known = s.known := by
  induction ws generalizing s fuel with
  | nil =>
    obtain ⟨fuel, rfl⟩ : ∃ n, fuel = n + 1 := ⟨fuel - 1, by omega⟩
    rw [List.nil_append] at hrest
    exact ⟨s, words_succ_ok_iff.2 (Or.inl ⟨hrest ▸ hstop, rfl, rfl⟩), hrest, rfl⟩
  | cons w ws ih =>
    obtain ⟨fuel, rfl⟩ : ∃ n, fuel = n + 1 := ⟨fuel - 1, by omega⟩
    rw [List.forall_mem_cons] at hws
    have hparts' : ∀ part ∈ ws ++ parts, IsPart part := by
      intro part hpart
      rcases List.mem_append.1 hpart with hpart | hpart
      · exact isPart_of_isWord (hws.2 part hpart)
      · exact hparts part hpart
    rw [List.cons_append, joined_cons] at hrest
    have hends : Ends (spaced (ws ++ parts)) := by
      simpa using ends_spaced hparts' ends_nil
    have hword : Lexeme.word s.rest = w.toList := by
      rw [hrest]
      exact Lexeme.word_append hws.1 <|
        Lexeme.stopsAt_of_atBoundary (fun _ => Lexeme.optionTail_of_wordTail) hends.boundary
    have hdrop : s.rest.drop (Lexeme.word s.rest).length = spaced (ws ++ parts) := by
      rw [hword, hrest, List.drop_left]
    have hstarts : startsWord s.rest = true :=
      startsWord_iff.2 ⟨hword ▸ hws.1.1, hdrop ▸ hends.boundary⟩
    have hnext : (pastWord s).rest = joined (ws ++ parts) := by
      rw [rest_pastWord, hdrop]
      simpa using @trimStart_spaced (ws ++ parts) [] hparts' (by simp [StopsAt])
    have hlength := length_pastWord hstarts
    obtain ⟨s', hread, hs', hknown⟩ := @ih (pastWord s) fuel hws.2 hnext (by omega)
    refine ⟨s', words_succ_ok_iff.2 (Or.inr ⟨hstarts, ws, hread, ?_⟩), hs', hknown⟩
    rw [hword, String.ofList_toList]

end Reader

/-! ## Where no option stands -/

theorem Shared.addLong_ne_nil (shared : Shared) (declared : List Declaration) (spelling : String) :
    shared.addLong declared spelling ≠ [] := by
  unfold addLong
  split
  · simp
  · cases declared with
    | nil => simp [joinAffirmative]
    | cons d declared => cases hside : d.negated <;> simp [joinAffirmative, hside]

theorem Shared.declares_ne_nil (shared : Shared) {spellings : List String} (hne : spellings ≠ []) :
    shared.declares spellings ≠ [] := by
  unfold declares
  cases hshort : spellings.find? (!startsLong ·) with
  | some short => cases (spellings.filter startsLong).foldl shared.addLong [] <;> simp [joinShort]
  | none =>
    have hlong : spellings.filter startsLong = spellings := by
      simpa [List.filter_eq_self] using hshort
    obtain ⟨first, last, rfl⟩ := (List.eq_nil_or_concat' spellings).resolve_left hne
    rw [hlong, List.foldl_append]
    exact shared.addLong_ne_nil _ _

theorem ReadsGroup.ne_nil {k k' : Known} {declared : List Declaration}
    (h : ReadsGroup k declared k') : declared ≠ [] := by
  cases h with
  | mk hne => exact Shared.declares_ne_nil _ hne

namespace Reader

variable {s s' : ReaderState} {fuel : Nat}

theorem options_nil (h : options (fuel + 1) s = .ok ([], []) s') :
    s' = pastBlanks s := by
  cases hform : optionForm? (trimStart s.rest) with
  | none =>
    rw [options_none hform] at h
    cases h
    rfl
  | some form =>
    obtain ⟨declared, s₁, ⟨mandatory, optional⟩, hread, -, hadd⟩ := (options_succ_ok_iff hform).1 h
    have hgroup : ReadsGroup (pastBlanks s).known declared s₁.known := by
      have hsound := optionForm_sound (trimStart s.rest)
      rw [hform] at hsound
      cases form with
      | bracketed => exact optionGroup_reads (by simpa using hsound) hread
      | parenthesized => exact optionGroup_reads (by simpa using hsound) hread
      | bare => exact bareOption_reads hread
    cases form <;> simp [OptionForm.add, hgroup.ne_nil] at hadd

theorem startsWord_of_terms {depth : Nat} {seen : Bool} {text : String} {ts : List Term}
    (h : terms fuel depth seen s = .ok (.word text :: ts) s') :
    startsWord (trimStart s.rest) = true := by
  cases fuel with
  | zero => simp [terms] at h
  | succ fuel =>
    simp only [terms, keeping_bind_ok_iff, skipBlanks_ok_iff, offset_ok_iff, remaining_ok_iff] at h
    obtain ⟨-, _, rfl, _, _, ⟨rfl, rfl⟩, _, _, ⟨rfl, rfl⟩, h⟩ := h
    have hopening := opening_sound (pastBlanks s).rest
    rw [← rest_pastBlanks]
    generalize pastBlanks s = s at h hopening ⊢
    have hrepeatable {term t : Term} {s s' : ReaderState} (hterm : term.isWord = false)
        (h : repeatable term s = .ok t s') : t.isWord = false := by
      rcases repeatable_ok_iff.1 h with ⟨-, -, _, -, rfl⟩ | ⟨-, -, -, rfl, -⟩
      · rfl
      · exact hterm
    cases hcase : opening s.rest <;> rw [hcase] at h hopening <;>
      simp only [keeping_bind_ok_iff, keeping_pure_ok_iff] at h
    case levelEnd => simp at h
    case segment =>
      obtain ⟨_, s₀, -, inner, s₁, -, t, s₂, hterm, ts, s₃, -, heq, -⟩ := h
      obtain ⟨rfl, -⟩ := List.cons.inj heq
      rcases segmentTerm_ok_iff.1 hterm with ⟨-, ⟨-, h⟩ | ⟨-, -, -, -, -, h⟩⟩
      · obtain ⟨term, note, -, -, -, -, -, -, h⟩ := repeatedSegment_ok_iff.1 h
        simp at h
      · simp at h
    case rest =>
      obtain ⟨t, s₁, hterm, heq, -⟩ := h
      obtain ⟨-, rfl, -⟩ := restTerm_ok_iff.1 hterm
      simp at heq
    case group =>
      obtain ⟨t, s₁, hgroup, t', s₂, hterm, ts, s₃, -, heq, -⟩ := h
      obtain ⟨rfl, -⟩ := List.cons.inj heq
      have hword := hrepeatable (grouped_reads hopening hgroup).2 hterm
      simp [Term.isWord] at hword
    case identifier =>
      obtain ⟨t, s₁, htyped, t', s₂, hterm, ts, s₃, -, heq, -⟩ := h
      obtain ⟨rfl, -⟩ := List.cons.inj heq
      have hword := hrepeatable (typed_reads hopening htyped).2 hterm
      simp [Term.isWord] at hword
    case word =>
      obtain ⟨t, s₁, hterm, -⟩ := h
      obtain ⟨-, rfl, hboundary, -⟩ := wordTerm_ok_iff.1 hterm
      exact startsWord_iff.2 ⟨hopening, hboundary⟩
    case option => simp at h
    case unexpected => simp at h

end Reader

/-! ## How options and terms start -/

open Reader (optionForm?)

theorem OptionSpec.Spelled.startsWord {o : OptionSpec} (ho : o.Spelled) (cs : List Char) :
    startsWord (o.describe.toList ++ cs) = false := by
  obtain ⟨ds, hds⟩ := barred_head ho.ne_nil ho.valid
  rw [o.toList_describe, hds]
  cases o.form <;> exact startsWord_of_head (by decide) _

/-- A text that starts with no bracket and no hyphen starts no option. -/
theorem optionForm?_of_head {c : Char} (hc : c ≠ '-') (hbracket : c ≠ '[') (hparenthesis : c ≠ '(')
    (cs : List Char) : optionForm? (c :: cs) = none := by
  have hoption : Lexeme.option (c :: cs) = [] := by
    unfold Lexeme.option
    split <;> simp_all
  simp [optionForm?, Lexeme.opensOption, hbracket, hparenthesis, hoption]

/-- A bracket without a hyphen after it starts no option. -/
theorem optionForm?_of_bracket {c d : Char} (hc : c ≠ '-') (hblank : isBlank d = false) (hd : d ≠ '-')
    (cs : List Char) : optionForm? (c :: d :: cs) = none := by
  have hoption : Lexeme.option (c :: d :: cs) = [] := by
    unfold Lexeme.option
    split <;> simp_all
  have htrim : trimStart (d :: cs) = d :: cs :=
    trimStart_of_stopsAt (Lexeme.stopsAt_cons hblank)
  simp [optionForm?, Lexeme.opensOption, htrim, hd, hoption]

/-- The text of a group starts no option, and no word. -/
theorem GroupText.starts {cs : List Char} {group : Alternatives} (h : GroupText cs group)
    (after : List Char) :
    optionForm? (cs ++ after) = none ∧ startsWord (cs ++ after) = false := by
  obtain ⟨blanks, items, l, hblanks, hitems, -, rfl⟩ := h
  refine ⟨?_, startsWord_of_head (by decide) _⟩
  have htrim : trimStart (blanks ++ (items ++ ')' :: after)) = items ++ ')' :: after :=
    Lexeme.trimStart_append hblanks (hitems.stopsAt_blank _)
  obtain ⟨d, ds, rfl, hd⟩ := hitems.head
  have hne : (trimStart (blanks ++ (d :: ds ++ ')' :: after))).head? ≠ some '-' := by
    rw [htrim, List.cons_append, List.head?_cons, Ne, Option.some_inj]
    rintro rfl
    simp at hd
  simpa [optionForm?, Lexeme.opensOption, Lexeme.option] using hne

namespace ReadsOne

variable {k k' : Known} {t : Term}

theorem optionForm?_write (h : ReadsOne k t k') (after : List Char) :
    optionForm? (t.write.toList ++ after) = none := by
  have hletter (c : Char) (hc : c.isUpper = true ∨ c.isLower = true) (cs : List Char) :
      optionForm? (c :: cs) = none := by
    refine optionForm?_of_head ?_ ?_ ?_ cs <;> rintro rfl <;> simp at hc
  cases h with
  | word h =>
    obtain ⟨c, cs, htext, hc⟩ := h.head
    rw [Term.write, htext]
    exact hletter c (Or.inr hc) _
  | typed hid =>
    obtain ⟨c, cs, htext, hc⟩ := hid.head
    rw [Term.write, htext]
    exact hletter c (Or.inl hc) _
  | choice hgroup =>
    obtain ⟨_, hgroup⟩ := hgroup
    exact (hgroup.write_words.starts after).1
  | union hgroup =>
    obtain ⟨_, hgroup⟩ := hgroup
    exact (hgroup.write_types.starts after).1

theorem startsWord_write (h : ReadsOne k t k') (hword : t.isWord = false) (after : List Char) :
    startsWord (t.write.toList ++ after) = false := by
  cases h with
  | word h => simp [Term.isWord] at hword
  | typed hid =>
    obtain ⟨c, cs, htext, hc⟩ := hid.head
    rw [Term.write, htext]
    exact startsWord_of_head (by simpa using Char.not_isLower_of_isUpper hc) _
  | choice hgroup =>
    obtain ⟨_, hgroup⟩ := hgroup
    exact (hgroup.write_words.starts after).2
  | union hgroup =>
    obtain ⟨_, hgroup⟩ := hgroup
    exact (hgroup.write_types.starts after).2

end ReadsOne

namespace ReadsLevel

variable {depth : Nat} {seen : Bool} {k k' : Known} {ts : List Term}

theorem joined_start (h : ReadsLevel (depth + 1) seen k ts k') (hne : ts ≠ []) :
    ∃ c cs, joined (Term.writeAll ts) = c :: cs ∧ startsTerm c = true := by
  cases h with
  | done => exact absurd rfl hne
  | one h rest =>
    obtain ⟨c, cs, hwrite, hc⟩ := h.write_start
    exact ⟨c, _, by rw [Term.writeAll, joined_cons, hwrite]; rfl, hc⟩
  | repeated h hword rest =>
    obtain ⟨c, cs, hwrite, hc⟩ := h.write_start
    exact ⟨c, _, by simp [Term.writeAll, Term.write, hwrite]; rfl, hc⟩
  | optional h rest => exact ⟨'[', _, by simp [Term.writeAll, Term.write]; rfl, rfl⟩
  | segment hne h rest => exact ⟨'[', _, by simp [Term.writeAll, Term.write]; rfl, rfl⟩

/-- **No level starts as an option does.** -/
theorem optionForm?_joined (h : ReadsLevel depth seen k ts k') :
    optionForm? (joined (Term.writeAll ts)) = none := by
  have hbracket {c : Char} (hc : startsTerm c = true) (cs : List Char) :
      optionForm? ('[' :: c :: cs) = none :=
    optionForm?_of_bracket (by decide) (startsTerm_solid hc).1 (startsTerm_solid hc).2 cs
  cases h with
  | done => rfl
  | one h rest =>
    rw [Term.writeAll, joined_cons]
    exact h.optionForm?_write _
  | @repeated _ _ _ _ _ t ts _ h hword rest =>
    have hwrite := h.optionForm?_write ("...".toList ++ spaced (Term.writeAll ts))
    simpa [Term.writeAll, Term.write] using hwrite
  | optional h rest =>
    obtain ⟨c, cs, hwrite, hc⟩ := h.write_start
    simpa [Term.writeAll, Term.write, hwrite] using hbracket hc _
  | segment hne h rest =>
    obtain ⟨c, cs, hjoined, hc⟩ := h.joined_start hne
    rw [Term.writeAll, Term.write, joined_cons, String.toList_append, String.toList_append,
      toList_intercalate_blank, hjoined]
    exact hbracket hc _
  | rest => rfl

/-- **A level starts with a word** only if its first term is one. -/
theorem startsWord_joined (h : ReadsLevel depth seen k ts k')
    (hword : ∀ t ∈ ts.head?, t.isWord = false) :
    startsWord (joined (Term.writeAll ts)) = false := by
  cases h with
  | done => rfl
  | one h rest =>
    rw [Term.writeAll, joined_cons]
    exact h.startsWord_write (hword _ rfl) _
  | @repeated _ _ _ _ _ t ts _ h hword' rest =>
    have hwrite := h.startsWord_write hword' ("...".toList ++ spaced (Term.writeAll ts))
    simpa [Term.writeAll, Term.write] using hwrite
  | optional h rest => simpa [Term.writeAll, Term.write] using startsWord_of_head (by decide) _
  | segment hne h rest => simpa [Term.writeAll, Term.write] using startsWord_of_head (by decide) _
  | rest => rfl

end ReadsLevel

end Synopsis
