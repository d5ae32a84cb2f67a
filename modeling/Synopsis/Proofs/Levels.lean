import Synopsis.Proofs.Groups

/-!
# Levels of terms

`ReadsLevel depth seen k ts k'` says, without a reader, that `ts` is the terms of one level of a
usage text, and how what is known grows from `k` to `k'` while they are read: types are kept in the
registry, and a numbered identifier is noted and must be new. A level has at most one segment,
`seen` tells whether it is behind; a list repeats one parameter; the trailing capture ends the
outermost level.

**Theorem (`terms_reads`).** The terms that the reader takes from a text are such a level.

The text itself is not part of the relation, so it also serves where a text is written from terms
and read again.
-/

namespace Synopsis

/-- The type of a group, as a step on the registry. -/
def Alternatives.resolve : Alternatives → Registry.Step ValueType
  | .words texts => Registry.keeping (.choice texts)
  | .types names => Registry.union names

/-- The parameter that is one of a group. -/
def Alternatives.term (type : ValueType) : Alternatives → Term
  | .words texts => .choice type texts
  | .types names => .union type names

/-- A term that stands for one parameter, and what is known before and after it is read. -/
inductive ReadsOne : Known → Term → Known → Prop
  | word {k : Known} {text : String} (h : IsWord text) : ReadsOne k (.word text) k
  | typed {k : Known} {identifier name : String} {number : Option String} {type : ValueType}
      {r : Registry} (hid : IsIdentifier identifier)
      (hname : readIdentifier identifier = .ok (name, number))
      (htype : Registry.resolve name k.registry = .ok type r)
      (hnew : number.isSome → identifier ∉ k.numbered) :
      ReadsOne k (.typed type identifier number)
        ⟨r, if number.isSome then identifier :: k.numbered else k.numbered⟩
  | choice {k : Known} {words : List String} {type : ValueType} {r : Registry}
      (hgroup : ∃ cs, GroupText cs (.words words))
      (htype : Registry.keeping (.choice words) k.registry = .ok type r) :
      ReadsOne k (.choice type words) ⟨r, k.numbered⟩
  | union {k : Known} {names : List String} {type : ValueType} {r : Registry}
      (hgroup : ∃ cs, GroupText cs (.types names))
      (htype : Registry.union names k.registry = .ok type r) :
      ReadsOne k (.union type names) ⟨r, k.numbered⟩

/-- The term is a word that stands for itself. -/
def Term.isWord : Term → Bool
  | .word _ => true
  | _ => false

inductive ReadsLevel : (depth : Nat) → (seen : Bool) → Known → List Term → Known → Prop
  | done {depth : Nat} {seen : Bool} {k : Known} : ReadsLevel depth seen k [] k
  | one {depth : Nat} {seen : Bool} {k k₁ k' : Known} {t : Term} {ts : List Term}
      (h : ReadsOne k t k₁) (rest : ReadsLevel depth seen k₁ ts k') :
      ReadsLevel depth seen k (t :: ts) k'
  /-- `X...`, where a word cannot be repeated. -/
  | repeated {depth : Nat} {seen : Bool} {k k₁ k' : Known} {t : Term} {ts : List Term}
      {note : Option String} (h : ReadsOne k t k₁) (hword : t.isWord = false)
      (rest : ReadsLevel depth seen k₁ ts k') :
      ReadsLevel depth seen k (.list t 1 note :: ts) k'
  /-- `[X]...`, which is no segment of its level. -/
  | optional {depth : Nat} {seen : Bool} {k k₁ k' : Known} {t : Term} {ts : List Term}
      {note : Option String} (h : ReadsOne k t k₁) (rest : ReadsLevel depth seen k₁ ts k') :
      ReadsLevel depth seen k (.list t 0 note :: ts) k'
  | segment {depth : Nat} {k k₁ k' : Known} {inner ts : List Term} (hne : inner ≠ [])
      (h : ReadsLevel (depth + 1) false k inner k₁) (rest : ReadsLevel depth true k₁ ts k') :
      ReadsLevel depth false k (.segment inner :: ts) k'
  | rest {seen : Bool} {k : Known} : ReadsLevel 0 seen k [.rest] k

namespace ReadsOne

variable {k k' : Known} {t : Term}

theorem isSegment_eq_false (h : ReadsOne k t k') : t.isSegment = false := by
  cases h <;> rfl

theorem isRest_eq_false (h : ReadsOne k t k') : t.isRest = false := by
  cases h <;> rfl

theorem containsList_eq_false (h : ReadsOne k t k') : t.containsList = false := by
  cases h <;> rfl

end ReadsOne

/-! ## Single terms -/

namespace Reader

variable {s s' : ReaderState}

theorem note_ok_iff {text : Option String} :
    note s = .ok text s' ↔
      Lexeme.note? s.rest = none ∧ text = none ∧ s' = s ∨
        ∃ line after, Lexeme.note? s.rest = some (line, after) ∧
          text = (if (trimEnd line).isEmpty then none else some (String.ofList (trimEnd line))) ∧
          s' = s.advance (s.rest.length - after.length) := by
  rcases h : Lexeme.note? s.rest with _ | ⟨line, after⟩
  · simp [note, h]
  · by_cases hline : trimEnd line = [] <;> simp [note, h, hline, and_comm]

theorem known_of_note {text : Option String} (h : note s = .ok text s') : s'.known = s.known := by
  rcases note_ok_iff.1 h with ⟨-, -, rfl⟩ | ⟨-, -, -, -, rfl⟩ <;> rfl

theorem typed_ok_iff {t : Term} :
    typed s = .ok t s' ↔
      ∃ name number type r,
        readIdentifier (String.ofList (Lexeme.identifier s.rest)) = .ok (name, number) ∧
        Registry.resolve name s.registry = .ok type r ∧
        (number.isSome → String.ofList (Lexeme.identifier s.rest) ∉ s.numbered) ∧
        t = .typed type (String.ofList (Lexeme.identifier s.rest)) number ∧
        s' = { s.advance (Lexeme.identifier s.rest).length with
          registry := r
          numbered := if number.isSome then
            String.ofList (Lexeme.identifier s.rest) :: s.numbered else s.numbered } := by
  simp [typed, and_assoc]
  refine exists_congr fun name => exists_congr fun number => and_congr_right fun _ =>
    exists_congr fun type => exists_congr fun r => and_congr_right fun _ => ?_
  cases number <;> simp [and_comm]

theorem typed_reads {t : Term} (hid : Lexeme.identifier s.rest ≠ []) (h : typed s = .ok t s') :
    ReadsOne s.known t s'.known ∧ t.isWord = false := by
  obtain ⟨name, number, type, r, hname, htype, hnew, rfl, rfl⟩ := typed_ok_iff.1 h
  have hid' : IsIdentifier (String.ofList (Lexeme.identifier s.rest)) := by
    simpa [IsIdentifier] using Lexeme.isWhole_identifier hid
  exact ⟨.typed hid' hname htype hnew, rfl⟩

theorem alternativesType_eq (start : Nat) (group : Alternatives) :
    alternativesType start group = resolving start group.resolve := by
  cases group <;> rfl

theorem grouped_ok_iff {t : Term} :
    grouped s = .ok t s' ↔
      ∃ group s₁ type r, alternatives s = .ok group s₁ ∧
        group.resolve s₁.registry = .ok type r ∧ t = group.term type ∧
        s' = { s₁ with registry := r } := by
  simp only [grouped, alternativesType_eq, keeping_bind_ok_iff, offset_ok_iff, resolving_ok_iff]
  constructor
  · rintro ⟨_, _, ⟨rfl, rfl⟩, group, s₁, hgroup, type, s₂, ⟨r, htype, rfl⟩, h⟩
    refine ⟨group, s₁, type, r, hgroup, htype, ?_⟩
    cases group <;> simpa [Alternatives.term] using h
  · rintro ⟨group, s₁, type, r, hgroup, htype, rfl, rfl⟩
    refine ⟨_, _, ⟨rfl, rfl⟩, group, s₁, hgroup, type, _, ⟨r, htype, rfl⟩, ?_⟩
    cases group <;> simp [Alternatives.term]

theorem grouped_reads {t : Term} (hopen : Lexeme.startsWith "(" s.rest = true)
    (h : grouped s = .ok t s') : ReadsOne s.known t s'.known ∧ t.isWord = false := by
  obtain ⟨group, s₁, type, r, hgroup, htype, rfl, rfl⟩ := grouped_ok_iff.1 h
  obtain ⟨cs, -, htext, hknown⟩ := alternatives_sound hopen hgroup
  have hregistry : s₁.registry = s.known.registry := congrArg Known.registry hknown
  have hnumbered : s₁.numbered = s.known.numbered := congrArg Known.numbered hknown
  rw [hregistry] at htype
  simp only [ReaderState.known, hnumbered]
  cases group with
  | words words => exact ⟨.choice ⟨cs, htext⟩ htype, rfl⟩
  | types names => exact ⟨.union ⟨cs, htext⟩ htype, rfl⟩

theorem repeatable_ok_iff {term t : Term} :
    repeatable term s = .ok t s' ↔
      (Lexeme.startsWith "..." s.rest = true ∧ Lexeme.atBoundary (past "..." s).rest = true ∧
        ∃ text, note (past "..." s) = .ok text s' ∧ t = .list term 1 text) ∨
      (Lexeme.startsWith "..." s.rest = false ∧ Lexeme.atBoundary s.rest = true ∧
        Lexeme.note? s.rest = none ∧ t = term ∧ s' = s) := by
  rcases h : Lexeme.startsWith "..." s.rest with _ | _
  · have hiff : t = term ∧ s' = s ↔ s' = s ∧ t = term := and_comm
    simp [repeatable, past_of_not h, h, and_assoc, hiff]
  · simp [repeatable, h]

theorem wordTerm_ok_iff {t : Term} :
    wordTerm s = .ok t s' ↔
      t = .word (String.ofList (Lexeme.word s.rest)) ∧
        s' = s.advance (Lexeme.word s.rest).length ∧
        Lexeme.atBoundary s'.rest = true ∧ Lexeme.note? s'.rest = none := by
  simp only [wordTerm, keeping_bind_ok_iff, accept_ok_iff, expectBoundary_ok_iff,
    rejectNote_ok_iff, keeping_pure_ok_iff]
  constructor
  · rintro ⟨_, _, ⟨rfl, rfl⟩, _, _, ⟨hboundary, rfl⟩, _, _, ⟨hnote, rfl⟩, rfl, rfl⟩
    exact ⟨rfl, rfl, hboundary, hnote⟩
  · rintro ⟨rfl, rfl, hboundary, hnote⟩
    exact ⟨_, _, ⟨rfl, rfl⟩, (), _, ⟨hboundary, rfl⟩, (), _, ⟨hnote, rfl⟩, rfl, rfl⟩

theorem repeatedSegment_ok_iff {ts : List Term} {start : Nat} {t : Term} :
    repeatedSegment ts start s = .ok t s' ↔
      ∃ term text, ts = [term] ∧ term.containsList = false ∧ term.isSegment = false ∧
        term.isRest = false ∧ Lexeme.atBoundary s.rest = true ∧ note s = .ok text s' ∧
        t = .list term 0 text := by
  unfold repeatedSegment
  split_ifs with hlist
  · simp
    rintro term rfl hterm
    simp [Term.anyContainsList, hterm] at hlist
  · constructor
    · intro h
      split at h
      case h_5 term hsegment hrest =>
        obtain ⟨hboundary, text, hnote, rfl⟩ := by simpa using h
        have hlist' : term.containsList = false := by simpa [Term.anyContainsList] using hlist
        have hsegment' : term.isSegment = false := by
          cases term <;> simp_all [Term.isSegment]
        have hrest' : term.isRest = false := by
          cases term <;> simp_all [Term.isRest]
        exact ⟨term, text, rfl, hlist', hsegment', hrest', hboundary, hnote, rfl⟩
      all_goals simp at h
    · rintro ⟨term, text, rfl, -, hsegment, hrest, hboundary, hnote, rfl⟩
      cases term <;> simp_all [Term.isSegment, Term.isRest]

theorem segmentTerm_ok_iff {ts : List Term} {seen : Bool} {start : Nat} {t : Term} :
    segmentTerm ts seen start s = .ok t s' ↔
      Lexeme.startsWith "]" (trimStart s.rest) = true ∧
        ((Lexeme.startsWith "..." (past "]" (pastBlanks s)).rest = true ∧
            repeatedSegment ts start (past "..." (past "]" (pastBlanks s))) = .ok t s') ∨
          (Lexeme.startsWith "..." (past "]" (pastBlanks s)).rest = false ∧ seen = false ∧
            ts ≠ [] ∧ s' = past "]" (pastBlanks s) ∧ Lexeme.note? s'.rest = none ∧
            t = .segment ts)) := by
  rcases hmore : Lexeme.startsWith "..." (past "]" (pastBlanks s)).rest with _ | _
  · simp only [segmentTerm, keeping_bind_ok_iff, skipBlanks_ok_iff, acceptMark_ok_iff]
    simp [hmore, past_of_not hmore]
    intro _ _ _
    constructor
    · rintro ⟨⟨hnote, rfl⟩, rfl⟩
      exact ⟨rfl, hnote, rfl⟩
    · rintro ⟨rfl, hnote, rfl⟩
      exact ⟨⟨hnote, rfl⟩, rfl⟩
  · simp [segmentTerm, hmore]

theorem restTerm_ok_iff {depth start : Nat} {t : Term} :
    restTerm depth start s = .ok t s' ↔
      depth = 0 ∧ t = .rest ∧ s' = pastBlanks (past "..." s) ∧ s'.rest = [] := by
  simp only [restTerm, keeping_bind_ok_iff, acceptMark_ok_iff, skipBlanks_ok_iff]
  constructor
  · rintro ⟨_, _, ⟨rfl, rfl⟩, _, _, rfl, h⟩
    simp at h
    obtain ⟨⟨rfl, hrest⟩, rfl, rfl⟩ := h
    exact ⟨rfl, rfl, rfl, by simpa using hrest⟩
  · rintro ⟨rfl, rfl, rfl, hrest⟩
    refine ⟨_, _, ⟨rfl, rfl⟩, (), _, rfl, ?_⟩
    simpa using hrest

/-! ## Levels -/

theorem opening_sound (cs : List Char) :
    match opening cs with
    | .segment => Lexeme.startsWith "[" cs = true
    | .rest => Lexeme.startsWith "..." cs = true
    | .group => Lexeme.startsWith "(" cs = true
    | .identifier => Lexeme.identifier cs ≠ []
    | .word => Lexeme.word cs ≠ []
    | _ => True := by
  unfold opening
  split_ifs <;> simp_all

/-- A level with one parameter holds it bare, unless it is a list or a segment. -/
theorem readsOne_of_readsLevel {depth : Nat} {seen : Bool} {k k' : Known} {t : Term}
    (h : ReadsLevel (depth + 1) seen k [t] k') (hlist : t.containsList = false)
    (hsegment : t.isSegment = false) : ReadsOne k t k' := by
  cases h with
  | one h rest =>
    cases rest
    exact h
  | repeated => simp [Term.containsList] at hlist
  | optional => simp [Term.containsList] at hlist
  | segment => simp [Term.isSegment] at hsegment

theorem repeatable_reads {depth : Nat} {seen : Bool} {k k' : Known} {term t : Term}
    {ts : List Term} (hone : ReadsOne k term s.known) (hword : term.isWord = false)
    (h : repeatable term s = .ok t s') (hts : ReadsLevel depth seen s'.known ts k') :
    ReadsLevel depth seen k (t :: ts) k' := by
  rcases repeatable_ok_iff.1 h with ⟨-, -, text, hnote, rfl⟩ | ⟨-, -, -, rfl, rfl⟩
  · have hknown : s'.known = s.known := (known_of_note hnote).trans (known_past _ _)
    exact .repeated hone hword (hknown ▸ hts)
  · exact .one hone hts

theorem segmentTerm_reads {depth start : Nat} {seen : Bool} {k k' : Known} {t : Term}
    {inner ts : List Term} (hinner : ReadsLevel (depth + 1) false k inner s.known)
    (h : segmentTerm inner seen start s = .ok t s')
    (hts : ReadsLevel depth (seen || t.isSegment) s'.known ts k') :
    ReadsLevel depth seen k (t :: ts) k' := by
  rcases segmentTerm_ok_iff.1 h with ⟨-, ⟨-, h⟩ | ⟨-, rfl, hne, rfl, -, rfl⟩⟩
  · obtain ⟨term, text, rfl, hlist, hsegment, -, -, hnote, rfl⟩ := repeatedSegment_ok_iff.1 h
    have hone := readsOne_of_readsLevel hinner hlist hsegment
    have hknown : s'.known = s.known := by simpa using known_of_note hnote
    rw [hknown] at hts
    exact .optional hone (by simpa [Term.isSegment] using hts)
  · exact .segment hne hinner (by simpa [Term.isSegment] using hts)

/-- **The terms that are read are a level.** -/
theorem terms_reads {fuel depth : Nat} {seen : Bool} {ts : List Term}
    (h : terms fuel depth seen s = .ok ts s') : ReadsLevel depth seen s.known ts s'.known := by
  induction fuel generalizing depth seen s ts s' with
  | zero =>
    simp only [terms, keeping_pure_ok_iff] at h
    obtain ⟨rfl, rfl⟩ := h
    exact .done
  | succ fuel ih =>
    simp only [terms, keeping_bind_ok_iff, skipBlanks_ok_iff, offset_ok_iff, remaining_ok_iff] at h
    obtain ⟨-, _, rfl, _, _, ⟨rfl, rfl⟩, _, _, ⟨rfl, rfl⟩, h⟩ := h
    have hopening := opening_sound (pastBlanks s).rest
    rw [← known_pastBlanks s]
    generalize pastBlanks s = s at h hopening ⊢
    cases hcase : opening s.rest <;> rw [hcase] at h hopening <;>
      simp only [keeping_bind_ok_iff, keeping_pure_ok_iff] at h
    case levelEnd =>
      obtain ⟨rfl, rfl⟩ := h
      exact .done
    case segment =>
      obtain ⟨_, s₀, hmark, inner, s₁, hinner, t, s₂, hterm, ts, s₃, hts, rfl, rfl⟩ := h
      have hknown : s₀.known = s.known := by
        rw [(acceptMark_ok_iff.1 hmark).2, known_past]
      rw [← hknown]
      exact segmentTerm_reads (ih hinner) hterm (ih hts)
    case rest =>
      obtain ⟨t, s₁, hterm, rfl, rfl⟩ := h
      obtain ⟨rfl, rfl, rfl, -⟩ := restTerm_ok_iff.1 hterm
      simpa using ReadsLevel.rest
    case group =>
      obtain ⟨t, s₁, hgroup, t', s₂, hterm, ts, s₃, hts, rfl, rfl⟩ := h
      obtain ⟨hone, hword⟩ := grouped_reads hopening hgroup
      exact repeatable_reads hone hword hterm (ih hts)
    case identifier =>
      obtain ⟨t, s₁, htyped, t', s₂, hterm, ts, s₃, hts, rfl, rfl⟩ := h
      obtain ⟨hone, hword⟩ := typed_reads hopening htyped
      exact repeatable_reads hone hword hterm (ih hts)
    case word =>
      obtain ⟨t, s₁, hterm, ts, s₃, hts, rfl, rfl⟩ := h
      obtain ⟨rfl, rfl, -, -⟩ := wordTerm_ok_iff.1 hterm
      have hword : IsWord (String.ofList (Lexeme.word s.rest)) := by
        simpa [IsWord] using Lexeme.isWhole_word hopening
      exact .one (.word hword) (by simpa using ih hts)
    case option => simp at h
    case unexpected => simp at h

end Reader

end Synopsis
