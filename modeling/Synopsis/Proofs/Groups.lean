import Synopsis.Proofs.Reading

/-!
# Groups of alternatives as texts

`GroupText text group` says, without a reader, that `text` is a group in parentheses and `group`
what it lists. It is what the reader of groups reads, in both directions: a group that was read is
the text it was read from (`alternatives_sound`), and the text of a group is read again as that
group wherever it stands (`alternatives_complete`).
-/

namespace Synopsis

/-- A word that stands for itself. -/
def IsWord (text : String) : Prop := Lexeme.IsWhole Lexeme.word text.toList

/-- The identifier of a type, well formed or not. -/
def IsIdentifier (text : String) : Prop := Lexeme.IsWhole Lexeme.identifier text.toList

def IsBlanks (cs : List Char) : Prop := ∀ c ∈ cs, isBlank c = true

/-- What a group has listed, without the places. -/
structure Listing where
  words : List String
  identifiers : List String

def Reader.Listed.listing (items : Reader.Listed) : Listing :=
  ⟨items.words, items.identifiers.map (·.1)⟩

/-- `text` is one item, which takes a listing to the next. -/
inductive ItemText : Listing → (text : String) → Listing → Prop
  | identifier {l : Listing} {text : String} (h : IsIdentifier text) :
      ItemText l text ⟨l.words, l.identifiers ++ [text]⟩
  | word {l : Listing} {text : String} (h : IsWord text) (hnew : text ∉ l.words) :
      ItemText l text ⟨l.words ++ [text], l.identifiers⟩

/-- `cs` is items parted by bars, with blanks after each and after each bar. -/
inductive ItemsText : Listing → (cs : List Char) → Listing → Prop
  | last {l l' : Listing} {text : String} {blanks : List Char} (h : ItemText l text l')
      (hb : IsBlanks blanks) : ItemsText l (text.toList ++ blanks) l'
  | more {l l₁ l' : Listing} {text : String} {blanks blanks' cs : List Char}
      (h : ItemText l text l₁) (hb : IsBlanks blanks) (hb' : IsBlanks blanks')
      (rest : ItemsText l₁ cs l') :
      ItemsText l (text.toList ++ (blanks ++ '|' :: (blanks' ++ cs))) l'

theorem IsWord.head {text : String} (h : IsWord text) :
    ∃ c cs, text.toList = c :: cs ∧ c.isLower = true := by
  cases htext : text.toList with
  | nil => exact absurd htext h.1
  | cons c cs =>
    rw [IsWord, htext] at h
    exact ⟨c, cs, rfl, Lexeme.isLower_of_isWhole_word h⟩

theorem IsIdentifier.head {text : String} (h : IsIdentifier text) :
    ∃ c cs, text.toList = c :: cs ∧ c.isUpper = true := by
  cases htext : text.toList with
  | nil => exact absurd htext h.1
  | cons c cs =>
    rw [IsIdentifier, htext] at h
    exact ⟨c, cs, rfl, Lexeme.isUpper_of_isWhole_identifier h⟩

theorem ItemText.head {l l' : Listing} {text : String} (h : ItemText l text l') :
    ∃ c cs, text.toList = c :: cs ∧ c.isAlphanum = true := by
  cases h with
  | identifier h =>
    obtain ⟨c, cs, htext, hc⟩ := h.head
    exact ⟨c, cs, htext, by simp [Char.isAlphanum, Char.isAlpha, hc]⟩
  | word h hnew =>
    obtain ⟨c, cs, htext, hc⟩ := h.head
    exact ⟨c, cs, htext, by simp [Char.isAlphanum, Char.isAlpha, hc]⟩

theorem ItemsText.head {l l' : Listing} {cs : List Char} (h : ItemsText l cs l') :
    ∃ d ds, cs = d :: ds ∧ d.isAlphanum = true := by
  cases h with
  | last h hb =>
    obtain ⟨d, ds, htext, hd⟩ := h.head
    exact ⟨d, _, by rw [htext]; rfl, hd⟩
  | more h hb hb' rest =>
    obtain ⟨d, ds, htext, hd⟩ := h.head
    exact ⟨d, _, by rw [htext]; rfl, hd⟩

theorem ItemsText.stopsAt_blank {l l' : Listing} {cs : List Char} (h : ItemsText l cs l')
    (after : List Char) : Lexeme.StopsAt isBlank (cs ++ after) := by
  obtain ⟨d, ds, rfl, hd⟩ := h.head
  refine Lexeme.stopsAt_cons ?_
  by_contra hblank
  simp [Lexeme.isAlphanum_of_isBlank (Bool.of_not_eq_false hblank)] at hd

/-- What a finished listing comes to: words, or the types that its identifiers name. -/
inductive Listing.Means : Listing → Alternatives → Prop
  | words {words : List String} (h : 2 ≤ words.length) : Means ⟨words, []⟩ (.words words)
  | types {identifiers names : List String} (h : 2 ≤ identifiers.length)
      (hnames : List.Forall₂ (fun identifier name =>
        ∃ number, readIdentifier identifier = .ok (name, number)) identifiers names) :
      Means ⟨[], identifiers⟩ (.types names)

/-- `cs` is a group in parentheses that lists `group`. -/
def GroupText (cs : List Char) (group : Alternatives) : Prop :=
  ∃ blanks items l, IsBlanks blanks ∧ ItemsText ⟨[], []⟩ items l ∧ l.Means group ∧
    cs = '(' :: (blanks ++ items ++ [')'])

/-! ## What is read is the text of a group -/

namespace Reader

variable {s s' : ReaderState}

theorem item_ok_iff {items items' : Listed} :
    item items s = .ok items' s' ↔
      (Lexeme.identifier s.rest ≠ [] ∧
        items' = { items with identifiers :=
          items.identifiers ++ [(String.ofList (Lexeme.identifier s.rest), s.offset)] } ∧
        s' = s.advance (Lexeme.identifier s.rest).length) ∨
      (Lexeme.identifier s.rest = [] ∧ Lexeme.word s.rest ≠ [] ∧
        String.ofList (Lexeme.word s.rest) ∉ items.words ∧
        items' = { items with words := items.words ++ [String.ofList (Lexeme.word s.rest)] } ∧
        s' = s.advance (Lexeme.word s.rest).length) := by
  by_cases hid : Lexeme.identifier s.rest = [] <;> simp [item, hid, and_assoc]

theorem item_sound {items items' : Listed} (h : item items s = .ok items' s') :
    ∃ text : String, s.rest = text.toList ++ s'.rest ∧
      ItemText items.listing text items'.listing ∧ s'.known = s.known := by
  rcases item_ok_iff.1 h with ⟨hid, rfl, rfl⟩ | ⟨-, hword, hnew, rfl, rfl⟩
  · refine ⟨String.ofList (Lexeme.identifier s.rest), ?_, ?_, rfl⟩
    · simp [Lexeme.identifier_append_drop]
    · have hid' : IsIdentifier (String.ofList (Lexeme.identifier s.rest)) := by
        simpa [IsIdentifier] using Lexeme.isWhole_identifier hid
      simpa [Listed.listing] using ItemText.identifier (l := items.listing) hid'
  · refine ⟨String.ofList (Lexeme.word s.rest), ?_, ?_, rfl⟩
    · simp [Lexeme.word_append_drop]
    · exact ItemText.word (by simpa [IsWord] using Lexeme.isWhole_word hword) hnew

theorem listed_succ_ok_iff {fuel : Nat} {items items' : Listed} :
    listed (fuel + 1) items s = .ok items' s' ↔
      ∃ items₁ s₁, item items s = .ok items₁ s₁ ∧
        (Lexeme.startsWith "|" (trimStart s₁.rest) = true ∧
          listed fuel items₁ (pastBlanks (past "|" (pastBlanks s₁))) = .ok items' s' ∨
        Lexeme.startsWith "|" (trimStart s₁.rest) = false ∧ items' = items₁ ∧
          s' = pastBlanks s₁) := by
  rw [listed, keeping_bind_ok_iff]
  refine exists_congr fun items₁ => exists_congr fun s₁ => and_congr_right fun _ => ?_
  cases h : Lexeme.startsWith "|" (trimStart s₁.rest) <;> simp [h]

theorem mapM_identified_ok_iff {identifiers : List (String × Nat)} {names : List String} :
    (identifiers.mapM fun item => Prod.fst <$> identified item.2 item.1) s = .ok names s' ↔
      s' = s ∧ List.Forall₂ (fun identifier name =>
        ∃ number, readIdentifier identifier = .ok (name, number)) (identifiers.map (·.1)) names := by
  induction identifiers generalizing names s s' with
  | nil => simp [and_comm]
  | cons item items ih =>
    simp only [List.mapM_cons, keeping_bind_ok_iff, keeping_map_ok_iff, identified_ok_iff,
      keeping_pure_ok_iff, ih]
    constructor
    · rintro ⟨name, _, ⟨named, ⟨hnamed, rfl⟩, rfl⟩, names', _, ⟨rfl, hnames⟩, rfl, rfl⟩
      exact ⟨rfl, List.Forall₂.cons ⟨named.2, hnamed⟩ hnames⟩
    · rintro ⟨rfl, hnames⟩
      rw [List.map_cons, List.forall₂_cons_left_iff] at hnames
      obtain ⟨name, names', ⟨number, hnumber⟩, hnames, rfl⟩ := hnames
      exact ⟨name, s', ⟨(name, number), ⟨hnumber, rfl⟩, rfl⟩, names', s', ⟨rfl, hnames⟩, rfl, rfl⟩

/-- What a listing means, as the reader finds it out. -/
theorem means_listing_iff {items : Listed} {group : Alternatives} :
    items.listing.Means group ↔
      (items.words = [] ∨ items.identifiers = []) ∧
      2 ≤ items.words.length + items.identifiers.length ∧
      (items.words = [] ∧ (∃ names, List.Forall₂ (fun identifier name =>
          ∃ number, readIdentifier identifier = .ok (name, number))
          (items.identifiers.map (·.1)) names ∧ group = .types names) ∨
        items.words ≠ [] ∧ group = .words items.words) := by
  obtain ⟨words, identifiers⟩ := items
  constructor
  · intro h
    generalize hl : Listed.listing ⟨words, identifiers⟩ = l at h
    cases h with
    | words h =>
      simp only [Listed.listing, Listing.mk.injEq, List.map_eq_nil_iff] at hl
      obtain ⟨rfl, rfl⟩ := hl
      have hne : words ≠ [] := by
        rintro rfl
        exact absurd h (by decide)
      exact ⟨Or.inr rfl, h, Or.inr ⟨hne, rfl⟩⟩
    | types h hnames =>
      simp only [Listed.listing, Listing.mk.injEq] at hl
      obtain ⟨rfl, rfl⟩ := hl
      exact ⟨Or.inl rfl, by simpa using h, Or.inl ⟨rfl, _, hnames, rfl⟩⟩
  · rintro ⟨hone, htwo, ⟨rfl, names, hnames, rfl⟩ | ⟨hwords, rfl⟩⟩
    · exact .types (by simpa using htwo) hnames
    · obtain rfl : identifiers = [] := hone.resolve_left hwords
      exact .words (by simpa using htwo)

theorem alternatives_ok_iff {group : Alternatives} :
    alternatives s = .ok group s' ↔
      ∃ opened s₀ items s₁, acceptMarkBlanks "(" s = .ok opened s₀ ∧
        listed (s₀.rest.length + 1) {} s₀ = .ok items s₁ ∧
        Lexeme.startsWith ")" s₁.rest = true ∧ items.listing.Means group ∧ s' = past ")" s₁ := by
  have hmap (items : Listed) (names : List String) (s₁ : ReaderState) :=
    @mapM_identified_ok_iff s₁ s' items.identifiers names
  have htwo (n : Nat) : 2 ≤ n ↔ 1 < n := Iff.rfl
  simp only [means_listing_iff]
  simp [alternatives, hmap, and_assoc]
  refine exists_congr fun items => exists_congr fun s₁ => and_congr_right fun _ =>
    and_congr_right fun _ => ?_
  by_cases hwords : items.words = [] <;> simp [hwords, htwo, and_comm]

theorem listed_sound {fuel : Nat} {items items' : Listed}
    (h : listed fuel items s = .ok items' s') (hfuel : s.rest.length < fuel) :
    ∃ cs, s.rest = cs ++ s'.rest ∧ ItemsText items.listing cs items'.listing ∧
      s'.known = s.known := by
  induction fuel generalizing items s with
  | zero => omega
  | succ fuel ih =>
    obtain ⟨items₁, s₁, hitem, hnext⟩ := listed_succ_ok_iff.1 h
    obtain ⟨text, hrest, htext, hknown⟩ := item_sound hitem
    obtain ⟨blanks, hblanks, hs₁⟩ := Lexeme.exists_blanks s₁.rest
    rcases hnext with ⟨hbar, hmore⟩ | ⟨-, rfl, rfl⟩
    · obtain ⟨ds, hds⟩ := Lexeme.startsWith_iff.1 hbar
      have hpast : (past "|" (pastBlanks s₁)).rest = ds := rest_past (by simpa using hds)
      obtain ⟨blanks', hblanks', hds'⟩ := Lexeme.exists_blanks ds
      have hlength : s.rest.length = text.toList.length + blanks.length + 1 + ds.length := by
        rw [hrest, hs₁, hds]
        simp
        omega
      have htrim : (trimStart ds).length ≤ ds.length := by
        conv_rhs => rw [hds']
        simp
      obtain ⟨cs, hcs, hitems, hknown'⟩ := ih hmore (by rw [rest_pastBlanks, hpast]; omega)
      rw [rest_pastBlanks, hpast] at hcs
      refine ⟨_, ?_, ItemsText.more htext hblanks hblanks' hitems, by simpa [hknown] using hknown'⟩
      rw [hrest, hs₁, hds, hds', hcs]
      simp
    · refine ⟨text.toList ++ blanks, ?_, .last htext hblanks, by simpa using hknown⟩
      rw [hrest, hs₁]
      simp

/-- **A group that was read is the text it was read from.** -/
theorem alternatives_sound {group : Alternatives} (hopen : Lexeme.startsWith "(" s.rest = true)
    (h : alternatives s = .ok group s') :
    ∃ cs, s.rest = cs ++ s'.rest ∧ GroupText cs group ∧ s'.known = s.known := by
  obtain ⟨_, s₀, items, s₁, hstart, hlisted, hclose, hmeans, rfl⟩ := alternatives_ok_iff.1 h
  obtain ⟨-, rfl⟩ := acceptMarkBlanks_ok_iff.1 hstart
  rw [if_pos hopen] at hlisted
  obtain ⟨cs, hcs⟩ := Lexeme.startsWith_iff.1 hopen
  obtain ⟨ds, hds⟩ := Lexeme.startsWith_iff.1 hclose
  obtain ⟨blanks, hblanks, hcs'⟩ := Lexeme.exists_blanks cs
  have hpast : (past "(" s).rest = cs := rest_past hcs
  obtain ⟨text, htext, hitems, hknown⟩ := listed_sound hlisted (by simp)
  rw [rest_pastBlanks, hpast, hds] at htext
  refine ⟨_, ?_, ⟨blanks, text, _, hblanks, hitems, hmeans, rfl⟩, by simpa using hknown⟩
  rw [rest_past hds, hcs, hcs', htext]
  simp

/-! ## The text of a group is read as that group -/

theorem item_complete {items : Listed} {l : Listing} {text : String} {after : List Char}
    (h : ItemText items.listing text l) (hrest : s.rest = text.toList ++ after)
    (hafter : Lexeme.atBoundary after = true) :
    ∃ items' s', item items s = .ok items' s' ∧ items'.listing = l ∧ s'.rest = after ∧
      s'.known = s.known := by
  cases h with
  | identifier hid =>
    have hfound : Lexeme.identifier s.rest = text.toList := by
      rw [hrest]
      exact Lexeme.identifier_append hid <|
        Lexeme.stopsAt_of_atBoundary (fun _ => Lexeme.optionTail_of_identifierTail) hafter
    refine ⟨_, _, item_ok_iff.2 (Or.inl ⟨hfound ▸ hid.1, rfl, rfl⟩), ?_, ?_, rfl⟩
    · simp [Listed.listing, hfound]
    · rw [ReaderState.rest_advance, hfound, hrest, List.drop_left]
  | word hword hnew =>
    have hfound : Lexeme.word s.rest = text.toList := by
      rw [hrest]
      exact Lexeme.word_append hword <|
        Lexeme.stopsAt_of_atBoundary (fun _ => Lexeme.optionTail_of_wordTail) hafter
    have hnone : Lexeme.identifier s.rest = [] := by
      cases htext : text.toList with
      | nil => exact absurd htext hword.1
      | cons c cs =>
        have hlower : c.isLower = true := by
          rw [IsWord, htext] at hword
          exact Lexeme.isLower_of_isWhole_word hword
        rw [hrest, htext]
        exact Lexeme.leading_eq_nil (by simpa using Char.not_isUpper_of_isLower hlower)
    refine ⟨_, _, item_ok_iff.2 (Or.inr ⟨hnone, hfound ▸ hword.1, ?_, rfl, rfl⟩), ?_, ?_, rfl⟩
    · rw [hfound, String.ofList_toList]
      exact hnew
    · simp [Listed.listing, hfound]
    · rw [ReaderState.rest_advance, hfound, hrest, List.drop_left]

theorem listed_complete {fuel : Nat} {items : Listed} {l l' : Listing} {cs after : List Char}
    (h : ItemsText l cs l') (hl : items.listing = l) (hrest : s.rest = cs ++ ')' :: after)
    (hfuel : s.rest.length < fuel) :
    ∃ items' s', listed fuel items s = .ok items' s' ∧ items'.listing = l' ∧
      s'.rest = ')' :: after ∧ s'.known = s.known := by
  induction h generalizing fuel items s with
  | @last l l' text blanks h hb =>
    obtain ⟨fuel, rfl⟩ : ∃ n, fuel = n + 1 := ⟨fuel - 1, by omega⟩
    obtain ⟨items₁, s₁, hitem, hl₁, hrest₁, hknown⟩ := item_complete (hl ▸ h)
      (by rw [hrest, List.append_assoc]) (Lexeme.atBoundary_append hb rfl)
    have htrim : trimStart s₁.rest = ')' :: after := by
      rw [hrest₁]
      exact Lexeme.trimStart_append hb (Lexeme.stopsAt_cons rfl)
    refine ⟨items₁, pastBlanks s₁, ?_, hl₁, by simpa using htrim, by simpa using hknown⟩
    exact listed_succ_ok_iff.2 ⟨items₁, s₁, hitem, Or.inr ⟨by rw [htrim]; rfl, rfl, rfl⟩⟩
  | @more l l₁ l' text blanks blanks' cs h hb hb' rest ih =>
    obtain ⟨fuel, rfl⟩ : ∃ n, fuel = n + 1 := ⟨fuel - 1, by omega⟩
    have hrest' : s.rest = text.toList ++ (blanks ++ '|' :: (blanks' ++ (cs ++ ')' :: after))) := by
      rw [hrest]
      simp
    obtain ⟨items₁, s₁, hitem, hl₁, hrest₁, hknown⟩ := item_complete (hl ▸ h) hrest'
      (Lexeme.atBoundary_append hb rfl)
    have htrim : trimStart s₁.rest = '|' :: (blanks' ++ (cs ++ ')' :: after)) := by
      rw [hrest₁]
      exact Lexeme.trimStart_append hb (Lexeme.stopsAt_cons rfl)
    have hpast : (past "|" (pastBlanks s₁)).rest = blanks' ++ (cs ++ ')' :: after) :=
      rest_past (by simpa using htrim)
    obtain ⟨items', s', hlisted, hl', hs', hknown'⟩ :=
      @ih (pastBlanks (past "|" (pastBlanks s₁))) fuel items₁ hl₁ (by
        rw [rest_pastBlanks, hpast]
        exact Lexeme.trimStart_append hb' (rest.stopsAt_blank _)) (by
        have hlength : (trimStart (blanks' ++ (cs ++ ')' :: after))).length ≤
            (blanks' ++ (cs ++ ')' :: after)).length := List.length_dropWhile_le _ _
        rw [hrest'] at hfuel
        rw [rest_pastBlanks, hpast]
        simp only [List.length_append, List.length_cons] at hfuel hlength ⊢
        omega)
    refine ⟨items', s', ?_, hl', hs', by simpa [hknown] using hknown'⟩
    exact listed_succ_ok_iff.2 ⟨items₁, s₁, hitem, Or.inl ⟨by rw [htrim]; rfl, hlisted⟩⟩

/-- **The text of a group is read as that group**, wherever it stands. -/
theorem alternatives_complete {group : Alternatives} {cs after : List Char}
    (h : GroupText cs group) (hrest : s.rest = cs ++ after) :
    ∃ s', alternatives s = .ok group s' ∧ s'.rest = after ∧ s'.known = s.known := by
  obtain ⟨blanks, items, l, hb, hitems, hmeans, rfl⟩ := h
  have hrest' : s.rest = '(' :: (blanks ++ (items ++ ')' :: after)) := by
    rw [hrest]
    simp
  have hopen : Lexeme.startsWith "(" s.rest = true := by
    rw [hrest']
    rfl
  have hpast : (past "(" s).rest = blanks ++ (items ++ ')' :: after) := rest_past hrest'
  obtain ⟨found, s₁, hlisted, rfl, hs₁, hknown⟩ :=
    @listed_complete (pastBlanks (past "(" s)) ((pastBlanks (past "(" s)).rest.length + 1) {} _ _ _
      after hitems rfl (by
        rw [rest_pastBlanks, hpast]
        exact Lexeme.trimStart_append hb (hitems.stopsAt_blank _)) (by simp)
  have hclose : Lexeme.startsWith ")" s₁.rest = true := by
    rw [hs₁]
    rfl
  refine ⟨past ")" s₁, ?_, rest_past hs₁, by simpa using hknown⟩
  have hstart : acceptMarkBlanks "(" s = .ok true (pastBlanks (past "(" s)) :=
    acceptMarkBlanks_ok_iff.2 ⟨hopen.symm, (if_pos hopen).symm⟩
  exact alternatives_ok_iff.2 ⟨true, _, found, s₁, hstart, hlisted, hclose, hmeans, rfl⟩

end Reader

/-! ## Groups as they are written -/

/-- The words of a listing are words, each once. -/
def Listing.Distinct (l : Listing) : Prop := l.words.Nodup ∧ ∀ word ∈ l.words, IsWord word

theorem ItemText.distinct {l l' : Listing} {text : String} (h : ItemText l text l')
    (hl : l.Distinct) : l'.Distinct := by
  cases h with
  | identifier h => exact hl
  | word h hnew =>
    refine ⟨List.nodup_append.2 ⟨hl.1, by simp, ?_⟩, ?_⟩
    · rintro word hword _ hmem rfl
      exact hnew (List.mem_singleton.1 hmem ▸ hword)
    · intro word hword
      rcases List.mem_append.1 hword with hword | hword
      · exact hl.2 word hword
      · exact List.mem_singleton.1 hword ▸ h

theorem ItemsText.distinct {l l' : Listing} {cs : List Char} (h : ItemsText l cs l')
    (hl : l.Distinct) : l'.Distinct := by
  induction h with
  | last h hb => exact h.distinct hl
  | more h hb hb' rest ih => exact ih (h.distinct hl)

theorem GroupText.words_distinct {cs : List Char} {words : List String}
    (h : GroupText cs (.words words)) :
    2 ≤ words.length ∧ words.Nodup ∧ ∀ word ∈ words, IsWord word := by
  obtain ⟨blanks, items, l, -, hitems, hmeans, -⟩ := h
  cases hmeans with
  | words h => exact ⟨h, hitems.distinct ⟨.nil, by simp⟩⟩

theorem GroupText.types_named {cs : List Char} {names : List String}
    (h : GroupText cs (.types names)) :
    2 ≤ names.length ∧
      ∀ name ∈ names, ∃ identifier number, readIdentifier identifier = .ok (name, number) := by
  obtain ⟨blanks, items, l, -, hitems, hmeans, -⟩ := h
  cases hmeans with
  | types h hnames =>
    refine ⟨hnames.length_eq ▸ h, ?_⟩
    clear h hitems
    induction hnames with
    | nil => simp
    | cons hread _ ih => exact List.forall_mem_cons.2 ⟨⟨_, hread⟩, ih⟩

/-- Texts with bars between them. -/
def barred (texts : List String) : List Char := ['|'].intercalate (texts.map String.toList)

theorem barred_singleton (text : String) : barred [text] = text.toList := by
  simp [barred]

theorem barred_cons {texts : List String} (text : String) (hne : texts ≠ []) :
    barred (text :: texts) = text.toList ++ ([] ++ '|' :: ([] ++ barred texts)) := by
  cases texts with
  | nil => exact absurd rfl hne
  | cons next texts => simp [barred]

theorem toList_writeAlternatives (texts : List String) :
    (writeAlternatives texts).toList = '(' :: ([] ++ barred texts ++ [')']) := by
  simp [writeAlternatives, barred]

theorem itemsText_words {words seen ids : List String} (hne : words ≠ [])
    (hwords : ∀ word ∈ words, IsWord word) (hdistinct : (seen ++ words).Nodup) :
    ItemsText ⟨seen, ids⟩ (barred words) ⟨seen ++ words, ids⟩ := by
  induction words generalizing seen with
  | nil => exact absurd rfl hne
  | cons word words ih =>
    rw [List.forall_mem_cons] at hwords
    have hnew : word ∉ seen := fun hmem =>
      (List.nodup_append.1 hdistinct).2.2 word hmem word (by simp) rfl
    by_cases hlast : words = []
    · have hitem := @ItemsText.last _ _ _ [] (ItemText.word (l := ⟨seen, ids⟩) hwords.1 hnew)
        (by simp [IsBlanks])
      rw [List.append_nil] at hitem
      rw [hlast, barred_singleton]
      exact hitem
    · rw [barred_cons word hlast]
      refine .more (.word hwords.1 hnew) (by simp [IsBlanks]) (by simp [IsBlanks]) ?_
      have hrest := @ih (seen ++ [word]) hlast hwords.2 (by simpa using hdistinct)
      rwa [List.append_assoc] at hrest

theorem itemsText_identifiers {identifiers words seen : List String} (hne : identifiers ≠ [])
    (hids : ∀ identifier ∈ identifiers, IsIdentifier identifier) :
    ItemsText ⟨words, seen⟩ (barred identifiers) ⟨words, seen ++ identifiers⟩ := by
  induction identifiers generalizing seen with
  | nil => exact absurd rfl hne
  | cons identifier identifiers ih =>
    rw [List.forall_mem_cons] at hids
    by_cases hlast : identifiers = []
    · have hitem := @ItemsText.last _ _ _ [] (ItemText.identifier (l := ⟨words, seen⟩) hids.1)
        (by simp [IsBlanks])
      rw [List.append_nil] at hitem
      rw [hlast, barred_singleton]
      exact hitem
    · rw [barred_cons identifier hlast]
      refine .more (.identifier hids.1) (by simp [IsBlanks]) (by simp [IsBlanks]) ?_
      have hrest := @ih (seen ++ [identifier]) hlast hids.2
      rwa [List.append_assoc] at hrest

theorem groupText_words {words : List String} (htwo : 2 ≤ words.length) (hdistinct : words.Nodup)
    (hwords : ∀ word ∈ words, IsWord word) :
    GroupText (writeAlternatives words).toList (.words words) := by
  have hne : words ≠ [] := by
    rintro rfl
    exact absurd htwo (by decide)
  have hitems := @itemsText_words words [] [] hne hwords (by simpa using hdistinct)
  exact ⟨[], _, _, by simp [IsBlanks], hitems, .words htwo, toList_writeAlternatives words⟩

/-- **The words of a group are written as a group of them.** -/
theorem GroupText.write_words {cs : List Char} {words : List String}
    (h : GroupText cs (.words words)) :
    GroupText (writeAlternatives words).toList (.words words) := by
  obtain ⟨htwo, hdistinct, hwords⟩ := h.words_distinct
  exact groupText_words htwo hdistinct hwords

end Synopsis
