import Synopsis.Proofs.Lexemes
import Synopsis.Proofs.Steps
import Synopsis.Usage

/-!
# Where complaints are

**Theorem (`Usage.placed_of_compile`).** A complaint about a usage text is about a place of that
text: it starts where the text can be cut, and ends where it can be cut, too, or one byte on.

A reader remembers places to complain about, the start of a group for one, and goes on. All of them
are cuts of the text at or before the cursor (`ReaderState.In`), and stay so, as the cursor only goes
on by whole characters. So there is one statement for each step (`Reader.Stays`): from a state that
has some places it goes to one that has them still, with those that its result brings, or complains
about a place of the text. A sequence of such steps is one (`Stays.bind`), and so no step is looked
into twice.
-/

namespace Synopsis

/-- The text can be cut after `n` bytes. -/
def IsCut (text : List Char) (n : Nat) : Prop :=
  ∃ before after, text = before ++ after ∧ n = String.utf8Len before

/-- The span starts at a cut of the text, and ends at one or after one byte. -/
structure Span.Fits (span : Span) (text : List Char) : Prop where
  start : IsCut text span.start
  le : span.start ≤ span.stop
  stop : IsCut text span.stop ∨ span.stop = span.start + 1

/-- The state is a place of the text, at or after some others. -/
structure ReaderState.In (s : ReaderState) (text : List Char) (places : List Nat) : Prop where
  here : ∃ before, text = before ++ s.rest ∧ s.offset = String.utf8Len before
  cuts : ∀ n ∈ places, IsCut text n ∧ n ≤ s.offset

section In

variable {text : List Char} {places places' : List Nat} {s : ReaderState} {n : Nat}

theorem ReaderState.In.isCut (h : s.In text places) : IsCut text s.offset := by
  obtain ⟨before, htext, hoffset⟩ := h.here
  exact ⟨before, s.rest, htext, hoffset⟩

theorem ReaderState.In.mono (h : s.In text places) (hsub : places' ⊆ places) : s.In text places' :=
  ⟨h.here, fun n hn => h.cuts n (hsub hn)⟩

/-- The cursor goes on by whole characters. -/
theorem ReaderState.In.advance (h : s.In text places) (n : Nat) : (s.advance n).In text places := by
  obtain ⟨before, htext, hoffset⟩ := h.here
  refine ⟨⟨before ++ s.rest.take n, ?_, ?_⟩, fun m hm => ⟨(h.cuts m hm).1, ?_⟩⟩
  · rw [ReaderState.advance, List.append_assoc, List.take_append_drop, htext]
  · rw [String.utf8Len_append, ← hoffset, ← String.utf8ByteSize_ofList (s.rest.take n)]
    rfl
  · exact (h.cuts m hm).2.trans (Nat.le_add_right _ _)

/-- The text from a place to the cursor is a place to complain about. -/
theorem ReaderState.In.fits (h : s.In text places) (hn : n ∈ places) :
    (Span.upTo n s.offset).Fits text := by
  obtain ⟨hcut, hle⟩ := h.cuts n hn
  by_cases heq : n = s.offset
  · have hstop : max s.offset (n + 1) = n + 1 := by omega
    exact ⟨hcut, by simp only [Span.upTo]; omega, Or.inr hstop⟩
  · have hstop : (Span.upTo n s.offset).stop = s.offset := by
      show max s.offset (n + 1) = s.offset
      omega
    exact ⟨hcut, hstop.symm ▸ hle, Or.inl (hstop.symm ▸ h.isCut)⟩

end In

theorem Lexeme.option_prefix (cs : List Char) : option cs <+: cs := by
  have hname (cs : List Char) : optionName cs <+: cs := leading_prefix _ _ cs
  unfold option
  split
  · split
    · exact List.nil_prefix
    · exact (List.prefix_append_right_inj ['-', '-']).2 (hname _)
  · split
    · exact List.nil_prefix
    · exact (List.prefix_append_right_inj ['-']).2 (hname _)
  · exact List.nil_prefix

namespace Reader

/-- From a place of the text that is at or after the given ones, the reader goes on to another such
place, also after those that its result brings, or complains about a place of the text. -/
def Stays {α : Type} (text : List Char) (places : List Nat) (brings : α → List Nat)
    (x : Reader α) : Prop :=
  ∀ s : ReaderState, s.In text places →
    match x s with
    | .ok a s' => s'.In text (brings a ++ places)
    | .error fault _ => fault.span.Fits text

/-- Results that bring no places. -/
def nothing {α : Type} : α → List Nat := fun _ => []

@[simp] theorem nothing_eq_nil {α : Type} (a : α) : nothing a = [] := rfl

/-- The places of the identifiers that a group has listed. -/
def Listed.places (items : Listed) : List Nat := items.identifiers.map (·.2)

/-- The places where a spelling starts and ends. -/
def spellingPlaces (entry : String × Nat) : List Nat :=
  [entry.2, entry.2 + entry.1.utf8ByteSize]

section Stays

variable {α β : Type} {text : List Char} {places : List Nat} {brings : α → List Nat}
  {brings' : β → List Nat} {n : Nat}

theorem Stays.bind {x : Reader α} {f : α → Reader β} (hx : x.Stays text places brings)
    (hf : ∀ a, (f a).Stays text (brings a ++ places) brings') :
    (x >>= f).Stays text places brings' := by
  intro s hs
  have hfirst := hx s hs
  show match EStateM.bind x f s with
    | .ok b s' => s'.In text (brings' b ++ places)
    | .error fault _ => fault.span.Fits text
  unfold EStateM.bind
  cases hrun : x s with
  | error fault s' => simpa [hrun] using hfirst
  | ok a s' =>
    rw [hrun] at hfirst
    have hsecond := hf a s' hfirst
    cases hrun' : f a s' with
    | error fault s'' => simpa [hrun'] using hsecond
    | ok b s'' =>
      rw [hrun'] at hsecond
      simp only [hrun']
      refine hsecond.mono fun m hm => ?_
      simp only [List.mem_append] at hm ⊢
      tauto

theorem Stays.ite {c : Prop} [Decidable c] {x y : Reader α} (hx : c → x.Stays text places brings)
    (hy : ¬c → y.Stays text places brings) : (if c then x else y).Stays text places brings := by
  split_ifs with hc
  · exact hx hc
  · exact hy hc

theorem stays_pure {a : α} (h : brings a ⊆ places) :
    (pure a : Reader α).Stays text places brings := by
  intro s hs
  refine hs.mono fun m hm => ?_
  rcases List.mem_append.1 hm with hm | hm
  · exact h hm
  · exact hm

theorem stays_pure_nothing (a : α) : (pure a : Reader α).Stays text places nothing :=
  stays_pure (List.nil_subset _)

theorem stays_throw_bind {fault : Fault} (h : ∀ s : ReaderState, s.In text places → fault.span.Fits text)
    {f : β → Reader α} : ((throw fault : Reader β) >>= f).Stays text places brings :=
  fun s hs => h s hs

theorem stays_fail {kind : FaultKind} {detail : String} (hn : n ∈ places) :
    (fail kind detail n : Reader α).Stays text places brings :=
  fun _ hs => hs.fits hn

theorem stays_fail_bind {kind : FaultKind} {detail : String} (hn : n ∈ places)
    {f : β → Reader α} : ((fail kind detail n : Reader β) >>= f).Stays text places brings :=
  fun _ hs => hs.fits hn

/-! ### Steps through the text -/

theorem stays_offset : offset.Stays text places fun n => [n] := by
  intro s hs
  refine ⟨hs.here, fun m hm => ?_⟩
  rcases List.mem_cons.1 hm with rfl | hm
  · exact ⟨hs.isCut, Nat.le_refl _⟩
  · exact hs.cuts m hm

theorem stays_remaining : remaining.Stays text places nothing := fun _ hs => hs

theorem stays_get : (get : Reader ReaderState).Stays text places nothing := fun _ hs => hs

theorem stays_advance (n : Nat) :
    (modify (·.advance n) : Reader Unit).Stays text places nothing :=
  fun _ hs => hs.advance n

theorem stays_accept (lexeme : List Char → List Char) :
    (accept lexeme).Stays text places nothing :=
  fun s hs => hs.advance (lexeme s.rest).length

theorem stays_acceptMark (mark : String) : (acceptMark mark).Stays text places nothing := by
  refine stays_remaining.bind fun cs => .ite (fun _ => ?_) fun _ => stays_pure_nothing _
  exact (stays_advance _).bind fun _ => stays_pure_nothing _

theorem stays_skipBlanks : skipBlanks.Stays text places nothing :=
  (stays_accept _).bind fun _ => stays_pure_nothing _

theorem stays_acceptMarkBlanks (mark : String) :
    (acceptMarkBlanks mark).Stays text places nothing := by
  refine (stays_acceptMark mark).bind fun found => .ite (fun _ => ?_) fun _ => stays_pure_nothing _
  exact stays_skipBlanks.bind fun _ => stays_pure_nothing _

theorem stays_resolving {step : Registry.Step α} (hn : n ∈ places) :
    (resolving n step).Stays text places nothing := by
  intro s hs
  unfold resolving
  cases step s.registry with
  | ok a r => exact ⟨hs.here, hs.cuts⟩
  | error e r => exact hs.fits hn

theorem stays_identified {identifier : String} (hn : n ∈ places) :
    (identified n identifier).Stays text places nothing := by
  unfold identified
  cases readIdentifier identifier with
  | ok named => exact stays_pure_nothing named
  | error e => exact stays_fail hn

theorem stays_expectBoundary : expectBoundary.Stays text places nothing := by
  refine stays_remaining.bind fun cs => .ite (fun _ => stays_pure_nothing _) fun _ => ?_
  exact stays_offset.bind fun here => stays_fail (by simp)

theorem stays_note : note.Stays text places nothing := by
  refine stays_remaining.bind fun cs => ?_
  cases Lexeme.note? cs with
  | none => exact stays_pure_nothing _
  | some found => exact (stays_advance _).bind fun _ => stays_pure_nothing _

theorem stays_rejectNote : rejectNote.Stays text places nothing := by
  refine stays_remaining.bind fun cs => .ite (fun _ => ?_) fun _ => stays_pure_nothing _
  exact stays_offset.bind fun here => stays_fail (by simp)

/-! ### Groups and types -/

theorem stays_item {items : Listed} (hitems : items.places ⊆ places) :
    (item items).Stays text places Listed.places := by
  refine stays_offset.bind fun start => ?_
  refine (stays_accept _).bind fun identifier => .ite (fun _ => stays_pure ?_) fun _ => ?_
  · intro m hm
    simp only [Listed.places, List.map_append, List.map_cons, List.map_nil, List.mem_append,
      List.mem_singleton] at hm
    rcases hm with hm | rfl
    · exact List.mem_cons_of_mem _ (hitems hm)
    · exact List.mem_cons_self
  · refine (stays_accept _).bind fun word => ?_
    refine .ite (fun _ => stays_fail_bind List.mem_cons_self) fun _ => ?_
    refine .ite (fun _ => stays_fail_bind List.mem_cons_self) fun _ => stays_pure fun m hm => ?_
    exact List.mem_cons_of_mem _ (hitems hm)

theorem stays_listed (fuel : Nat) {items : Listed} (hitems : items.places ⊆ places) :
    (listed fuel items).Stays text places Listed.places := by
  induction fuel generalizing items places with
  | zero => exact stays_pure hitems
  | succ fuel ih =>
    refine (stays_item hitems).bind fun items' => ?_
    refine stays_skipBlanks.bind fun _ => (stays_acceptMarkBlanks "|").bind fun more => ?_
    exact .ite (fun _ => ih (List.subset_append_left _ _))
      fun _ => stays_pure (List.subset_append_left _ _)

theorem stays_mapM {f : α → Reader β} {as : List α}
    (hf : ∀ a ∈ as, (f a).Stays text places nothing) :
    (as.mapM f).Stays text places nothing := by
  induction as with
  | nil => exact stays_pure_nothing []
  | cons a as ih =>
    rw [List.forall_mem_cons] at hf
    rw [List.mapM_cons]
    exact hf.1.bind fun b => (ih hf.2).bind fun bs => stays_pure_nothing (b :: bs)

theorem stays_alternatives : alternatives.Stays text places nothing := by
  refine stays_offset.bind fun start => (stays_acceptMarkBlanks "(").bind fun _ => ?_
  refine stays_remaining.bind fun cs => ?_
  refine (stays_listed _ (List.nil_subset _)).bind fun items => ?_
  have hstart : start ∈ items.places ++ start :: places := by simp
  refine (stays_acceptMark ")").bind fun closed => ?_
  refine .ite (fun _ => ?_) fun _ => stays_fail_bind hstart
  refine .ite (fun _ => stays_fail_bind hstart) fun _ => ?_
  refine .ite (fun _ => stays_fail_bind hstart) fun _ => ?_
  refine .ite (fun _ => ?_) fun _ => stays_pure_nothing _
  refine (stays_mapM fun entry hentry => ?_).bind fun names => stays_pure_nothing _
  have hplace : entry.2 ∈ items.places ++ start :: places :=
    List.mem_append_left _ (List.mem_map_of_mem hentry)
  exact (stays_identified hplace).bind fun named => stays_pure_nothing named.1

theorem stays_alternativesType {group : Alternatives} (hn : n ∈ places) :
    (alternativesType n group).Stays text places nothing := by
  cases group with
  | words words =>
    show (resolving n (Registry.keeping (.choice words))).Stays text places nothing
    exact stays_resolving hn
  | types names =>
    show (resolving n (Registry.union names)).Stays text places nothing
    exact stays_resolving hn

theorem stays_valueType : valueType.Stays text places nothing := by
  refine stays_offset.bind fun start => stays_remaining.bind fun cs => ?_
  refine .ite (fun _ => ?_) fun _ => (stays_accept _).bind fun identifier => ?_
  · refine stays_alternatives.bind fun group => ?_
    refine (stays_alternativesType List.mem_cons_self).bind fun type => ?_
    exact stays_remaining.bind fun after => stays_pure_nothing _
  · refine .ite (fun _ => stays_fail_bind List.mem_cons_self) fun _ => ?_
    refine (stays_identified List.mem_cons_self).bind fun named => ?_
    exact (stays_resolving List.mem_cons_self).bind fun type => stays_pure_nothing _

/-! ### Options -/

/-- What is taken ends where the cursor then is. -/
theorem stays_taken {lexeme : List Char → List Char} (hlexeme : ∀ cs, lexeme cs <+: cs)
    {f : Nat → List Char → Reader β}
    (hf : ∀ start found, (f start found).Stays text
      (start :: (start + (String.ofList found).utf8ByteSize) :: places) brings') :
    (do let start ← offset; let found ← accept lexeme; f start found).Stays text places brings' := by
  intro s hs
  obtain ⟨before, htext, hoffset⟩ := hs.here
  have hnext : (s.advance (lexeme s.rest).length).In text
      (s.offset :: (s.offset + (String.ofList (lexeme s.rest)).utf8ByteSize) :: places) := by
    have hadvance := hs.advance (lexeme s.rest).length
    have htake : s.rest.take (lexeme s.rest).length = lexeme s.rest :=
      (List.prefix_iff_eq_take.1 (hlexeme s.rest)).symm
    have hstop : s.offset + (String.ofList (lexeme s.rest)).utf8ByteSize =
        (s.advance (lexeme s.rest).length).offset := by
      rw [ReaderState.advance, htake]
    refine ⟨hadvance.here, fun m hm => ?_⟩
    rcases List.mem_cons.1 hm with rfl | hm
    · exact ⟨hs.isCut, Nat.le_add_right _ _⟩
    rcases List.mem_cons.1 hm with rfl | hm
    · rw [hstop]
      exact ⟨hadvance.isCut, Nat.le_refl _⟩
    · exact hadvance.cuts m hm
  have hrun := hf s.offset (lexeme s.rest) _ hnext
  show match f s.offset (lexeme s.rest) (s.advance (lexeme s.rest).length) with
    | .ok b s' => s'.In text (brings' b ++ places)
    | .error fault _ => fault.span.Fits text
  cases hrest : f s.offset (lexeme s.rest) (s.advance (lexeme s.rest).length) with
  | error fault s' => simpa [hrest] using hrun
  | ok b s' =>
    rw [hrest] at hrun
    refine hrun.mono fun m hm => ?_
    simp only [List.mem_append, List.mem_cons] at hm ⊢
    tauto

theorem stays_spelling : spelling.Stays text places spellingPlaces := by
  refine stays_taken Lexeme.option_prefix fun start found => ?_
  refine .ite (fun _ => stays_fail_bind List.mem_cons_self) fun _ => ?_
  refine .ite (fun _ => stays_pure ?_) fun _ => stays_fail_bind List.mem_cons_self
  exact fun m hm => by simpa [spellingPlaces, or_assoc] using List.mem_append_left places hm

theorem stays_spellings (fuel : Nat) :
    (spellings fuel).Stays text places fun entries => entries.flatMap spellingPlaces := by
  induction fuel generalizing places with
  | zero => exact stays_pure (List.nil_subset _)
  | succ fuel ih =>
    refine stays_spelling.bind fun first => stays_skipBlanks.bind fun _ => ?_
    refine (stays_acceptMarkBlanks "|").bind fun more => .ite (fun _ => ?_) fun _ => ?_
    · refine ih.bind fun rest => stays_pure fun m hm => ?_
      replace hm : m ∈ spellingPlaces first ++ rest.flatMap spellingPlaces := hm
      rw [List.mem_append] at hm
      simp only [nothing_eq_nil, List.nil_append, List.mem_append]
      tauto
    · refine stays_pure fun m hm => ?_
      simpa using Or.inl hm

theorem stays_takenValue : takenValue.Stays text places nothing := by
  refine stays_offset.bind fun start => (stays_acceptMark "=").bind fun required => ?_
  refine .ite (fun _ => stays_valueType.bind fun typed => stays_pure_nothing _) fun _ => ?_
  refine (stays_acceptMark "[=").bind fun optional => ?_
  refine .ite (fun _ => stays_valueType.bind fun typed => ?_) fun _ => stays_pure_nothing _
  refine (stays_acceptMark "]").bind fun closed => ?_
  exact .ite (fun _ => stays_pure_nothing _) fun _ => stays_fail_bind List.mem_cons_self

theorem stays_rejectRepeats {entries : List (String × Nat)} {seen : List String}
    (h : entries.flatMap spellingPlaces ⊆ places) :
    (rejectRepeats seen entries).Stays text places nothing := by
  induction entries generalizing seen with
  | nil => exact stays_pure_nothing ()
  | cons entry entries ih =>
    obtain ⟨hentry, hentries⟩ : spellingPlaces entry ⊆ places ∧
        entries.flatMap spellingPlaces ⊆ places := by
      rwa [List.flatMap_cons, List.append_subset] at h
    refine .ite (fun _ => stays_throw_bind fun s hs => ?_) fun _ => ih hentries
    exact ⟨(hs.cuts entry.2 (hentry (by simp [spellingPlaces]))).1, Nat.le_add_right _ _,
      Or.inl (hs.cuts _ (hentry (by simp [spellingPlaces]))).1⟩

theorem stays_declareLong {shared : Shared} {entries : List (String × Nat)}
    {declared : List Declaration} {short : Option String}
    (h : entries.flatMap spellingPlaces ⊆ places) :
    (declareLong shared entries declared short).Stays text places nothing := by
  induction entries generalizing declared short with
  | nil => exact stays_pure_nothing _
  | cons entry entries ih =>
    obtain ⟨hentry, hentries⟩ : spellingPlaces entry ⊆ places ∧
        entries.flatMap spellingPlaces ⊆ places := by
      rwa [List.flatMap_cons, List.append_subset] at h
    have hstart : entry.2 ∈ places := hentry (by simp [spellingPlaces])
    refine .ite (fun _ => .ite (fun _ => ?_) fun _ => ih hentries) fun _ => ?_
    · exact .ite (fun _ => ih hentries) fun _ => stays_fail_bind hstart
    · exact .ite (fun _ => stays_fail_bind hstart) fun _ => ih hentries

theorem stays_declarations {entries : List (String × Nat)} {shared : Shared}
    (h : entries.flatMap spellingPlaces ⊆ places) :
    (declarations entries shared).Stays text places nothing := by
  refine (stays_rejectRepeats h).bind fun _ => (stays_declareLong h).bind fun (declared, short) => ?_
  cases short with
  | none => exact stays_pure_nothing _
  | some spelling => exact stays_pure_nothing _

theorem stays_optionGroup (opener closer : String) :
    (optionGroup opener closer).Stays text places nothing := by
  refine stays_offset.bind fun start => (stays_acceptMarkBlanks opener).bind fun _ => ?_
  refine stays_remaining.bind fun cs => (stays_spellings _).bind fun entries => ?_
  refine stays_skipBlanks.bind fun _ => stays_takenValue.bind fun taken => ?_
  refine stays_skipBlanks.bind fun _ => (stays_acceptMark closer).bind fun closed => ?_
  refine .ite (fun _ => ?_) fun _ => stays_fail_bind (by simp)
  refine (stays_acceptMark "...").bind fun recurs => stays_note.bind fun note => ?_
  exact stays_declarations (List.subset_append_left _ _)

theorem stays_bareOption : bareOption.Stays text places nothing := by
  refine stays_spelling.bind fun entry => stays_takenValue.bind fun taken => ?_
  refine (stays_acceptMark "...").bind fun recurs => stays_expectBoundary.bind fun _ => ?_
  refine stays_note.bind fun note => stays_declarations ?_
  simp

theorem stays_options (fuel : Nat) : (options fuel).Stays text places nothing := by
  induction fuel with
  | zero => exact stays_pure_nothing _
  | succ fuel ih =>
    refine stays_skipBlanks.bind fun _ => stays_remaining.bind fun cs => ?_
    cases optionForm? cs with
    | none => exact stays_pure_nothing _
    | some form =>
      cases form with
      | bracketed =>
        exact (stays_optionGroup "[" "]").bind fun _ => ih.bind fun _ => stays_pure_nothing _
      | parenthesized =>
        exact (stays_optionGroup "(" ")").bind fun _ => ih.bind fun _ => stays_pure_nothing _
      | bare => exact stays_bareOption.bind fun _ => ih.bind fun _ => stays_pure_nothing _

/-! ### Words and terms -/

theorem stays_words (fuel : Nat) : (words fuel).Stays text places nothing := by
  induction fuel with
  | zero => exact stays_pure_nothing _
  | succ fuel ih =>
    refine stays_remaining.bind fun cs => .ite (fun _ => stays_pure_nothing _) fun _ => ?_
    refine (stays_accept _).bind fun _ => stays_skipBlanks.bind fun _ => ?_
    exact ih.bind fun rest => stays_pure_nothing _

theorem stays_typed : typed.Stays text places nothing := by
  refine stays_offset.bind fun start => (stays_accept _).bind fun identifier => ?_
  refine (stays_identified List.mem_cons_self).bind fun named => ?_
  refine (stays_resolving List.mem_cons_self).bind fun type => ?_
  refine .ite (fun _ => stays_get.bind fun s => ?_) fun _ => stays_pure_nothing _
  refine .ite (fun _ => stays_fail_bind List.mem_cons_self) fun _ => ?_
  refine Stays.bind (show Stays text _ nothing _ from fun s hs => ?_) fun _ => stays_pure_nothing _
  exact ⟨hs.here, hs.cuts⟩

theorem stays_grouped : grouped.Stays text places nothing := by
  refine stays_offset.bind fun start => stays_alternatives.bind fun group => ?_
  refine (stays_alternativesType List.mem_cons_self).bind fun type => ?_
  cases group with
  | words words => exact stays_pure_nothing _
  | types names => exact stays_pure_nothing _

theorem stays_repeatable (term : Term) : (repeatable term).Stays text places nothing := by
  refine (stays_acceptMark "...").bind fun found => .ite (fun _ => ?_) fun _ => ?_
  · exact stays_expectBoundary.bind fun _ => stays_note.bind fun note => stays_pure_nothing _
  · exact stays_expectBoundary.bind fun _ => stays_rejectNote.bind fun _ => stays_pure_nothing _

theorem stays_wordTerm : wordTerm.Stays text places nothing := by
  refine (stays_accept _).bind fun word => stays_expectBoundary.bind fun _ => ?_
  exact stays_rejectNote.bind fun _ => stays_pure_nothing _

theorem stays_repeatedSegment {ts : List Term} (hn : n ∈ places) :
    (repeatedSegment ts n).Stays text places nothing := by
  refine .ite (fun _ => stays_fail_bind hn) fun _ => ?_
  split
  · exact stays_fail hn
  · exact stays_fail hn
  · exact stays_fail hn
  · exact stays_fail hn
  · exact stays_expectBoundary.bind fun _ => stays_note.bind fun note => stays_pure_nothing _

theorem stays_segmentTerm {ts : List Term} {segmentSeen : Bool} (hn : n ∈ places) :
    (segmentTerm ts segmentSeen n).Stays text places nothing := by
  refine stays_skipBlanks.bind fun _ => (stays_acceptMark "]").bind fun closed => ?_
  refine .ite (fun _ => ?_) fun _ => stays_fail_bind hn
  refine (stays_acceptMark "...").bind fun repeated => ?_
  refine .ite (fun _ => stays_repeatedSegment hn) fun _ => ?_
  refine .ite (fun _ => stays_fail_bind hn) fun _ => ?_
  refine .ite (fun _ => stays_fail_bind hn) fun _ => ?_
  exact stays_rejectNote.bind fun _ => stays_pure_nothing _

theorem stays_restTerm {depth : Nat} (hn : n ∈ places) :
    (restTerm depth n).Stays text places nothing := by
  refine (stays_acceptMark "...").bind fun _ => stays_skipBlanks.bind fun _ => ?_
  refine stays_remaining.bind fun cs => ?_
  exact .ite (fun _ => stays_fail_bind hn) fun _ => stays_pure_nothing _

theorem stays_terms (fuel depth : Nat) (segmentSeen : Bool) :
    (terms fuel depth segmentSeen).Stays text places nothing := by
  induction fuel generalizing depth segmentSeen places with
  | zero => exact stays_pure_nothing _
  | succ fuel ih =>
    refine stays_skipBlanks.bind fun _ => stays_offset.bind fun start => ?_
    refine stays_remaining.bind fun cs => ?_
    cases opening cs with
    | levelEnd => exact stays_pure_nothing _
    | segment =>
      refine (stays_acceptMark "[").bind fun _ => (ih _ _).bind fun inner => ?_
      refine (stays_segmentTerm List.mem_cons_self).bind fun term => ?_
      exact (ih _ _).bind fun rest => stays_pure_nothing _
    | rest => exact (stays_restTerm List.mem_cons_self).bind fun term => stays_pure_nothing _
    | group =>
      refine stays_grouped.bind fun term => (stays_repeatable term).bind fun term => ?_
      exact (ih _ _).bind fun rest => stays_pure_nothing _
    | identifier =>
      refine stays_typed.bind fun term => (stays_repeatable term).bind fun term => ?_
      exact (ih _ _).bind fun rest => stays_pure_nothing _
    | word => exact stays_wordTerm.bind fun term => (ih _ _).bind fun rest => stays_pure_nothing _
    | option => exact (stays_accept _).bind fun _ => stays_fail List.mem_cons_self
    | unexpected => exact stays_fail List.mem_cons_self

theorem stays_outline : outline.Stays text places nothing := by
  refine stays_skipBlanks.bind fun _ => stays_remaining.bind fun cs => ?_
  refine (stays_words _).bind fun words => (stays_options _).bind fun declared => ?_
  refine (stays_terms _ _ _).bind fun terms => stays_skipBlanks.bind fun _ => ?_
  refine stays_remaining.bind fun rest => .ite (fun _ => stays_pure_nothing _) fun _ => ?_
  exact stays_offset.bind fun here => stays_fail_bind List.mem_cons_self

end Stays

end Reader

/-! ## Usages -/

theorem Outline.placed_of_read {text : String} {r r' : Registry} {e : GrammarError}
    (h : read text r = .error e r') : e.text = text ∧ e.span.Fits text.toList := by
  have hin : ({ rest := text.toList, registry := r } : ReaderState).In text.toList [] :=
    ⟨⟨[], rfl, rfl⟩, by simp⟩
  have hrun := @Reader.stays_outline text.toList [] _ hin
  unfold read at h
  cases houtline : Reader.outline { rest := text.toList, registry := r } with
  | ok outline s => simp [houtline] at h
  | error fault s =>
    rw [houtline] at h hrun
    obtain ⟨rfl, -⟩ := EStateM.Result.error.inj h
    exact ⟨rfl, hrun⟩

namespace Usage

theorem building_error_iff {ε α : Type} {error : ε → UsageError} {step : EStateM ε Registry α}
    {r r' : Registry} {e : UsageError} :
    building error step r = .error e r' ↔ ∃ e', step r = .error e' r' ∧ e = error e' := by
  unfold building
  cases step r with
  | ok a r₁ => simp
  | error e₁ r₁ => simp [eq_comm, and_comm]

theorem read_of_compile_grammar {text : String} {r r' : Registry} {e : GrammarError}
    (h : compile text r = .error (.grammar e) r') : Outline.read text r = .error e r' := by
  simp only [compile, keeping_bind_error_iff, building_error_iff] at h
  rcases h with ⟨e', hread, heq⟩ | ⟨outline, r₁, -, h⟩
  · rwa [UsageError.grammar.inj heq]
  rcases h with ⟨e', -, heq⟩ | ⟨options, r₂, -, h⟩
  · simp at heq
  rcases h with ⟨e', -, heq⟩ | ⟨layout, r₃, -, h⟩
  · simp at heq
  -- the table complains about options only
  unfold tableOf at h
  cases htable : SwitchTable.build options with
  | ok switches => simp [htable, Except.mapError, pure, EStateM.pure] at h
  | error e' =>
    simp [htable, Except.mapError, throw, throwThe, MonadExceptOf.throw, EStateM.throw] at h

/-- **A complaint about the grammar of a text is about a place of the text.** -/
theorem placed_of_compile {text : String} {r r' : Registry} {e : GrammarError}
    (h : compile text r = .error (.grammar e) r') : e.text = text ∧ e.span.Fits text.toList :=
  Outline.placed_of_read (read_of_compile_grammar h)

end Usage

end Synopsis
