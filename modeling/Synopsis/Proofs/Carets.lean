import Synopsis.Proofs.Compiled
import Synopsis.Proofs.Places
import Synopsis.Registry.Standard

/-!
# How complaints are shown

A complaint about a usage text is shown as the line that it starts in, with carets below.

**Theorem (`Usage.shown_of_compile`).** The complaint starts at a cut of the text and does not end
before. It can be shown unless its span takes one byte of a wider character (`Span.Cuts`), and then
the line is the one that holds its start, and there are carets under exactly the characters from
there to the end of the span or of the line, and one at least (`Span.Marks`).

A span of one byte is what is left where nothing was read since its start, as the cursor has not
gone on. If a wider character stands there, the text cannot be cut after one byte, and the complaint
cannot be shown (`Usage.unshown_wideCharacter`).
-/

namespace Synopsis

/-! ## Cuts of a text -/

theorem splitBytes?_append (before after : List Char) :
    splitBytes? (String.utf8Len before) (before ++ after) = some (before, after) := by
  induction before with
  | nil => simp [splitBytes?]
  | cons c cs ih =>
    have hc : 0 < c.utf8Size := c.utf8Size_pos
    obtain ⟨n, hn⟩ : ∃ n, String.utf8Len (c :: cs) = n + 1 :=
      ⟨String.utf8Len (c :: cs) - 1, by rw [String.utf8Len_cons]; omega⟩
    have hrest : n + 1 - c.utf8Size = String.utf8Len cs := by rw [← hn, String.utf8Len_cons]; omega
    have hle : c.utf8Size ≤ n + 1 := by rw [← hn, String.utf8Len_cons]; omega
    rw [hn, List.cons_append, splitBytes?, if_pos hle, hrest, ih]
    rfl

theorem eq_append_of_splitBytes? {n : Nat} {cs before after : List Char}
    (h : splitBytes? n cs = some (before, after)) :
    cs = before ++ after ∧ n = String.utf8Len before := by
  induction cs generalizing n before with
  | nil =>
    cases n with
    | zero => simp_all [splitBytes?]
    | succ n => simp [splitBytes?] at h
  | cons c cs ih =>
    cases n with
    | zero => simp_all [splitBytes?]
    | succ n =>
      rw [splitBytes?] at h
      split at h
      · next hle =>
        obtain ⟨⟨b, a⟩, hsplit, heq⟩ := Option.map_eq_some_iff.1 h
        obtain ⟨rfl, rfl⟩ := Prod.mk.injEq .. ▸ heq
        obtain ⟨hcs, hn⟩ := ih hsplit
        refine ⟨by rw [hcs, List.cons_append], ?_⟩
        rw [String.utf8Len_cons]
        omega
      · simp at h

/-- **Cuts.** A text is cut after `n` bytes exactly where its first characters make up `n` bytes. -/
theorem splitBytes?_eq_some_iff {n : Nat} {cs before after : List Char} :
    splitBytes? n cs = some (before, after) ↔ cs = before ++ after ∧ n = String.utf8Len before :=
  ⟨eq_append_of_splitBytes?, fun ⟨hcs, hn⟩ => hcs ▸ hn ▸ splitBytes?_append before after⟩

/-- Of two cuts, the later one cuts what is left after the earlier one. -/
theorem IsCut.after {before after : List Char} {n : Nat} (h : IsCut (before ++ after) n)
    (hle : String.utf8Len before ≤ n) :
    ∃ mid rest, after = mid ++ rest ∧ n = String.utf8Len before + String.utf8Len mid := by
  obtain ⟨before', after', htext, rfl⟩ := h
  rcases List.append_eq_append_iff.1 htext with ⟨mid, rfl, rfl⟩ | ⟨mid, rfl, rfl⟩
  · exact ⟨mid, after', rfl, String.utf8Len_append _ _⟩
  · rw [String.utf8Len_append] at hle ⊢
    have hmid : mid = [] := String.utf8Len_eq_zero.1 (by omega)
    exact ⟨[], after, rfl, by simp [hmid]⟩

/-! ## Lines -/

/-- What a text ends in after its last line break. -/
def lineHead (before : List Char) : List Char := (before.reverse.takeWhile (· ≠ '\n')).reverse

/-- What a text starts with before its first line break. -/
def lineTail (after : List Char) : List Char := after.takeWhile (· ≠ '\n')

@[simp] theorem lineTail_nil : lineTail [] = [] := rfl

@[simp] theorem lineTail_newline (after : List Char) : lineTail ('\n' :: after) = [] := rfl

theorem newline_notMem_lineTail (after : List Char) : '\n' ∉ lineTail after := by
  intro hmem
  simpa using List.mem_takeWhile_imp hmem

theorem newline_notMem_lineHead (before : List Char) : '\n' ∉ lineHead before := by
  unfold lineHead
  rw [List.mem_reverse]
  exact newline_notMem_lineTail before.reverse

theorem exists_lineTail (after : List Char) :
    ∃ later, after = lineTail after ++ later ∧ ∀ c ∈ later.head?, c = '\n' := by
  refine ⟨after.dropWhile (· ≠ '\n'), (List.takeWhile_append_dropWhile).symm, fun c hc => ?_⟩
  have hstop := List.head?_dropWhile_not (· ≠ '\n') after
  rw [hc] at hstop
  simpa using hstop

theorem exists_lineHead (before : List Char) :
    ∃ earlier, before = earlier ++ lineHead before ∧ ∀ c ∈ earlier.getLast?, c = '\n' := by
  obtain ⟨later, hline, hlater⟩ := exists_lineTail before.reverse
  refine ⟨later.reverse, ?_, ?_⟩
  · have hreverse := congrArg List.reverse hline
    rwa [List.reverse_reverse, List.reverse_append] at hreverse
  · rwa [List.getLast?_reverse]

namespace Span

/-- The span is one byte of a wider character. -/
def Cuts (span : Span) (text : List Char) : Prop :=
  ∃ before c after, text = before ++ c :: after ∧ span.start = String.utf8Len before ∧
    span.stop = span.start + 1 ∧ 1 < c.utf8Size

/-- A line of the text: the characters before the span, those from its start to its end or the end
of the line, and the others. -/
structure Marks (span : Span) (text head marked rest : List Char) : Prop where
  line : ∃ earlier later, text = earlier ++ (head ++ marked ++ rest) ++ later ∧
    (∀ c ∈ earlier.getLast?, c = '\n') ∧ (∀ c ∈ later.head?, c = '\n') ∧
    span.start = String.utf8Len (earlier ++ head) ∧
    min span.stop (String.utf8Len (earlier ++ head ++ marked ++ rest)) =
      String.utf8Len (earlier ++ head ++ marked)
  within : '\n' ∉ head ++ marked ++ rest

/-- A complaint with a line and the carets under it. -/
def shown (detail : String) (head marked rest : List Char) : String :=
  detail ++ "\n" ++ String.ofList (head ++ marked ++ rest) ++ "\n" ++
    String.ofList (List.replicate head.length ' ' ++ List.replicate (max marked.length 1) '^')

variable {span : Span} {text : List Char}

/-- A span that fits and cuts no character ends where the rest of its line can be cut, or after
it. -/
theorem Fits.exists_marked {before after : List Char} (h : span.Fits (before ++ after))
    (hstart : span.start = String.utf8Len before) (hcuts : ¬span.Cuts (before ++ after)) :
    ∃ marked rest, lineTail after = marked ++ rest ∧
      String.utf8Len marked = min (span.stop - span.start) (String.utf8Len (lineTail after)) := by
  have hline : lineTail after <+: after := List.takeWhile_prefix _
  -- where the text can be cut at the end of the span, the shorter of the two is marked
  have hcut (hstop : IsCut (before ++ after) span.stop) : ∃ marked rest,
      lineTail after = marked ++ rest ∧
      String.utf8Len marked =
        min (span.stop - span.start) (String.utf8Len (lineTail after)) := by
    obtain ⟨mid, others, hafter, hlength⟩ := hstop.after (hstart ▸ h.le)
    have hmid : mid <+: after := ⟨others, hafter.symm⟩
    have hbytes : span.stop - span.start = String.utf8Len mid := by omega
    rw [hbytes]
    rcases List.prefix_or_prefix_of_prefix hmid hline with ⟨rest, hrest⟩ | ⟨rest, hrest⟩
    · refine ⟨mid, rest, hrest.symm, ?_⟩
      rw [← hrest, String.utf8Len_append]
      omega
    · refine ⟨_, [], (List.append_nil _).symm, ?_⟩
      rw [← hrest, String.utf8Len_append]
      omega
  rcases h.stop with hstop | hstop
  · exact hcut hstop
  cases after with
  | nil => exact ⟨[], [], rfl, by simp⟩
  | cons c after =>
    by_cases hc : c = '\n'
    · exact ⟨[], [], by simp [hc], by simp [hc]⟩
    · have hsize : c.utf8Size = 1 := by
        have hpos := c.utf8Size_pos
        by_contra hwide
        exact hcuts ⟨before, c, after, rfl, hstart, hstop, by omega⟩
      refine hcut ⟨before ++ [c], after, by simp, ?_⟩
      rw [hstop, hstart]
      simp [hsize]

/-- A complaint is shown where what its span takes of the line can be cut off. -/
theorem show?_eq {before after : List Char} (hstart : span.start = String.utf8Len before)
    (hle : span.start ≤ span.stop) (detail : String) :
    span.show? detail (String.ofList (before ++ after)) =
      (splitBytes? (min (span.stop - span.start) (String.utf8Len (lineTail after))) after).map
        fun cut => detail ++ "\n" ++ String.ofList (lineHead before ++ lineTail after) ++ "\n" ++
          String.ofList (List.replicate (lineHead before).length ' ' ++
            List.replicate (max cut.1.length 1) '^') := by
  have hfirst : min span.start (String.utf8Len (before ++ after)) = String.utf8Len before := by
    rw [hstart, String.utf8Len_append]
    omega
  have hbytes : max (min span.stop (String.utf8Len before + String.utf8Len (lineTail after)))
        (String.utf8Len before) - String.utf8Len before =
      min (span.stop - span.start) (String.utf8Len (lineTail after)) := by
    omega
  rw [← hbytes]
  simp only [show?, String.toList_ofList, String.utf8ByteSize_ofList, hfirst]
  rw [splitBytes?_append]
  rw [Option.map_eq_bind]
  rfl

theorem show?_of_cuts (h : span.Cuts text) (detail : String) :
    span.show? detail (String.ofList text) = none := by
  obtain ⟨before, c, after, rfl, hstart, hstop, hwide⟩ := h
  have hnewline : c ≠ '\n' := by
    rintro rfl
    exact absurd hwide (by decide)
  have hbyte : min (span.stop - span.start) (String.utf8Len (lineTail (c :: after))) = 1 := by
    rw [lineTail, List.takeWhile_cons_of_pos (by simpa using hnewline), String.utf8Len_cons]
    omega
  rw [show?_eq hstart (by omega), hbyte, splitBytes?, if_neg (by omega)]
  rfl

/-- **Any other span that fits is shown with its line**, and carets under what it takes of it. -/
theorem Fits.show? (h : span.Fits text) (hcuts : ¬span.Cuts text) (detail : String) :
    ∃ head marked rest, span.Marks text head marked rest ∧
      span.show? detail (String.ofList text) = some (shown detail head marked rest) := by
  obtain ⟨before, after, rfl, hstart⟩ := h.start
  obtain ⟨marked, rest, hline, hmarked⟩ := h.exists_marked hstart hcuts
  obtain ⟨earlier, hbefore, hearlier⟩ := exists_lineHead before
  obtain ⟨later, hafter, hlater⟩ := exists_lineTail after
  have hle := h.le
  refine ⟨lineHead before, marked, rest, ⟨⟨earlier, later, ?_, hearlier, hlater, ?_, ?_⟩, ?_⟩, ?_⟩
  · rw [List.append_assoc (lineHead before), ← hline, List.append_assoc, List.append_assoc,
      ← hafter, ← List.append_assoc, ← hbefore]
  · rw [← hbefore, hstart]
  · rw [← hbefore, List.append_assoc, ← hline, String.utf8Len_append, String.utf8Len_append,
      hmarked]
    omega
  · rw [List.append_assoc, ← hline, List.mem_append]
    exact not_or.2 ⟨newline_notMem_lineHead before, newline_notMem_lineTail after⟩
  · have hcut : splitBytes? (String.utf8Len marked) after = some (marked, rest ++ later) :=
      splitBytes?_eq_some_iff.2 ⟨by rw [← List.append_assoc, ← hline, ← hafter], rfl⟩
    rw [show?_eq hstart hle, ← hmarked, hcut, Option.map_some, shown, List.append_assoc, ← hline]

end Span

/-! ## Usages -/

namespace Usage

variable {text : String} {r r' : Registry} {e : GrammarError}

/-- **A complaint about the grammar can be shown unless its span takes one byte of a wider
character.** It starts at a cut of the text and does not end before. It is shown as the line that
holds its start, with carets under exactly the characters from there to the end of the span or of
the line, and one caret at least. -/
theorem shown_of_compile (h : compile text r = .error (.grammar e) r') :
    IsCut text.toList e.span.start ∧ e.span.start ≤ e.span.stop ∧
      ((UsageError.grammar e).message? = none ↔ e.span.Cuts text.toList) ∧
      (¬e.span.Cuts text.toList → ∃ head marked rest, e.span.Marks text.toList head marked rest ∧
        (UsageError.grammar e).message? =
          some ("Config error: " ++ (e.kind.heading ++ Span.shown e.detail head marked rest))) := by
  obtain ⟨htext, hfits⟩ := placed_of_compile h
  have hshow : (UsageError.grammar e).message? =
      ((e.span.show? e.detail (String.ofList text.toList)).map (e.kind.heading ++ ·)).map
        ("Config error: " ++ ·) := by
    rw [String.ofList_toList, ← htext]
    rfl
  have hshown (hcuts : ¬e.span.Cuts text.toList) :
      ∃ head marked rest, e.span.Marks text.toList head marked rest ∧
        (UsageError.grammar e).message? =
          some ("Config error: " ++ (e.kind.heading ++ Span.shown e.detail head marked rest)) := by
    obtain ⟨head, marked, rest, hmarks, hsome⟩ := hfits.show? hcuts e.detail
    exact ⟨head, marked, rest, hmarks, by rw [hshow, hsome]; rfl⟩
  refine ⟨hfits.start, hfits.le, ⟨fun hnone => ?_, fun hcuts => ?_⟩, hshown⟩
  · by_contra hcuts
    obtain ⟨head, marked, rest, -, hsome⟩ := hshown hcuts
    rw [hnone] at hsome
    simp at hsome
  · rw [hshow, Span.show?_of_cuts hcuts]
    rfl

/-- The complaint about the grammar that a text is refused with. -/
def complaint? : EStateM.Result UsageError Registry Usage → Option GrammarError
  | .error (.grammar e) _ => some e
  | _ => none

theorem complaint?_eq_some_iff {run : EStateM.Result UsageError Registry Usage} :
    complaint? run = some e ↔ ∃ r', run = .error (.grammar e) r' := by
  rcases run with ⟨u, r'⟩ | ⟨_ | _ | _, r'⟩ <;> simp [complaint?]

/-- A group is not closed after a letter that it cannot hold. The complaint is about what was read
of it, and the carets stop before that letter. -/
theorem shown_unclosedGroup :
    ∃ e r' head marked rest, compile "[--xé]" Registry.standard = .error (.grammar e) r' ∧
      e.span = ⟨0, 4⟩ ∧ e.span.Marks "[--xé]".toList head marked rest ∧
      (UsageError.grammar e).message? =
        some ("Config error: " ++ (e.kind.heading ++ Span.shown e.detail head marked rest)) := by
  have hcheck : (complaint? (compile "[--xé]" Registry.standard)).any (·.span = ⟨0, 4⟩) = true := by
    decide +kernel
  simp only [Option.any_eq_true, complaint?_eq_some_iff, decide_eq_true_eq] at hcheck
  obtain ⟨e, ⟨r', hcompile⟩, hspan⟩ := hcheck
  have hcuts : ¬e.span.Cuts "[--xé]".toList := by
    rintro ⟨before, c, after, -, -, hstop, -⟩
    rw [hspan] at hstop
    exact absurd hstop (by decide)
  obtain ⟨head, marked, rest, hshown⟩ := (shown_of_compile hcompile).2.2.2 hcuts
  exact ⟨e, r', head, marked, rest, hcompile, hspan, hshown⟩

/-- A letter that no term starts with, two bytes wide. The span is its first byte. -/
theorem unshown_wideCharacter :
    ∃ e r', compile "é" Registry.standard = .error (.grammar e) r' ∧
      (UsageError.grammar e).message? = none := by
  have hcheck : (complaint? (compile "é" Registry.standard)).any
      (fun e => (UsageError.grammar e).message? = none) = true := by
    decide +kernel
  simp only [Option.any_eq_true, complaint?_eq_some_iff, decide_eq_true_eq] at hcheck
  obtain ⟨e, ⟨r', hcompile⟩, hnone⟩ := hcheck
  exact ⟨e, r', hcompile, hnone⟩

end Usage

end Synopsis
