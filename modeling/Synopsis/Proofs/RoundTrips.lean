import Synopsis.Proofs.Compiled
import Synopsis.Proofs.Histories
import Synopsis.Proofs.Syntax

/-!
# Terms that are written and read

**Theorem (`Outline.read_writeAll`).** Well-formed terms over a registry, written one after the
other with a blank between them, are read as these terms without their notes, and as nothing else,
unless they start with a word.

The terms are taken level by level (`Term.Nested.reads`). Each leaf has the type that the registry
has for it at the start, and meanwhile reading keeps types for the leaves before it. What is kept
leaves every meaning as it was, so a leaf that is reached later still comes to its type
(`Term.LeafOn.reads`).
-/

namespace Synopsis

open Registry (Agrees)

namespace Term

/-- A parameter as it can be written, with the type that the registry has for it. -/
inductive LeafOn (r : Registry) : Term → Prop
  | word {text : String} (h : IsWord text) : LeafOn r (.word text)
  /-- An identifier of one part or two, followed by the digits of its number, if it has one. -/
  | typed {first second digits : List Char} {identifier : String} {number : Option String}
      {type : ValueType} {r' : Registry} (hparts : AreParts first second)
      (hdigits : ∀ c ∈ digits, c.isDigit)
      (hidentifier : identifier = String.ofList (joinParts first second ++ digits))
      (hnumber : number = if digits = [] then none else some (String.ofList digits))
      (htype : Registry.resolve (partsName first second) r = .ok type r') :
      LeafOn r (.typed type identifier number)
  | choice {words : List String} (htwo : 2 ≤ words.length) (hdistinct : words.Nodup)
      (hwords : ∀ word ∈ words, IsWord word) : LeafOn r (.choice (r.choice words).1 words)
  | union {names : List String} {type : ValueType} {r' : Registry} (htwo : 2 ≤ names.length)
      (hnames : ∀ name ∈ names, ∃ first second, AreParts first second ∧ name = partsName first second)
      (htype : Registry.union names r = .ok type r') : LeafOn r (.union type names)

end Term

/-! ## Leaves -/

theorem AreParts.exists_identifier {first second : List Char} (h : AreParts first second) :
    ∃ identifier number, readIdentifier identifier = .ok (partsName first second, number) :=
  ⟨_, _, @readIdentifier_joinParts _ _ h [] (by simp)⟩

theorem AreParts.isTypeName {first second : List Char} (h : AreParts first second) :
    isTypeName (partsName first second) := by
  obtain ⟨identifier, number, hread⟩ := h.exists_identifier
  exact isTypeName_of_readIdentifier hread

section Leaves

variable {r : Registry} {t : Term} {k : Known}

/-- **A leaf is read wherever the registry agrees with the first one**, if its number is new. -/
theorem Term.LeafOn.reads (h : t.LeafOn r) (hk : r.Agrees k.registry)
    (hnew : ∀ identifier ∈ t.numbers, identifier ∉ k.numbered) :
    ∃ k', ReadsOne k t k' ∧ r.Agrees k'.registry := by
  cases h with
  | word h => exact ⟨k, .word h, hk⟩
  | @typed first second digits _ _ type _ hparts hdigits hidentifier hnumber htype =>
    obtain ⟨r', hresolve, hr'⟩ :=
      Registry.ok_of_alike (Registry.alike_resolve hparts.isTypeName) hk htype
    subst hidentifier
    have hread := readIdentifier_joinParts hparts hdigits
    rw [← hnumber] at hread
    refine ⟨_, .typed (isIdentifier_joinParts hparts hdigits) hread hresolve fun hsome => ?_, hr'⟩
    exact hnew _ (by simp [Term.numbers, hsome])
  | @choice words htwo hdistinct hwords =>
    have hne : words ≠ [] := List.ne_nil_of_length_pos (by omega)
    obtain ⟨r', hkeep, hr'⟩ :=
      Registry.ok_of_alike (Registry.alike_keeping (.choice hne hwords)) hk rfl
    exact ⟨_, .choice ⟨_, groupText_words htwo hdistinct hwords⟩ hkeep, hr'⟩
  | @union names _ _ htwo hnames htype =>
    have hvalid : ∀ name ∈ names, isTypeName name := by
      intro name hname
      obtain ⟨first, second, hparts, rfl⟩ := hnames name hname
      exact hparts.isTypeName
    obtain ⟨r', hunion, hr'⟩ := Registry.ok_of_alike (Registry.alike_union hvalid) hk htype
    refine ⟨_, .union ⟨_, groupText_types htwo fun name hname => ?_⟩ hunion, hr'⟩
    obtain ⟨first, second, hparts, rfl⟩ := hnames name hname
    exact hparts.exists_identifier

end Leaves

/-! ## Levels -/

/-- Numbers that are met one after the other stay apart from those that are known. -/
theorem nodup_met {first others known : List String} (h : (first ++ others ++ known).Nodup) :
    (first ++ known).Nodup ∧ (others ++ (first.reverse ++ known)).Nodup := by
  constructor
  · exact h.sublist ((List.sublist_append_left first others).append_right known)
  · refine (List.Perm.nodup_iff ?_).1 h
    rw [List.append_assoc]
    refine (List.perm_append_comm_assoc first others known).trans ?_
    exact ((List.reverse_perm first).symm.append_right known).append_left others

/-- **Levels over a registry are read** from where the registry agrees with it, if their numbers are
new. -/
theorem Term.Nested.reads {r : Registry} {depth : Nat} {seen : Bool} {ts : List Term}
    (h : Term.Nested (Term.LeafOn r) depth seen ts) {k : Known} (hk : r.Agrees k.registry)
    (hnew : (Term.numbersOf ts ++ k.numbered).Nodup) :
    ∃ k', ReadsLevel depth seen k ts k' ∧ r.Agrees k'.registry := by
  have hone {t : Term} {ts : List Term} {k : Known} (ht : t.LeafOn r) (hk : r.Agrees k.registry)
      (hnew : (t.numbers ++ Term.numbersOf ts ++ k.numbered).Nodup) :
      ∃ k₁, ReadsOne k t k₁ ∧ r.Agrees k₁.registry ∧
        (Term.numbersOf ts ++ k₁.numbered).Nodup := by
    obtain ⟨hfirst, hothers⟩ := nodup_met hnew
    obtain ⟨k₁, hread, hk₁⟩ := ht.reads hk (List.disjoint_of_nodup_append hfirst)
    exact ⟨k₁, hread, hk₁, by rwa [hread.numbered_eq.1]⟩
  induction h generalizing k with
  | done => exact ⟨k, .done, hk⟩
  | one h rest ih =>
    obtain ⟨k₁, hread, hk₁, hnew₁⟩ := hone h hk hnew
    obtain ⟨k', hrest, hk'⟩ := ih hk₁ hnew₁
    exact ⟨k', .one hread hrest, hk'⟩
  | repeated h hword rest ih =>
    obtain ⟨k₁, hread, hk₁, hnew₁⟩ := hone h hk hnew
    obtain ⟨k', hrest, hk'⟩ := ih hk₁ hnew₁
    exact ⟨k', .repeated hread hword hrest, hk'⟩
  | optional h rest ih =>
    obtain ⟨k₁, hread, hk₁, hnew₁⟩ := hone h hk hnew
    obtain ⟨k', hrest, hk'⟩ := ih hk₁ hnew₁
    exact ⟨k', .optional hread hrest, hk'⟩
  | segment hne h rest ihinner ih =>
    obtain ⟨hinner, hothers⟩ := nodup_met hnew
    obtain ⟨k₁, hread, hk₁⟩ := ihinner hk hinner
    rw [Term.numbers, ← hread.numbered_eq.1] at hothers
    obtain ⟨k', hrest, hk'⟩ := ih hk₁ hothers
    exact ⟨k', .segment hne hread hrest, hk'⟩
  | rest => exact ⟨k, .rest, hk⟩

/-! ## Texts -/

namespace Outline

/-- A level that does not start with a word is what its written form is read as. -/
theorem read_of_readsLevel {r : Registry} {ts : List Term} {k' : Known}
    (h : ReadsLevel 0 false ⟨r, []⟩ ts k') (hword : ∀ t ∈ ts.head?, t.isWord = false) :
    read (" ".intercalate (Term.writeAll ts)) r =
      .ok { terms := Term.bareAll ts } k'.registry := by
  generalize hs : Reader.pastBlanks
    { rest := (" ".intercalate (Term.writeAll ts)).toList, registry := r } = s
  have hrest : s.rest = joined (Term.writeAll ts) := by
    rw [← hs, Reader.rest_pastBlanks, toList_intercalate_blank, trimStart_joined h.isPart]
  have hknown : s.known = ⟨r, []⟩ := by
    rw [← hs]
    rfl
  obtain ⟨s₁, hwords, hrest₁, hknown₁⟩ := @Reader.words_complete s (s.rest.length + 1) [] _ (by simp)
    h.isPart (h.startsWord_joined hword) hrest (Nat.lt_succ_self _)
  have htrim₁ : trimStart s₁.rest = joined (Term.writeAll ts) := by
    rw [hrest₁, trimStart_joined h.isPart]
  have hoptions : Reader.options (s.rest.length + 1) s₁ = .ok ([], []) (Reader.pastBlanks s₁) :=
    Reader.options_none (by rw [htrim₁, h.optionForm?_joined])
  have hknown₂ : (Reader.pastBlanks s₁).known = ⟨r, []⟩ := by
    rw [Reader.known_pastBlanks, hknown₁, hknown]
  have hrest₂ : (Reader.pastBlanks s₁).rest = joined (Term.writeAll ts) := by
    rw [Reader.rest_pastBlanks, htrim₁]
  have htrim₂ : trimStart (Reader.pastBlanks s₁).rest = joined (Term.writeAll ts) ++ [] := by
    rw [hrest₂, trimStart_joined h.isPart, List.append_nil]
  have hfuel : (Reader.pastBlanks s₁).rest.length < s.rest.length + 1 := by
    rw [hrest₂, hrest]
    exact Nat.lt_succ_self _
  obtain ⟨s₃, hterms, hrest₃, hknown₃⟩ :=
    Reader.terms_complete h _ _ _ hknown₂ htrim₂ (Or.inl rfl) hfuel
  refine read_ok_iff.2 ⟨Reader.pastBlanks s₃, Reader.outline_ok_iff.2 ?_, ?_⟩
  · rw [hs]
    exact ⟨[], s₁, [], [], _, _, s₃, hwords, hoptions, hterms, by rw [hrest₃]; rfl, rfl, rfl⟩
  · exact (congrArg Known.registry hknown₃).symm

/-- **Well-formed terms over a registry are read from their written form**, if they do not start
with a word: the text has no words and no options, and its terms are these without their notes. -/
theorem read_writeAll {r : Registry} (hr : r.Reachable) {ts : List Term}
    (hts : Term.WellFormed (Term.LeafOn r) ts) (hword : ∀ t ∈ ts.head?, t.isWord = false) :
    ∃ r', read (" ".intercalate (Term.writeAll ts)) r = .ok { terms := Term.bareAll ts } r' := by
  obtain ⟨k', hlevel, -⟩ := hts.nested.reads (k := ⟨r, []⟩) hr.agrees (by simpa using hts.numbers)
  exact ⟨k'.registry, read_of_readsLevel hlevel hword⟩

/-- Two parameters of one type that are told apart by a number, before a segment with a union and
two lists. -/
theorem read_numberedInSegment :
    ∃ int choice union ts r',
      ts = [.choice choice ["fast", "slow"], .typed int "INT" none,
        .segment [.typed int "INT2" (some "2"), .union union ["Int", "BigInt"],
          .list (.word "x") 0 none, .list (.typed int "INT" none) 1 (some "numbers")], .rest] ∧
      Registry.standard.Reachable ∧ Term.WellFormed (Term.LeafOn Registry.standard) ts ∧
      (∀ t ∈ ts.head?, t.isWord = false) ∧
      " ".intercalate (Term.writeAll ts) =
        "(fast|slow) INT [INT2 (INT|BIG_INT) [x]... INT...] ..." ∧
      read (" ".intercalate (Term.writeAll ts)) Registry.standard =
        .ok { terms := Term.bareAll ts } r' := by
  have hint : AreParts ['I', 'N', 'T'] [] := ⟨by simp, by simp, by simp⟩
  have hbig : AreParts ['B', 'I', 'G'] ['I', 'N', 'T'] :=
    ⟨by simp, by simp, by simp⟩
  obtain ⟨int, r₁, htype, -⟩ := exists_of_succeedsWith
    (Registry.resolve (partsName ['I', 'N', 'T'] []) Registry.standard) (fun _ _ => true)
    (by decide +kernel)
  obtain ⟨union, r₂, hunion, -⟩ := exists_of_succeedsWith
    (Registry.union ["Int", "BigInt"] Registry.standard) (fun _ _ => true) (by decide +kernel)
  have hwords : ∀ word ∈ ["fast", "slow"], IsWord word := by
    simp only [List.forall_mem_cons]
    exact ⟨⟨by decide, by decide⟩, ⟨by decide, by decide⟩, by simp⟩
  have hx : IsWord "x" := ⟨by decide, by decide⟩
  have hnames : ∀ name ∈ ["Int", "BigInt"],
      ∃ first second, AreParts first second ∧ name = partsName first second := by
    simp only [List.forall_mem_cons]
    exact ⟨⟨_, _, hint, by decide⟩, ⟨_, _, hbig, by decide⟩, by simp⟩
  have htyped : Term.LeafOn Registry.standard (.typed int "INT" none) :=
    @Term.LeafOn.typed _ _ _ [] _ _ _ _ hint (by simp) (by decide) rfl htype
  have hnumbered : Term.LeafOn Registry.standard (.typed int "INT2" (some "2")) :=
    @Term.LeafOn.typed _ _ _ ['2'] _ _ _ _ hint (by simp) (by decide) (by decide) htype
  have hts : Term.WellFormed (Term.LeafOn Registry.standard)
      [.choice (Registry.standard.choice ["fast", "slow"]).1 ["fast", "slow"],
        .typed int "INT" none,
        .segment [.typed int "INT2" (some "2"), .union union ["Int", "BigInt"],
          .list (.word "x") 0 none, .list (.typed int "INT" none) 1 (some "numbers")], .rest] := by
    refine ⟨?_, ?_, ?_, ?_, ?_, ?_⟩
    · simp [Term.levelsOf, Term.levels, Term.isSegment, List.countP_cons]
    · simp [Term.levelsOf, Term.levels]
    · simp only [Term.levelsOf, Term.levels]
      simp
      rintro _ _ _ (⟨rfl, rfl, -⟩ | ⟨rfl, rfl, -⟩) <;> simp [Term.isWord]
    · simp [Term.levelsOf, Term.levels]
    · simp [Term.leavesOf, Term.leaves, htyped, hnumbered]
      exact ⟨.choice (by decide) (by decide) hwords, .union (by decide) hnames hunion, .word hx⟩
    · simp [Term.numbersOf, Term.numbers]
  obtain ⟨r', hread⟩ := read_writeAll Registry.reachable_standard hts (by simp [Term.isWord])
  exact ⟨int, _, union, _, r', rfl, Registry.reachable_standard, hts, by simp [Term.isWord], rfl,
    hread⟩

end Outline

end Synopsis
