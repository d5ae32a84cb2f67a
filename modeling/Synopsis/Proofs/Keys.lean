import Synopsis.Proofs.Alike
import Synopsis.Proofs.InlineOptions
import Synopsis.Proofs.Polarities

/-!
# What a key and a side tell

**Theorem (`optionKey_lossless`).** A long spelling is written from its key and its side again. So
two declarations of one key and one side name it alike: by the same spelling, or one of them by the
short form of the other's. An inline option whose name is not that of a negated side has a spelling
of its own key, so it meets the option that a usage declares by that spelling.

The key turns every hyphen into an underscore, and a long spelling has no underscores, so nothing is
merged. What could be lost is a `no-`, which the side keeps. A name that is only `no`, or that ends
after `no-`, is no negation, and `--no-no-x` negates `no-x`: one prefix is taken and one is put back.
-/

namespace Synopsis

/-! ## Spellings of one key -/

theorem eq_of_optionKey_eq {s t : String} (hs : isLongSpelling s) (ht : isLongSpelling t)
    (heq : optionKey s = optionKey t) : s = t := by
  rw [← longSpelling_optionKey hs, ← longSpelling_optionKey ht, heq]

/-- The one-letter form of a long spelling, `-x` for `--x`. -/
def IsShortFormOf (short long : String) : Prop :=
  ∃ c, short.toList = ['-', c] ∧ long.toList = ['-', '-', c]

/-- What two spellings of one key and one side may be. -/
def SameName (s t : String) : Prop := s = t ∨ IsShortFormOf s t ∨ IsShortFormOf t s

theorem optionKey_of_isShortFormOf {short long : String} (h : IsShortFormOf short long)
    (hvalid : isLongSpelling short ∨ isShortSpelling short) : optionKey short = optionKey long := by
  obtain ⟨c, hshort, hlong⟩ := h
  have hc : c.isAlphanum := by
    rcases hvalid with hvalid | hvalid
    · simp [isLongSpelling, hshort] at hvalid
    · simpa [isShortSpelling, hshort] using hvalid
  have hne : c ≠ '-' := by
    rintro rfl
    simp at hc
  rw [optionKey_of_short hshort hc]
  simp [optionKey, hlong, hne, underscored]

/-- A short spelling of the key and the side of a long one is its short form. -/
theorem isShortFormOf_of_optionKey_eq {short long : String} (hshort : isShortSpelling short)
    (hlong : isLongSpelling long) (heq : optionKey short = optionKey long) :
    IsShortFormOf short long := by
  obtain ⟨c, hlist, hc⟩ := isShortSpelling_iff.1 hshort
  refine ⟨c, hlist, ?_⟩
  have hne : c ≠ '_' := by
    rintro rfl
    simp at hc
  rw [← longSpelling_optionKey hlong, ← heq, optionKey_of_short hlist hc]
  simp [longSpelling, hyphenated, hne]

/-- **Spellings have one key and one side exactly if they are one name.** -/
theorem sameName_iff {s t : String} (hs : isLongSpelling s ∨ isShortSpelling s)
    (ht : isLongSpelling t ∨ isShortSpelling t) : SameName s t ↔ optionKey s = optionKey t := by
  constructor
  · rintro (rfl | hshort | hlong)
    · rfl
    · exact optionKey_of_isShortFormOf hshort hs
    · exact (optionKey_of_isShortFormOf hlong ht).symm
  intro heq
  rcases hs with hs | hs <;> rcases ht with ht | ht
  · exact Or.inl (eq_of_optionKey_eq hs ht heq)
  · exact Or.inr (Or.inr (isShortFormOf_of_optionKey_eq ht hs heq.symm))
  · exact Or.inr (Or.inl (isShortFormOf_of_optionKey_eq hs ht heq))
  · obtain ⟨c, hsList, hc⟩ := isShortSpelling_iff.1 hs
    obtain ⟨c', htList, hc'⟩ := isShortSpelling_iff.1 ht
    rw [optionKey_of_short hsList hc, optionKey_of_short htList hc'] at heq
    obtain rfl : c = c' := by simpa using heq
    exact Or.inl (String.toList_inj.1 (hsList.trans htList.symm))

/-! ## Declarations of one key -/

namespace Declaration.WellFormed

variable {d d' : Declaration}

theorem exists_name (h : d.WellFormed) : ∃ s, d.spellings.head? = some s ∧
    (isLongSpelling s ∨ isShortSpelling s) ∧ optionKey s = (d.key, d.negated) := by
  obtain ⟨longs, short, hwritten⟩ := h
  obtain ⟨first, hfirst, hkey⟩ := hwritten.key
  have hmem : first ∈ longs ++ short.toList :=
    hwritten.spellings ▸ List.mem_of_mem_head? hfirst
  refine ⟨first, hfirst, ?_⟩
  rcases List.mem_append.1 hmem with hlong | hshort
  · obtain ⟨hvalid, hside⟩ := hwritten.longs_valid first hlong
    exact ⟨Or.inl hvalid, Prod.ext hkey.symm hside⟩
  · have hvalid : isShortSpelling first := hwritten.short_valid first (by simpa using hshort)
    obtain ⟨c, hlist, hc⟩ := isShortSpelling_iff.1 hvalid
    refine ⟨Or.inr hvalid, Prod.ext hkey.symm ?_⟩
    rw [optionKey_of_short hlist hc]
    -- a negated declaration has a long spelling, which would stand first
    by_cases hnegated : d.negated
    · obtain ⟨only, rfl⟩ := List.length_eq_one_iff.1 (hwritten.negated hnegated).1
      have honly : first = only := by
        rw [hwritten.spellings] at hfirst
        exact (Option.some.inj hfirst).symm
      have hstarts := startsLong_of_isLongSpelling
        (hwritten.longs_valid only (List.mem_singleton_self _)).1
      rw [← honly, startsLong_of_isShortSpelling hvalid] at hstarts
      cases hstarts
    · simpa using hnegated

/-- **Declarations of one key and one side are named alike.** -/
theorem sameName (h : d.WellFormed) (h' : d'.WellFormed) (hkey : d.key = d'.key)
    (hside : d.negated = d'.negated) :
    ∃ s s', d.spellings.head? = some s ∧ d'.spellings.head? = some s' ∧ SameName s s' := by
  obtain ⟨s, hs, hvalid, hsKey⟩ := h.exists_name
  obtain ⟨s', hs', hvalid', hsKey'⟩ := h'.exists_name
  exact ⟨s, s', hs, hs', (sameName_iff hvalid hvalid').2 (by rw [hsKey, hsKey', hkey, hside])⟩

end Declaration.WellFormed

/-- The declarations of an outline are well formed, also where no usage comes of it. -/
theorem Outline.wellFormed_of_read {text : String} {r r' : Registry} {outline : Outline}
    (h : Outline.read text r = .ok outline r') :
    ∀ d ∈ outline.mandatory ++ outline.optional, d.WellFormed := by
  obtain ⟨s, houtline, -⟩ := Outline.read_ok_iff.1 h
  obtain ⟨words, s₁, mandatory, optional, s₂, terms, s₃, -, hdeclared, -, -, rfl, -⟩ :=
    Reader.outline_ok_iff.1 houtline
  exact (Reader.options_reads hdeclared).wellFormed

/-! ## Inline options -/

namespace InlineOption

variable {i : InlineOption} {declared : List OptionSpec} {r r' : Registry} {o : OptionSpec}

theorem reconcile_of_mem (hmem : o ∈ declared) (hkey : o.key = i.key) :
    i.reconcile declared r =
      if i.typeName.isSome || i.default.isSome then .error (.conflicting i.key) r
      else .ok none r := by
  have hany : declared.any (·.key = i.key) := List.any_eq_true.2 ⟨o, hmem, by simpa using hkey⟩
  unfold reconcile
  rw [if_pos hany]
  split_ifs <;> rfl

theorem spellings_of_reconcile (h : i.reconcile declared r = .ok (some o) r') :
    o.key = i.key ∧ o.spellings = [longSpelling i.key false] := by
  rcases reconcile_ok_iff.1 h with ⟨-, -, -, hnone, -⟩ | ⟨-, typeName, type, spec, -, -, hspec, heq⟩
  · cases hnone
  · obtain rfl := Option.some.inj heq
    cases (adds_of_toSpec hspec).1 <;> simp

/-- The spellings of the key are those of the name, with hyphens. -/
theorem Named.optionKey_name (h : i.Named) (side : Bool) :
    longSpelling i.key side = (if side then "--no-" else "--") ++ hyphenated i.name ∧
      isLongSpelling ((if side then "--no-" else "--") ++ hyphenated i.name) ∧
      optionKey ((if side then "--no-" else "--") ++ hyphenated i.name) = (i.key, side) := by
  obtain ⟨c, cs, -, -, -, -, hhyphens⟩ := h.key_eq
  have hname : longSpelling i.key side = (if side then "--no-" else "--") ++ hyphenated i.name := by
    rw [longSpelling, hhyphens]
  rw [← hname]
  exact ⟨rfl, h.spelling side⟩

end InlineOption

/-- The option is declared by the name of `i`: its first spelling is that name, or it is turned off by
the name after `--no-`. -/
def OptionSpec.GoesBy (o : OptionSpec) (i : InlineOption) : Prop :=
  (∃ s, o.spellings.head? = some s ∧ SameName s ("--" ++ hyphenated i.name)) ∨
    "--no-" ++ hyphenated i.name ∈ o.negatives

/-- **The options of a usage that have the key of an inline option are those that go by its name.** -/
theorem Usage.key_eq_iff_goesBy {text : String} {r r' : Registry} {u : Usage} {i : InlineOption}
    {o : OptionSpec} (h : compile text r = .ok u r') (hi : i.Named) (ho : o ∈ u.options) :
    o.key = i.key ↔ o.GoesBy i := by
  obtain ⟨outline, r₁, boolean, count, -, hwf, hdeclares⟩ := declares_of_compile h
  obtain ⟨src, hmade, hsrc⟩ := hdeclares.made ho
  have hwf' : ∀ x ∈ src, x.2.WellFormed := fun x hx => hwf x (hsrc x hx)
  obtain ⟨-, hlong, hname⟩ := hi.optionKey_name false
  obtain ⟨-, hlong', hname'⟩ := hi.optionKey_name true
  constructor
  · intro hkey
    obtain ⟨⟨mandatory, d⟩, hx⟩ := List.exists_mem_of_ne_nil src hmade.ne_nil
    obtain ⟨s, hs, hvalid, hsKey⟩ := (hwf' _ hx).exists_name
    rw [hmade.key_eq _ hx, hkey] at hsKey
    cases hside : d.negated with
    | false =>
      refine Or.inl ⟨s, hmade.spellings_eq hx hside ▸ hs, (sameName_iff hvalid (Or.inl hlong)).2 ?_⟩
      rw [hsKey, hside]
      exact hname.symm
    | true =>
      rw [hside] at hsKey
      have hsLong : isLongSpelling s := by
        refine hvalid.resolve_right fun hshort => ?_
        obtain ⟨c, hlist, hc⟩ := isShortSpelling_iff.1 hshort
        simp [optionKey_of_short hlist hc] at hsKey
      obtain rfl := eq_of_optionKey_eq hsLong hlong' (hsKey.trans hname'.symm)
      exact Or.inr (hmade.mem_negatives_iff.2 ⟨_, hx, hside, List.mem_of_mem_head? hs⟩)
  · rintro (⟨s, hhead, hsame⟩ | hmem)
    · obtain ⟨⟨mandatory, d⟩, hx, hside, -⟩ := hmade.mem_spellings_iff.1 (List.mem_of_mem_head? hhead)
      obtain ⟨first, hfirst, hvalid, hfirstKey⟩ := (hwf' _ hx).exists_name
      rw [hmade.spellings_eq hx hside] at hhead
      obtain rfl : first = s := Option.some.inj (hfirst.symm.trans hhead)
      have heq := (sameName_iff hvalid (Or.inl hlong)).1 hsame
      rw [hfirstKey, hmade.key_eq _ hx] at heq
      exact (Prod.ext_iff.1 (heq.trans hname)).1
    · rw [hmade.key_of_mem_negatives hwf' hmem (startsLong_of_isLongSpelling hlong')]
      exact (Prod.ext_iff.1 hname').1

/-- **A key and a side lose nothing of a spelling.** -/
theorem optionKey_lossless :
    (∀ s, isLongSpelling s → longSpelling (optionKey s).1 (optionKey s).2 = s) ∧
    (∀ s t, isLongSpelling s → isLongSpelling t → optionKey s = optionKey t → s = t) ∧
    (∀ text r outline r', Outline.read text r = .ok outline r' →
      ∀ d ∈ outline.mandatory ++ outline.optional, ∀ d' ∈ outline.mandatory ++ outline.optional,
        d.key = d'.key → d.negated = d'.negated →
        ∃ s s', d.spellings.head? = some s ∧ d'.spellings.head? = some s' ∧ SameName s s') ∧
    ∀ i : InlineOption, i.Named →
      (∀ declared r o r', i.reconcile declared r = .ok (some o) r' →
        o.key = i.key ∧ o.spellings = ["--" ++ hyphenated i.name] ∧
        ∀ s ∈ o.spellings, optionKey s = (o.key, false)) ∧
      ∀ text r u r', Usage.compile text r = .ok u r' → ∀ o ∈ u.options,
        (o.key = i.key ↔ o.GoesBy i) ∧
        (o.GoesBy i → ∀ declared r, o ∈ declared → i.reconcile declared r =
          if i.typeName.isSome || i.default.isSome then .error (.conflicting o.key) r
          else .ok none r) := by
  refine ⟨fun s => longSpelling_optionKey, fun s t => eq_of_optionKey_eq, ?_, ?_⟩
  · intro text r outline r' hread d hd d' hd' hkey hside
    have hwf := Outline.wellFormed_of_read hread
    exact (hwf d hd).sameName (hwf d' hd') hkey hside
  · intro i hi
    obtain ⟨hspelling, -, hname⟩ := hi.optionKey_name false
    constructor
    · intro declared r o r' hadded
      obtain ⟨hkey, hspellings⟩ := InlineOption.spellings_of_reconcile hadded
      rw [hspelling] at hspellings
      refine ⟨hkey, hspellings, fun s hs => ?_⟩
      obtain rfl : s = "--" ++ hyphenated i.name := List.mem_singleton.1 (hspellings ▸ hs)
      rw [hkey]
      exact hname
    · intro text r u r' hcompile o ho
      have hiff := Usage.key_eq_iff_goesBy hcompile hi ho
      refine ⟨hiff, fun hgoes declared r hmem => ?_⟩
      rw [hiff.2 hgoes]
      exact InlineOption.reconcile_of_mem hmem (hiff.2 hgoes)

/-- `--no-no-x`; a usage that declares `--v` by its short form first; and the inline name `dry_run`,
alone and beside a usage with `--dry-run`. -/
theorem optionKey_lossless_dryRun :
    longSpelling "no_x" true = "--no-no-x" ∧
      (∀ s, isLongSpelling s → optionKey s = ("no_x", true) → s = "--no-no-x") ∧
      (∃ outline r', Outline.read "[-v] [--v] STR" Registry.standard = .ok outline r' ∧
        ∃ d ∈ outline.optional, ∃ d' ∈ outline.optional, d.spellings = ["-v"] ∧
          d'.spellings = ["--v"] ∧ SameName "-v" "--v") ∧
      (∃ o r', InlineOption.reconcile { name := "dry_run", typeName := some "Int" } []
          Registry.standard = .ok (some o) r' ∧ optionKey "--dry-run" = (o.key, false)) ∧
      ∃ u r', Usage.compile "[--dry-run] STR" Registry.standard = .ok u r' ∧
        ∃ o ∈ u.options, o.key = "dry_run" ∧
          InlineOption.reconcile { name := "dry_run" } u.options r' = .ok none r' := by
  obtain ⟨hwrite, hinj, hdeclared, hinline⟩ := optionKey_lossless
  have hnamed (type : Option String) :
      InlineOption.Named { name := "dry_run", typeName := type } := by
    have hname : hyphenated "dry_run" = "dry-run" := by decide +kernel
    constructor
    · show isLongSpelling ("--" ++ hyphenated "dry_run")
      rw [hname]
      decide
    · show ¬['n', 'o', '-'] <+: (hyphenated "dry_run").toList
      rw [hname]
      decide
  refine ⟨hwrite "--no-no-x" (by decide), ?_, ?_, ?_, ?_⟩
  · intro s hs hkey
    exact hinj s "--no-no-x" hs (by decide) (hkey.trans (by decide))
  · obtain ⟨outline, r', hread, hcheck⟩ := exists_of_succeedsWith
      (Outline.read "[-v] [--v] STR" Registry.standard)
      (fun outline _ => outline.optional.any fun d => outline.optional.any fun d' =>
        d.spellings = ["-v"] && d'.spellings = ["--v"] && d.key = d'.key && d.negated = d'.negated)
      (by decide +kernel)
    obtain ⟨d, hd, hcheck⟩ := List.any_eq_true.1 hcheck
    obtain ⟨d', hd', hcheck⟩ := List.any_eq_true.1 hcheck
    obtain ⟨⟨⟨hs, hs'⟩, hkey⟩, hside⟩ := by simpa using hcheck
    refine ⟨outline, r', hread, d, hd, d', hd', hs, hs', ?_⟩
    obtain ⟨s, s', hhead, hhead', hsame⟩ := hdeclared _ _ outline r' hread
      d (List.mem_append_right _ hd) d' (List.mem_append_right _ hd') hkey hside
    rw [hs] at hhead
    rw [hs'] at hhead'
    obtain rfl : "-v" = s := Option.some.inj hhead
    obtain rfl : "--v" = s' := Option.some.inj hhead'
    exact hsame
  · obtain ⟨found, r', hadded, hcheck⟩ := exists_of_succeedsWith
      (InlineOption.reconcile { name := "dry_run", typeName := some "Int" } [] Registry.standard)
      (fun found _ => found.any fun o => o.spellings = ["--dry-run"]) (by decide +kernel)
    obtain ⟨o, rfl, hspellings⟩ := (Option.any_eq_true _ _).1 hcheck
    have hspellings : o.spellings = ["--dry-run"] := of_decide_eq_true hspellings
    obtain ⟨-, -, hkeys⟩ := (hinline _ (hnamed (some "Int"))).1 _ _ o r' hadded
    exact ⟨o, r', hadded, hkeys "--dry-run" (by simp [hspellings])⟩
  · obtain ⟨u, r', hcompile, hcheck⟩ := exists_of_succeedsWith
      (Usage.compile "[--dry-run] STR" Registry.standard)
      (fun u _ => u.options.any fun o => o.key = "dry_run") (by decide +kernel)
    obtain ⟨o, ho, hkey⟩ := List.any_eq_true.1 hcheck
    have hkey : o.key = "dry_run" := by simpa using hkey
    obtain ⟨hiff, hmeets⟩ := (hinline _ (hnamed none)).2 _ _ u r' hcompile o ho
    have hdryRun : InlineOption.key { name := "dry_run" } = "dry_run" := by decide +kernel
    exact ⟨u, r', hcompile, o, ho, hkey,
      hmeets (hiff.1 (hkey.trans hdryRun.symm)) u.options r' ho⟩

/-- A name on the negated side has a key of its own, which its spelling does not have. -/
example : optionKey "no-x" = ("no_x", false) ∧ optionKey "--no-x" = ("x", true) := by decide

end Synopsis
