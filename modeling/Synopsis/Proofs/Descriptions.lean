import Synopsis.Proofs.Compiled
import Synopsis.Proofs.Redeclarations
import Synopsis.Proofs.Words

/-!
# What a described usage compiles to

A description is the words of the command, the options, the mandatory ones first, and the terms, all
apart by one blank. What a usage was compiled from can be read again on the registry that compiling
left (`Usage.rereadable_of_compile`), so the reader takes the description in these parts, unless the
spellings of an option cannot stand in one group (`Usage.Legible.read_iff`). The declarations it
finds come to the same options exactly where the two sides of every switch can be told apart
(`OptionSpec.Separate`).

**Theorem (`Usage.describe_comes_back`).** A compiled usage that is described and compiled again
comes back without its notes if and only if each of its options is separate.

A usage whose options are not separate may be described as a text that means something else, or as
one that does not compile (`Usage.describe_not_compiled`).
-/

namespace Synopsis

open Registry (Grows)

/-! ## What was compiled can be read again -/

/-- What an outline has can be read again on a registry. -/
structure Outline.Rereadable (outline : Outline) (r : Registry) : Prop where
  words : ∀ w ∈ outline.words, IsWord w
  /-- Where there are no options, the terms do not go on with a word. -/
  unworded : outline.mandatory = [] → outline.optional = [] →
    ∀ t ∈ outline.terms.head?, t.isWord = false
  wellFormed : ∀ d ∈ outline.mandatory ++ outline.optional, d.WellFormed
  readsOn : ∀ d ∈ outline.mandatory ++ outline.optional, d.ReadsOn r
  terms : ∃ numbered, ReadsLevel 0 false ⟨r, []⟩ outline.terms ⟨r, numbered⟩

theorem Outline.rereadable_of_read {text : String} {r r₁ : Registry} {outline : Outline}
    (hr : r.Closed) (h : Outline.read text r = .ok outline r₁) :
    Grows r r₁ ∧ ∀ r', Grows r₁ r' → outline.Rereadable r' := by
  obtain ⟨s, hread, rfl⟩ := Outline.read_ok_iff.1 h
  obtain ⟨words, s₁, mandatory, optional, s₂, terms, s₃, hwords, hoptions, hterms, -, rfl, rfl⟩ :=
    Reader.outline_ok_iff.1 hread
  have htrim : trimStart (trimStart text.toList) = trimStart text.toList :=
    List.dropWhile_idempotent _ _
  obtain ⟨hws, hknown₁, hstop, htrim₁⟩ := Reader.words_sound hwords (by simp) (by simpa using htrim)
  have hdeclared := Reader.options_reads hoptions
  have hlevel := Reader.terms_reads hterms
  rw [hknown₁] at hdeclared
  obtain ⟨hgrows₂, hnumbered₂, hvalues⟩ := hdeclared.again hr
  obtain ⟨hgrows₃, hsame⟩ := hlevel.again (hgrows₂.closed hr)
  refine ⟨hgrows₂.trans hgrows₃, fun r' hr' => ⟨hws, ?_, hdeclared.wellFormed, ?_, ?_⟩⟩
  · intro hmandatory hoptional t ht
    obtain rfl : mandatory = [] := hmandatory
    obtain rfl : optional = [] := hoptional
    obtain rfl := Reader.options_nil hoptions
    cases t with
    | word text =>
      obtain ⟨ts, rfl⟩ := List.head?_eq_some_iff.1 ht
      have hstarts := Reader.startsWord_of_terms hterms
      rw [Reader.rest_pastBlanks, htrim₁, htrim₁, hstop] at hstarts
      exact absurd hstarts (by decide)
    | _ => rfl
  · exact fun d hd => hvalues d hd r' (hgrows₃.trans hr')
  · have hread := hsame r' hr'
    have hnumbered : s₂.known.on r' = ⟨r', []⟩ := by
      rw [Known.on, hnumbered₂]
      rfl
    rw [hnumbered] at hread
    exact ⟨_, hread⟩

namespace Usage

variable {u : Usage} {r r' : Registry} {text : String}

/-- The parts of a description can be told apart: words, options and terms. -/
structure Apportioned (u : Usage) (r : Registry) : Prop where
  words : ∀ w ∈ u.words, IsWord w
  /-- Where there are no options, the terms do not go on with a word. -/
  unworded : u.options = [] → ∀ t ∈ u.terms.head?, t.isWord = false
  spelled : ∀ o ∈ u.options, o.Spelled
  terms : ∃ numbered, ReadsLevel 0 false ⟨r, []⟩ u.terms ⟨r, numbered⟩

/-- What a usage is described with can be read on a registry, the values of options included. -/
structure Legible (u : Usage) (r : Registry) : Prop extends Apportioned u r where
  value : ∀ o ∈ u.options, ∀ numbered,
    ReadsValue ⟨r, numbered⟩ o.taken o.metavar ⟨r, numbered⟩

theorem Legible.described (h : u.Legible r) : ∀ o ∈ u.options, o.Describable r :=
  fun o ho => ⟨h.spelled o ho, h.value o ho⟩

/-- What a usage was compiled from can be read again on a registry. -/
structure Rereadable (u : Usage) (r : Registry) : Prop extends Legible u r where
  mandatoryFirst : OptionSpec.MandatoryFirst u.options
  keys : (u.options.map OptionSpec.key).Nodup
  /-- An option that is separate comes back. -/
  rebuilt : ∃ boolean count, Registry.resolve ValueType.booleanName r = .ok boolean r ∧
    Registry.resolve ValueType.countName r = .ok count r ∧
    ∀ o ∈ u.options, o.Separate →
      o.shared.Admits o.written ∧ OptionSpec.Rebuilds boolean count o o.bare
  layout : Layout.ofTerms (Term.bareAll u.terms) r = .ok u.layout.bare r
  table : SwitchTable.build u.options = .ok u.switches

theorem grows_of_compile (hr : r.Closed) (h : compile text r = .ok u r') : Grows r r' := by
  obtain ⟨outline, r₁, options, r₂, layout, switches, hread, hreconcile, hlayout, -, -⟩ :=
    compile_ok_iff.1 h
  obtain ⟨boolean, count, r₃, hboolean, hcount, -⟩ := OptionSpec.reconcile_ok_iff.1 hreconcile
  obtain ⟨hgrows₁, -⟩ := Outline.rereadable_of_read hr hread
  have hr₁ := hgrows₁.closed hr
  obtain ⟨hgrows₃, -⟩ := Registry.stable_resolve _ _ _ _ hr₁ hboolean
  obtain ⟨hgrows₂, -⟩ := Registry.stable_resolve _ _ _ _ (hgrows₃.closed hr₁) hcount
  obtain ⟨hgrows', -⟩ := Layout.ofTerms_again hlayout
  exact ((hgrows₁.trans hgrows₃).trans hgrows₂).trans hgrows'

/-- **A compiled usage can be read again** on the registry that compiling left, and on every one that
has grown from it. -/
theorem rereadable_of_grows {r'' : Registry} (hr : r.Closed) (h : compile text r = .ok u r')
    (hgrows : Grows r' r'') : u.Rereadable r'' := by
  obtain ⟨outline, r₁, options, r₂, layout, switches, hread, hreconcile, hlayout, htable, rfl⟩ :=
    compile_ok_iff.1 h
  obtain ⟨boolean, count, r₃, hboolean, hcount, hdeclared⟩ :=
    OptionSpec.reconcile_ok_iff.1 hreconcile
  obtain ⟨hgrows₁, houtline⟩ := Outline.rereadable_of_read hr hread
  have hr₁ := hgrows₁.closed hr
  obtain ⟨hgrows₃, hboolean'⟩ := Registry.stable_resolve _ _ _ _ hr₁ hboolean
  obtain ⟨hgrows₂, hcount'⟩ := Registry.stable_resolve _ _ _ _ (hgrows₃.closed hr₁) hcount
  obtain ⟨hgrows', hlayout'⟩ := Layout.ofTerms_again hlayout
  have hgrows'' := hgrows'.trans hgrows
  have houtline' := houtline r'' ((hgrows₃.trans hgrows₂).trans hgrows'')
  have hdeclares := OptionSpec.declares_of_ofDeclarations houtline'.wellFormed hdeclared
  have hmade (o : OptionSpec) (ho : o ∈ options) :
      ∃ src, OptionSpec.MadeOf boolean count o src ∧ (∀ x ∈ src, x.2.WellFormed) ∧
        ∀ x ∈ src, x.2.ReadsOn r'' := by
    obtain ⟨src, hsrc, hmem⟩ := hdeclares.made ho
    refine ⟨src, hsrc, fun x hx => ?_, fun x hx => ?_⟩
    · exact OptionSpec.forall_mem_declared houtline'.wellFormed x (hmem x hx)
    · exact OptionSpec.forall_mem_declared houtline'.readsOn x (hmem x hx)
  have hdescribable (o : OptionSpec) (ho : o ∈ options) : o.Describable r'' := by
    obtain ⟨src, hsrc, hwf, hreads⟩ := hmade o ho
    exact hsrc.describable hwf hreads
  refine ⟨⟨⟨houtline'.words, ?_, fun o ho => (hdescribable o ho).toSpelled, houtline'.terms⟩,
    fun o ho => (hdescribable o ho).value⟩,
    OptionSpec.mandatoryFirst_of_ofDeclarations hdeclared, hdeclares.1,
    ⟨boolean, count, ?_, ?_, ?_⟩, hlayout' r'' hgrows, htable⟩
  · intro hnone
    have hempty := hdeclares.eq_nil hnone
    simp only [OptionSpec.declared, List.append_eq_nil_iff, List.map_eq_nil_iff] at hempty
    exact houtline'.unworded hempty.1 hempty.2
  · exact hboolean' r'' (hgrows₂.trans hgrows'')
  · exact hcount' r'' hgrows''
  · intro o ho hseparate
    obtain ⟨src, hsrc, hwf, hreads⟩ := hmade o ho
    exact hsrc.rebuilds hwf hreads hseparate

theorem rereadable_of_compile (hr : r.Closed) (h : compile text r = .ok u r') :
    u.Rereadable r' :=
  rereadable_of_grows hr h (.refl r')

/-! ## Reading a description -/

/-- The outline of the described usage. -/
def outline (u : Usage) : Outline where
  words := u.words
  mandatory := (u.options.filter OptionSpec.mandatory).flatMap OptionSpec.regrouped
  optional := (u.options.filter (!·.mandatory)).flatMap OptionSpec.regrouped
  terms := Term.bareAll u.terms

/-- The parts of a description after the words of the command. -/
def parts (u : Usage) : List String := u.options.map OptionSpec.describe ++ Term.writeAll u.terms

theorem toList_describe (u : Usage) : u.describe.toList = joined (u.words ++ u.parts) := by
  rw [describe, toList_intercalate_blank, List.append_assoc, parts]

namespace Apportioned

theorem isPart_terms (h : u.Apportioned r) : ∀ part ∈ Term.writeAll u.terms, IsPart part := by
  obtain ⟨numbered, hterms⟩ := h.terms
  exact hterms.isPart

theorem isPart_parts (h : u.Apportioned r) : ∀ part ∈ u.parts, IsPart part :=
  Reader.forall_isPart h.spelled h.isPart_terms

theorem isPart (h : u.Apportioned r) : ∀ part ∈ u.words ++ u.parts, IsPart part := by
  intro part hpart
  rcases List.mem_append.1 hpart with hpart | hpart
  · exact Reader.isPart_of_isWord (h.words part hpart)
  · exact h.isPart_parts part hpart

theorem startsWord_parts (h : u.Apportioned r) : Lexeme.startsWord (joined u.parts) = false := by
  unfold parts
  cases hoptions : u.options with
  | nil =>
    obtain ⟨numbered, hterms⟩ := h.terms
    exact hterms.startsWord_joined (h.unworded hoptions)
  | cons o options =>
    rw [List.map_cons, List.cons_append, joined_cons]
    exact (h.spelled o (by simp [hoptions])).startsWord _

theorem exists_words (h : u.Apportioned r) {s : ReaderState}
    (hs : Reader.pastBlanks { rest := u.describe.toList, registry := r } = s) :
    ∃ s₁, Reader.words (s.rest.length + 1) s = .ok u.words s₁ ∧ s₁.known = ⟨r, []⟩ ∧
      s₁.rest = joined u.parts ∧ s₁.rest.length ≤ s.rest.length := by
  have hrest : s.rest = joined (u.words ++ u.parts) := by
    rw [← hs, Reader.rest_pastBlanks, toList_describe, trimStart_joined h.isPart]
  have hknown : s.known = ⟨r, []⟩ := by
    rw [← hs]
    rfl
  obtain ⟨s₁, hwords, hrest₁, hknown₁⟩ := Reader.words_complete h.words h.isPart_parts
    h.startsWord_parts hrest (Nat.lt_succ_self _)
  refine ⟨s₁, hwords, hknown₁.trans hknown, hrest₁, ?_⟩
  rw [hrest₁, hrest]
  exact length_joined_le _ _

end Apportioned

/-- **A description is read** where the spellings of each option may stand together, and its outline
is that of the usage. -/
theorem Legible.read_iff (h : u.Legible r) {outline : Outline} :
    Outline.read u.describe r = .ok outline r' ↔
      (∀ o ∈ u.options, o.shared.Admits o.written) ∧ outline = u.outline ∧ r' = r := by
  obtain ⟨numbered, hterms⟩ := h.terms
  generalize hs : Reader.pastBlanks { rest := u.describe.toList, registry := r } = s
  obtain ⟨s₁, hwords, hknown₁, hrest₁, hlength₁⟩ := h.exists_words hs
  have htrim₁ : trimStart s₁.rest = joined u.parts := by
    rw [hrest₁, trimStart_joined h.isPart_parts]
  obtain ⟨s₂, hrest₂, hknown₂, hoptions⟩ := Reader.options_described h.described h.isPart_terms
    hterms.optionForm?_joined (congrArg Known.registry hknown₁) htrim₁ (Nat.lt_succ_of_le hlength₁)
  have hlength₂ : s₂.rest.length ≤ s.rest.length := by
    refine le_trans ?_ hlength₁
    rw [hrest₂, hrest₁]
    exact length_joined_le _ _
  have htrim₂ : trimStart s₂.rest = joined (Term.writeAll u.terms) ++ [] := by
    rw [hrest₂, trimStart_joined h.isPart_terms, List.append_nil]
  obtain ⟨s₃, hlevel, hrest₃, hknown₃⟩ := Reader.terms_complete hterms _ _ _
    (hknown₂.trans hknown₁) htrim₂ (Or.inl rfl) (Nat.lt_succ_of_le hlength₂)
  simp only [Outline.read_ok_iff, Reader.outline_ok_iff, hs]
  constructor
  · rintro ⟨_, ⟨words', s₁', mandatory, optional, s₂', terms', s₃', hwords', hoptions', hlevel', -,
      rfl, rfl⟩, rfl⟩
    cases hwords.symm.trans hwords'
    obtain ⟨hadmits, rfl, rfl, rfl⟩ := (hoptions _ _ _).1 hoptions'
    cases hlevel.symm.trans hlevel'
    exact ⟨hadmits, rfl, congrArg Known.registry hknown₃⟩
  · rintro ⟨hadmits, rfl, rfl⟩
    refine ⟨_, ⟨_, s₁, _, _, s₂, _, s₃, hwords, (hoptions _ _ _).2 ⟨hadmits, rfl, rfl, rfl⟩, hlevel,
      ?_, rfl, rfl⟩, ?_⟩
    · rw [hrest₃]
      rfl
    · exact (congrArg Known.registry hknown₃).symm

namespace Rereadable

/-- **A described usage comes back without its notes**, where each of its options is separate. -/
theorem compile_describe (h : u.Rereadable r) (hseparate : ∀ o ∈ u.options, o.Separate) :
    compile u.describe r = .ok u.bare r := by
  obtain ⟨boolean, count, hboolean, hcount, hrebuilt⟩ := h.rebuilt
  have hadmits : ∀ o ∈ u.options, o.shared.Admits o.written :=
    fun o ho => (hrebuilt o ho (hseparate o ho)).1
  have hrebuilds : ∀ o ∈ u.options, OptionSpec.Rebuilds boolean count o o.bare :=
    fun o ho => (hrebuilt o ho (hseparate o ho)).2
  refine compile_ok_iff.2 ⟨u.outline, r, u.options.map OptionSpec.bare, r, u.layout.bare,
    u.switches, h.read_iff.2 ⟨hadmits, rfl, rfl⟩, ?_, h.layout, ?_, rfl⟩
  · refine OptionSpec.reconcile_ok_iff.2 ⟨boolean, count, r, hboolean, hcount, ?_⟩
    exact OptionSpec.ofDeclarations_regrouped h.keys h.mandatoryFirst hrebuilds
  · rw [SwitchTable.build_bare, h.table]

/-- What a usage that can be described comes back as: the options that its outline declares. -/
theorem declared_of_compile (h : u.Rereadable r) {u' : Usage}
    (hcompile : compile u.describe r = .ok u' r') :
    r' = r ∧ (∀ o ∈ u.options, o.shared.Admits o.written) ∧
      ∃ boolean count, Registry.resolve ValueType.booleanName r = .ok boolean r ∧
        Registry.resolve ValueType.countName r = .ok count r ∧
        OptionSpec.ofDeclarations u.outline.mandatory u.outline.optional boolean count =
          .ok u'.options ∧ SwitchTable.build u'.options = .ok u'.switches := by
  obtain ⟨outline, r₁, options, r₂, layout, switches, hread, hreconcile, hlayout, htable, rfl⟩ :=
    compile_ok_iff.1 hcompile
  obtain ⟨hadmits, rfl, rfl⟩ := h.read_iff.1 hread
  obtain ⟨boolean, count, r₃, hboolean, hcount, hdeclared⟩ := OptionSpec.reconcile_ok_iff.1 hreconcile
  obtain ⟨boolean', count', hboolean', hcount', -⟩ := h.rebuilt
  cases hboolean'.symm.trans hboolean
  cases hcount'.symm.trans hcount
  cases h.layout.symm.trans hlayout
  exact ⟨rfl, hadmits, boolean, count, hboolean, hcount, hdeclared, htable⟩

theorem separate_of_compile (h : u.Rereadable r) (hcompile : compile u.describe r = .ok u.bare r') :
    ∀ o ∈ u.options, o.Separate := by
  obtain ⟨-, hadmits, boolean, count, -, -, hdeclared, -⟩ := h.declared_of_compile hcompile
  have hvalid : ∀ o ∈ u.options, ∀ spelling ∈ o.written, IsSpelling spelling :=
    fun o ho => (h.described o ho).valid
  exact OptionSpec.separate_of_ofDeclarations h.table h.keys hvalid hadmits hdeclared

/-- A switch with a short spelling of its own on each side is described as no group may be. -/
theorem not_compiled_of_shorts (h : u.Rereadable r) {o : OptionSpec} (ho : o ∈ u.options)
    {short short' : String} (hmem : short ∈ o.spellings) (hmem' : short' ∈ o.negatives)
    (hshort : isShortSpelling short) (hshort' : isShortSpelling short') (hne : short ≠ short')
    (v : Usage) (r' : Registry) : compile u.describe r ≠ .ok v r' := by
  intro hcompile
  obtain ⟨outline, r₁, options, r₂, layout, switches, hread, -⟩ := compile_ok_iff.1 hcompile
  have hadmits := (h.read_iff.1 hread).1 o ho
  apply hne (hadmits.eq_of_short ?_ ?_ hshort hshort')
  · exact List.mem_eraseDups.2 (List.mem_append_left _ hmem)
  · exact List.mem_eraseDups.2 (List.mem_append_right _ hmem')

end Rereadable

/-- **A described usage comes back**, without its notes and on the same registry, if and only if each
of its options is separate. What comes back has the same words, the same description, the same
positional layout but for the notes, and the same table. A switch whose sides have different short
spellings is described as a text that does not compile. -/
theorem describe_comes_back (hr : r.Reachable) (h : compile text r = .ok u r') :
    (compile u.describe r' = .ok u.bare r' ↔ ∀ o ∈ u.options, o.Separate) ∧
    (u.bare.words = u.words ∧ u.bare.describe = u.describe ∧ u.bare.layout = u.layout.bare ∧
      u.bare.switches = u.switches) ∧
    ∀ o ∈ u.options, ∀ short ∈ o.spellings, ∀ short' ∈ o.negatives, isShortSpelling short →
      isShortSpelling short' → short ≠ short' → ∀ v r'', compile u.describe r' ≠ .ok v r'' := by
  have hagain := rereadable_of_compile hr.closed h
  refine ⟨⟨hagain.separate_of_compile, hagain.compile_describe⟩,
    ⟨rfl, describe_bare u, rfl, rfl⟩, ?_⟩
  intro o ho short hmem short' hmem' hshort hshort' hne
  exact hagain.not_compiled_of_shorts ho hmem hmem' hshort hshort' hne

/-- The sides of a switch, declared apart and with notes, come back as one group. -/
theorem describe_sidesTogether :
    Registry.standard.Reachable ∧ ∃ u r',
      compile "run [--no-x] -- off\n(--x|-a) [--n=INT]... INT [STR...]" Registry.standard =
        .ok u r' ∧
      u.describe = "run (--x|-a|--no-x) [--n=INT]... INT [STR...]" ∧
      compile u.describe r' = .ok u.bare r' := by
  obtain ⟨u, r', hcompile, hcheck⟩ :=
    exists_of_succeedsWith
      (compile "run [--no-x] -- off\n(--x|-a) [--n=INT]... INT [STR...]" Registry.standard)
      (fun u _ => u.describe = "run (--x|-a|--no-x) [--n=INT]... INT [STR...]" &&
        decide (∀ o ∈ u.options, o.Separate)) (by decide +kernel)
  obtain ⟨hdescribe, hseparate⟩ := by simpa using hcheck
  have hback := describe_comes_back Registry.reachable_standard hcompile
  exact ⟨Registry.reachable_standard, u, r', hcompile, hdescribe, hback.1.2 hseparate⟩

/-- Two groups with a short spelling each are described as one with two, which is not compiled. -/
theorem describe_not_compiled :
    Registry.standard.Reachable ∧ ∃ u r',
      compile "[--x|-a] [--no-x|-b]" Registry.standard = .ok u r' ∧
      u.describe = "[--x|-a|--no-x|-b]" ∧ ∀ v r'', compile u.describe r' ≠ .ok v r'' := by
  obtain ⟨u, r', hcompile, hcheck⟩ :=
    exists_of_succeedsWith (compile "[--x|-a] [--no-x|-b]" Registry.standard)
      (fun u r' => u.describe = "[--x|-a|--no-x|-b]" && ((compile u.describe).run' r').isNone)
      (by decide +kernel)
  obtain ⟨hdescribe, hnone⟩ := by simpa using hcheck
  refine ⟨Registry.reachable_standard, u, r', hcompile, hdescribe, fun v r'' hv => ?_⟩
  simp [EStateM.run', EStateM.run, hv] at hnone

end Usage

end Synopsis
