import Synopsis.Proofs.Descriptions
import Synopsis.Proofs.LabelTexts
import Synopsis.Proofs.Merging

/-!
# Inline options are read back where their labels name their types

A usage with inline options is described as a text, and the text can be compiled again.

**Theorem (`Usage.inline_comes_back`).** If the usage was compiled, and its own description is
compiled too, then the inline options that take values come back with their keys, their arities and
the names of their types as soon as the label of each names a type of that name. The labels of types
of one word do. For types with the names that types may have, there is no other way.

The label is the only part of the description that the type of an option has to do with
(`Usage.describe_retyped`). So the options are given the types that their labels name, and with these
they can be described and come back (`Usage.compile_inline`). The other direction is that of
`Usage.labels_of_compile`: a text that is compiled has only labels that name types.

A name of two words in upper case is not an identifier for it, so an inline option of such a type is
described as what does not compile (`Usage.inline_not_compiled`).
-/

namespace Synopsis

open Registry (Grows)

/-! ## Types that do not matter -/

/-- The option with another type. -/
def OptionSpec.retyped (typed : OptionSpec → ValueType) (o : OptionSpec) : OptionSpec :=
  { o with type := typed o }

theorem OptionSpec.keys_retyped (options added : List OptionSpec)
    (typed : OptionSpec → ValueType) :
    (options ++ added.map (retyped typed)).map key = (options ++ added).map key := by
  rw [List.map_append, List.map_append, List.map_map]
  rfl

/-- The table of options has nothing of their types. -/
theorem SwitchTable.build_retyped (options added : List OptionSpec)
    (typed : OptionSpec → ValueType) :
    build (options ++ added.map (OptionSpec.retyped typed)) = build (options ++ added) := by
  rw [build, build, List.flatMap_append, List.flatMap_append, List.flatMap_map]
  rfl

namespace Usage

variable {u u' m : Usage} {r r₁ r₂ r₃ : Registry} {added : List OptionSpec}

/-! ## Options behind those of a text -/

/-- The usage with options behind its own, as it is described. -/
def followedBy (u : Usage) (added : List OptionSpec) : Usage :=
  { u with options := u.options ++ added }

theorem describe_retyped (u : Usage) (added : List OptionSpec) (typed : OptionSpec → ValueType) :
    (u.followedBy (added.map (OptionSpec.retyped typed))).describe =
      (u.followedBy added).describe := by
  simp only [describe, followedBy, List.map_append, List.map_map]
  rfl

theorem apportioned_followedBy (hu : u.Apportioned r) (hadded : ∀ o ∈ added, o.Spelled) :
    (u.followedBy added).Apportioned r where
  words := hu.words
  unworded hnone := hu.unworded (List.append_eq_nil_iff.1 hnone).1
  spelled o ho := (List.mem_append.1 ho).elim (hu.spelled o) (hadded o)
  terms := hu.terms

theorem legible_followedBy (hu : u.Legible r) (hadded : ∀ o ∈ added, o.Describable r) :
    (u.followedBy added).Legible r where
  toApportioned := apportioned_followedBy hu.toApportioned fun o ho => (hadded o ho).toSpelled
  value o ho := (List.mem_append.1 ho).elim (hu.value o) fun ho => (hadded o ho).value

theorem outline_followedBy (hadded : ∀ o ∈ added, o.mandatory = false) :
    (u.followedBy added).outline =
      { u.outline with
        optional := u.outline.optional ++ added.flatMap OptionSpec.regrouped } := by
  have hnone : added.filter OptionSpec.mandatory = [] :=
    List.filter_eq_nil_iff.2 fun o ho => by simp [hadded o ho]
  have hall : added.filter (!·.mandatory) = added :=
    List.filter_eq_self.2 fun o ho => by simp [hadded o ho]
  simp [followedBy, outline, hnone, hall]

/-- What is described behind the options of a text is reconciled with what these come to. -/
theorem ofDeclarations_followedBy {boolean count : ValueType} {options : List OptionSpec}
    {made : OptionSpec → OptionSpec}
    (hdeclared : OptionSpec.ofDeclarations u.outline.mandatory u.outline.optional boolean count =
      .ok options)
    (hkeys : ((options ++ added).map OptionSpec.key).Nodup)
    (hadded : ∀ o ∈ added, o.mandatory = false)
    (hrebuilds : ∀ o ∈ added, OptionSpec.Rebuilds boolean count o (made o))
    (hmade : ∀ o, (made o).key = o.key) :
    OptionSpec.ofDeclarations (u.followedBy added).outline.mandatory
      (u.followedBy added).outline.optional boolean count = .ok (options ++ added.map made) := by
  have hmore : (added.flatMap OptionSpec.regrouped).map (false, ·) =
      added.flatMap fun o => o.regrouped.map (o.mandatory, ·) := by
    rw [List.map_flatMap]
    exact List.flatMap_congr fun o ho => by rw [hadded o ho]
  rw [outline_followedBy hadded, OptionSpec.ofDeclarations_append hdeclared, hmore]
  exact OptionSpec.foldlM_regrouped hmade hkeys hrebuilds

theorem key_of_regrouped {text : String} (h : compile text r = .ok u r₁) :
    ∀ o ∈ u.options, ∀ d ∈ o.regrouped, d.key = o.key := by
  obtain ⟨outline, r', boolean, count, -, hwf, hdeclares⟩ := declares_of_compile h
  intro o ho
  obtain ⟨src, hmade, hsrc⟩ := hdeclares.made ho
  exact hmade.key_of_regrouped fun x hx => hwf x (hsrc x hx)

/-- What the options of a text come back as has a table together with options that have one with
those of the text. -/
theorem exists_build_append {options : List OptionSpec} {made : OptionSpec → OptionSpec}
    {table table' : SwitchTable} (hkeys : ((u.options ++ added).map OptionSpec.key).Nodup)
    (htable : SwitchTable.build (u.options ++ added) = .ok table)
    (hkeys' : (options.map OptionSpec.key).Nodup)
    (htable' : SwitchTable.build options = .ok table')
    (hsources : ∀ o' ∈ options, o'.key ∈ u.options.map OptionSpec.key ∧
      ∀ spelling ∈ o'.allSpellings, ∃ o ∈ u.options, spelling ∈ o.allSpellings)
    (hmade : ∀ o, (made o).key = o.key ∧ (made o).allSpellings = o.allSpellings) :
    ((options ++ added).map OptionSpec.key).Nodup ∧
      ∃ table, SwitchTable.build (options ++ added.map made) = .ok table := by
  have hnodup : ((options ++ added).map OptionSpec.key).Nodup := by
    rw [List.map_append, List.nodup_append] at hkeys ⊢
    refine ⟨hkeys', hkeys.2.1, ?_⟩
    rintro key hkey _ hadded rfl
    obtain ⟨o', ho', rfl⟩ := List.mem_map.1 hkey
    exact hkeys.2.2 _ (hsources o' ho').1 _ hadded rfl
  refine ⟨hnodup, (SwitchTable.exists_build_iff ?_).2 ?_⟩
  · have hsame : (added.map made).map OptionSpec.key = added.map OptionSpec.key := by
      rw [List.map_map]
      exact List.map_congr_left fun o _ => (hmade o).1
    rwa [List.map_append, hsame, ← List.map_append]
  · have hdisjoint := List.pairwise_append.1 (SwitchTable.disjoint_of_build htable hkeys)
    refine List.pairwise_append.2 ⟨SwitchTable.disjoint_of_build htable' hkeys', ?_, ?_⟩
    · rw [List.pairwise_map]
      simpa only [(hmade _).2] using hdisjoint.2.1
    · intro o' ho' b hb spelling hs hs'
      obtain ⟨a, ha, rfl⟩ := List.mem_map.1 hb
      obtain ⟨o, ho, hmem⟩ := (hsources o' ho').2 spelling hs
      rw [(hmade a).2] at hs'
      exact hdisjoint.2.2 o ho a ha spelling hmem hs'

/-- **Options behind those of a text are read back with them**, where the text's own description is
compiled and each of the options can be described and comes back alone. -/
theorem compile_followedBy {text : String} {r₁' : Registry} {table : SwitchTable} (hr : r.Closed)
    (h : compile text r = .ok u r₁) (hback : compile u.describe r₁ = .ok u' r₁')
    (hgrows : Grows r₁ r₂) (hkeys : ((u.options ++ added).map OptionSpec.key).Nodup)
    (htable : SwitchTable.build (u.options ++ added) = .ok table)
    (hdescribable : ∀ o ∈ added, o.Describable r₂) (hmandatory : ∀ o ∈ added, o.mandatory = false)
    (hrebuilds : ∀ boolean count, ∀ o ∈ added,
      o.shared.Admits o.written ∧ OptionSpec.Rebuilds boolean count o (o.reread boolean)) :
    ∃ m' boolean, compile (u.followedBy added).describe r₂ = .ok m' r₂ ∧
      m'.options = u'.options ++ added.map (OptionSpec.reread boolean) := by
  have hagain := rereadable_of_grows hr h hgrows
  obtain ⟨-, hadmits, boolean, count, hboolean, hcount, hdeclared, htable'⟩ :=
    (rereadable_of_compile hr h).declared_of_compile hback
  have hr₁ := (grows_of_compile hr h).closed hr
  have hvalid : ∀ o ∈ u.options, ∀ spelling ∈ o.written, IsSpelling spelling :=
    fun o ho => (hagain.described o ho).valid
  obtain ⟨hkeys', hsources⟩ :=
    OptionSpec.sources_of_ofDeclarations hvalid hadmits (key_of_regrouped h) hdeclared
  obtain ⟨hnodup, switches, hswitches⟩ := @exists_build_append u added _ (OptionSpec.reread boolean)
    _ _ hkeys htable hkeys' htable' hsources fun _ => ⟨rfl, rfl⟩
  have hread : Outline.read (u.followedBy added).describe r₂ =
      .ok (u.followedBy added).outline r₂ := by
    refine (legible_followedBy hagain.toLegible hdescribable).read_iff.2 ⟨fun o ho => ?_, rfl, rfl⟩
    exact (List.mem_append.1 ho).elim (hadmits o) fun ho => (hrebuilds boolean count o ho).1
  have hcome : ∀ o ∈ added, OptionSpec.Rebuilds boolean count o (o.reread boolean) :=
    fun o ho => (hrebuilds boolean count o ho).2
  have hreconciled := ofDeclarations_followedBy hdeclared hnodup hmandatory hcome fun _ => rfl
  refine ⟨_, boolean, compile_ok_iff.2 ⟨_, r₂, _, r₂, _, switches, hread,
    OptionSpec.reconcile_ok_iff.2 ⟨boolean, count, r₂, ?_, ?_, hreconciled⟩, hagain.layout, hswitches,
    rfl⟩, rfl⟩
  · exact (Registry.stable_resolve _ _ _ _ hr₁ hboolean).2 r₂ hgrows
  · exact (Registry.stable_resolve _ _ _ _ hr₁ hcount).2 r₂ hgrows

theorem origin_of_compile {text : String} (h : compile text r = .ok u r₁) :
    ∀ o ∈ u.options, o.origin = .usage := by
  obtain ⟨outline, r', boolean, count, -, -, hdeclares⟩ := declares_of_compile h
  intro o ho
  obtain ⟨src, hmade, -⟩ := hdeclares.made ho
  cases hmade <;> rfl

/-- **A description that is compiled has labels that name types**, the options behind those of the
text being such that can be described or have labels of one part. -/
theorem labels_of_compile {m : Usage} (hu : u.Rereadable r₂)
    (hadded : ∀ o ∈ added, o.Describable r₂ ∨ ∃ label, o.Labelled label)
    (h : compile (u.followedBy added).describe r₂ = .ok m r₃) :
    ∀ o ∈ added, ∀ label, o.Labelled label → ∃ t, r₂.Labels label t := by
  have happortioned := apportioned_followedBy hu.toApportioned
    fun o ho => Reader.spelled_of_or (hadded o ho)
  have hoptions : ∀ o ∈ u.options ++ added, o.Describable r₂ ∨ ∃ label, o.Labelled label :=
    fun o ho => (List.mem_append.1 ho).elim (fun ho => Or.inl (hu.described o ho)) (hadded o)
  obtain ⟨outline, r', -, -, -, -, hread, -⟩ := compile_ok_iff.1 h
  obtain ⟨s, hread, -⟩ := Outline.read_ok_iff.1 hread
  obtain ⟨words, s₁, mandatory, optional, s₂, terms, s₃, hwords, hread, -⟩ :=
    Reader.outline_ok_iff.1 hread
  obtain ⟨s₁', hwords', hknown, hrest, hlength⟩ := happortioned.exists_words rfl
  cases hwords.symm.trans hwords'
  have htrim : trimStart s₁.rest = joined (u.followedBy added).parts := by
    rw [hrest, trimStart_joined happortioned.isPart_parts]
  intro o ho
  exact Reader.labels_of_options hoptions hu.isPart_terms (congrArg Known.registry hknown) htrim
    (Nat.lt_succ_of_le hlength) hread o (List.mem_append_right _ ho)

/-! ## Inline options -/

/-- The inline options that take a value. -/
def inlineValues (u : Usage) : List OptionSpec :=
  u.options.filter fun o => o.origin = .inline ∧ o.arity = .required

theorem mem_inlineValues {o : OptionSpec} :
    o ∈ u.inlineValues ↔ o ∈ u.options ∧ o.origin = .inline ∧ o.arity = .required := by
  simp [inlineValues]

/-- The label of each inline option names a type with the name that its own has. -/
def LabelsNameTypes (u : Usage) (r : Registry) : Prop :=
  ∀ o ∈ u.inlineValues, ∃ t, r.Labels (upperCase o.type.name) t ∧ t.name = o.type.name

/-- The description is compiled, and each inline option is there with its key, its arity and the name
of its type. -/
def InlineComesBack (u : Usage) (r : Registry) : Prop :=
  ∃ u' r', compile u.describe r = .ok u' r' ∧
    ∀ o ∈ u.inlineValues, ∃ o' ∈ u'.options,
      o'.key = o.key ∧ o'.arity = o.arity ∧ o'.type.name = o.type.name

/-- The usage with inline options behind its own: what is added is as the inline options add it, of
types that the registry has, and labelled with their names in upper case. -/
structure Inlined (u : Usage) (inline : List InlineOption) (r : Registry) (added : List OptionSpec)
    (m : Usage) : Prop where
  describe : m.describe = (u.followedBy added).describe
  options : m.options = u.options ++ added
  keys : (m.options.map OptionSpec.key).Nodup
  table : SwitchTable.build m.options = .ok m.switches
  own : ∀ o ∈ u.options, o.origin = .usage
  adds : ∀ o ∈ added, ∃ i ∈ inline, i.Adds o
  kept : ∀ o ∈ added, ∃ name, r.get? name = some o.type
  label : ∀ o ∈ added, o.arity = .required → o.metavar = some (upperCase o.type.name)

section Inline

variable {text : String} {r₁' : Registry} {inline : List InlineOption} {o : OptionSpec}

theorem inlined_of_addInline (hr : r.Closed) (h : compile text r = .ok u r₁)
    (hinline : u.addInline inline r₁ = .ok m r₂) :
    Grows r₁ r₂ ∧ ∃ added, u.Inlined inline r₂ added m := by
  obtain ⟨options, switches, hoptions, htable, rfl⟩ := addInline_ok_iff.1 hinline
  have hkeys := (prefix_of_appendInline hoptions).2 (keys_nodup_of_compile h)
  obtain ⟨hgrows, added, rfl, hadded⟩ :=
    added_of_appendInline ((grows_of_compile hr h).closed hr) hoptions
  refine ⟨hgrows, added, rfl, rfl, hkeys, htable, origin_of_compile h, fun o ho => ?_,
    fun o ho => ?_, fun o ho => ?_⟩
  · obtain ⟨i, hi, hadds, -⟩ := hadded o ho
    exact ⟨i, hi, hadds⟩
  · obtain ⟨-, -, -, hkept, -⟩ := hadded o ho
    exact hkept
  · obtain ⟨-, -, -, -, hlabel⟩ := hadded o ho
    exact hlabel

namespace Inlined

theorem mem_inlineValues_iff (h : u.Inlined inline r added m) :
    o ∈ m.inlineValues ↔ o ∈ added ∧ o.arity = .required := by
  rw [mem_inlineValues, h.options, List.mem_append]
  constructor
  · rintro ⟨ho | ho, horigin, harity⟩
    · rw [h.own o ho] at horigin
      cases horigin
    · exact ⟨ho, harity⟩
  · rintro ⟨ho, harity⟩
    obtain ⟨i, -, hadds⟩ := h.adds o ho
    exact ⟨Or.inr ho, hadds.origin_eq, harity⟩

/-- The label of an added option is an identifier of one part where its type has a name that a type
may have. -/
theorem labelled (h : u.Inlined inline r added m) (hnamed : ∀ i ∈ inline, i.Named)
    (hvalid : ∀ o ∈ m.inlineValues, isTypeName o.type.name) (ho : o ∈ m.inlineValues) :
    o.Labelled (upperCase o.type.name) := by
  obtain ⟨hidentifier, honePart⟩ := isIdentifier_upperCase (hvalid o ho)
  obtain ⟨ho, harity⟩ := h.mem_inlineValues_iff.1 ho
  obtain ⟨i, hi, hadds⟩ := h.adds o ho
  exact ⟨hadds.spelled (hnamed i hi), hadds.form_eq, harity, h.label o ho harity, hidentifier,
    honePart⟩

theorem describable_or_labelled (h : u.Inlined inline r added m)
    (hnamed : ∀ i ∈ inline, i.Named) (hvalid : ∀ o ∈ m.inlineValues, isTypeName o.type.name)
    (ho : o ∈ added) : o.Describable r ∨ ∃ label, o.Labelled label := by
  by_cases harity : o.arity = .required
  · exact Or.inr ⟨_, h.labelled hnamed hvalid (h.mem_inlineValues_iff.2 ⟨ho, harity⟩)⟩
  · obtain ⟨i, hi, hadds⟩ := h.adds o ho
    exact Or.inl (hadds.describable (hnamed i hi) fun _ hrequired => absurd hrequired harity)

theorem describable_retyped (h : u.Inlined inline r added m) (hnamed : ∀ i ∈ inline, i.Named)
    {typed : OptionSpec → ValueType}
    (hlabels : ∀ o ∈ m.inlineValues, r.Labels (upperCase o.type.name) (typed o)) :
    ∀ o ∈ added.map (OptionSpec.retyped typed),
      ∃ i : InlineOption, i.Named ∧ i.Adds o ∧ o.Describable r := by
  refine List.forall_mem_map.2 fun o ho => ?_
  obtain ⟨i, hi, hadds⟩ := h.adds o ho
  refine ⟨i, hnamed i hi, hadds.retyped _, (hadds.retyped _).describable (hnamed i hi) ?_⟩
  intro label harity hlabel numbered
  obtain rfl : upperCase o.type.name = label :=
    Option.some.inj ((h.label o ho harity).symm.trans hlabel)
  exact (hlabels o (h.mem_inlineValues_iff.2 ⟨ho, harity⟩)).reads numbered

end Inlined

/-- **A usage with inline options is compiled again** where the label of each that takes a value
names a type. The option comes back with that type. -/
theorem compile_inline (hr : r.Closed) (h : compile text r = .ok u r₁)
    (hback : compile u.describe r₁ = .ok u' r₁') (hgrows : Grows r₁ r₂)
    (hinlined : u.Inlined inline r₂ added m) (hnamed : ∀ i ∈ inline, i.Named)
    {typed : OptionSpec → ValueType}
    (hlabels : ∀ o ∈ m.inlineValues, r₂.Labels (upperCase o.type.name) (typed o)) :
    ∃ m', compile m.describe r₂ = .ok m' r₂ ∧ ∀ o ∈ m.inlineValues, ∃ o' ∈ m'.options,
      o'.key = o.key ∧ o'.arity = o.arity ∧ o'.type = typed o := by
  have hretyped := hinlined.describable_retyped hnamed hlabels
  have hkeys : ((u.options ++ added.map (OptionSpec.retyped typed)).map OptionSpec.key).Nodup := by
    rw [OptionSpec.keys_retyped, ← hinlined.options]
    exact hinlined.keys
  have htable : SwitchTable.build (u.options ++ added.map (OptionSpec.retyped typed)) =
      .ok m.switches := by
    rw [SwitchTable.build_retyped, ← hinlined.options]
    exact hinlined.table
  have hdescribable : ∀ o ∈ added.map (OptionSpec.retyped typed), o.Describable r₂ := by
    intro o ho
    obtain ⟨i, -, -, hdescribable⟩ := hretyped o ho
    exact hdescribable
  have hmandatory : ∀ o ∈ added.map (OptionSpec.retyped typed), o.mandatory = false := by
    intro o ho
    obtain ⟨i, -, hadds, -⟩ := hretyped o ho
    exact hadds.mandatory_eq
  have hrebuilds : ∀ boolean count, ∀ o ∈ added.map (OptionSpec.retyped typed),
      o.shared.Admits o.written ∧ OptionSpec.Rebuilds boolean count o (o.reread boolean) := by
    intro boolean count o ho
    obtain ⟨i, hi, hadds, -⟩ := hretyped o ho
    exact hadds.rebuilds hi
  obtain ⟨m', boolean, hcompile, hm'⟩ :=
    compile_followedBy hr h hback hgrows hkeys htable hdescribable hmandatory hrebuilds
  rw [describe_retyped, ← hinlined.describe] at hcompile
  refine ⟨m', hcompile, fun o ho => ?_⟩
  obtain ⟨hmem, harity⟩ := hinlined.mem_inlineValues_iff.1 ho
  refine ⟨(o.retyped typed).reread boolean, ?_, rfl, rfl, ?_⟩
  · rw [hm']
    exact List.mem_append_right _ (List.mem_map_of_mem (List.mem_map_of_mem hmem))
  · simp [OptionSpec.reread, OptionSpec.retyped, OptionSpec.isFlag, harity]

/-- Inline options come back where their labels name types of the right names. -/
theorem comes_back_of_labels (hr : r.Closed) (h : compile text r = .ok u r₁)
    (hback : compile u.describe r₁ = .ok u' r₁') (hgrows : Grows r₁ r₂)
    (hinlined : u.Inlined inline r₂ added m) (hnamed : ∀ i ∈ inline, i.Named)
    (hlabels : m.LabelsNameTypes r₂) : m.InlineComesBack r₂ := by
  have : Nonempty ValueType := ⟨.word ""⟩
  choose! typed htyped using hlabels
  obtain ⟨m', hcompile, hsame⟩ := compile_inline hr h hback hgrows hinlined hnamed
    fun o ho => (htyped o ho).1
  refine ⟨m', r₂, hcompile, fun o ho => ?_⟩
  obtain ⟨o', ho', hkey, harity, htype⟩ := hsame o ho
  exact ⟨o', ho', hkey, harity, htype ▸ (htyped o ho).2⟩

/-- Where inline options come back, and their types have names that types may have, their labels name
types of the right names. -/
theorem labels_of_comes_back (hr : r.Closed) (h : compile text r = .ok u r₁)
    (hback : compile u.describe r₁ = .ok u' r₁') (hgrows : Grows r₁ r₂)
    (hinlined : u.Inlined inline r₂ added m) (hnamed : ∀ i ∈ inline, i.Named)
    (hvalid : ∀ o ∈ m.inlineValues, isTypeName o.type.name) (hcomes : m.InlineComesBack r₂) :
    m.LabelsNameTypes r₂ := by
  obtain ⟨m', r₃, hcompile, hkept⟩ := hcomes
  have hnames : ∀ o ∈ m.inlineValues, ∃ t, r₂.Labels (upperCase o.type.name) t := fun o ho =>
    labels_of_compile (rereadable_of_grows hr h hgrows)
      (fun o ho => hinlined.describable_or_labelled hnamed hvalid ho)
      (hinlined.describe ▸ hcompile) o (hinlined.mem_inlineValues_iff.1 ho).1 _
      (hinlined.labelled hnamed hvalid ho)
  have : Nonempty ValueType := ⟨.word ""⟩
  choose! typed htyped using hnames
  obtain ⟨m'', hcompile', hsame⟩ := compile_inline hr h hback hgrows hinlined hnamed htyped
  cases hcompile.symm.trans hcompile'
  -- what came back with the key is the one option that has it
  intro o ho
  obtain ⟨o₁, ho₁, hkey₁, -, hname⟩ := hkept o ho
  obtain ⟨o₂, ho₂, hkey₂, -, htype⟩ := hsame o ho
  obtain rfl : o₁ = o₂ := List.inj_on_of_nodup_map (keys_nodup_of_compile hcompile) ho₁ ho₂
    (hkey₁.trans hkey₂.symm)
  exact ⟨typed o, htyped o ho, htype ▸ hname⟩

/-- **Inline options come back** where the types are of one word, or where the labels name types of the
right names, and with names that types may have only there. -/
theorem inline_comes_back (hr : r.Reachable) (h : compile text r = .ok u r₁)
    (hback : compile u.describe r₁ = .ok u' r₁') (hinline : u.addInline inline r₁' = .ok m r₂)
    (hnamed : ∀ i ∈ inline, i.Named) :
    ((∀ o ∈ m.inlineValues, isOneWord o.type.name) → m.InlineComesBack r₂) ∧
    (m.LabelsNameTypes r₂ → m.InlineComesBack r₂) ∧
    ((∀ o ∈ m.inlineValues, isTypeName o.type.name) → m.InlineComesBack r₂ →
      m.LabelsNameTypes r₂) := by
  have hr' := hr.closed
  obtain ⟨rfl, -⟩ := (rereadable_of_compile hr' h).declared_of_compile hback
  obtain ⟨hgrows, added, hinlined⟩ := inlined_of_addInline hr' h hinline
  have hsuffices := comes_back_of_labels hr' h hback hgrows hinlined hnamed
  refine ⟨fun hword => hsuffices fun o ho => ?_, hsuffices,
    labels_of_comes_back hr' h hback hgrows hinlined hnamed⟩
  have horderly := (hgrows.reachable ((grows_of_compile hr' h).reachable hr)).orderly
  obtain ⟨name, hname⟩ := hinlined.kept o (hinlined.mem_inlineValues_iff.1 ho).1
  exact ⟨o.type, Registry.labels_of_isOneWord (hword o ho) (horderly.get?_own hname), rfl⟩

end Inline

/-- An option with an integer and a switch, behind the option of a text. -/
theorem inline_comes_back_oneWord :
    Registry.standard.Reachable ∧ ∃ inline : List InlineOption, (∀ i ∈ inline, i.Named) ∧
      ∃ u r₁ u' r₁' m r₂, compile "[--level=INT] STR" Registry.standard = .ok u r₁ ∧
        compile u.describe r₁ = .ok u' r₁' ∧ u.addInline inline r₁' = .ok m r₂ ∧
        m.describe = "[--level=INT] [--max-size=INT] [--dry-run|--no-dry-run] STR" ∧
        m.inlineValues.map OptionSpec.key = ["max_size"] ∧ m.InlineComesBack r₂ ∧
        m.LabelsNameTypes r₂ := by
  obtain ⟨u, r₁, hu, hcheck⟩ := exists_of_succeedsWith
    (compile "[--level=INT] STR" Registry.standard)
    (fun u r₁ => succeedsWith (compile u.describe r₁) fun _ r₁' =>
      succeedsWith (u.addInline [⟨"max-size", some "Int", none⟩,
        ⟨"dry-run", none, some (.value (.boolean true))⟩] r₁') fun m _ =>
          m.describe = "[--level=INT] [--max-size=INT] [--dry-run|--no-dry-run] STR" &&
            m.inlineValues.map OptionSpec.key = ["max_size"] &&
            m.inlineValues.all fun o => isOneWord o.type.name && isTypeName o.type.name)
    (by decide +kernel)
  obtain ⟨u', r₁', hback, hcheck⟩ := exists_of_succeedsWith _ _ hcheck
  obtain ⟨m, r₂, hm, hcheck⟩ := exists_of_succeedsWith _ _ hcheck
  simp only [Bool.and_eq_true, decide_eq_true_eq, List.all_eq_true] at hcheck
  obtain ⟨⟨hdescribe, hkeys⟩, hnames⟩ := hcheck
  have hnamed : ∀ i ∈ [(⟨"max-size", some "Int", none⟩ : InlineOption),
      ⟨"dry-run", none, some (.value (.boolean true))⟩], i.Named := by
    simp only [List.forall_mem_cons, List.not_mem_nil, false_implies, implies_true, and_true]
    exact ⟨⟨by decide +kernel, by decide +kernel⟩, ⟨by decide +kernel, by decide +kernel⟩⟩
  obtain ⟨hword, -, hlabels⟩ := inline_comes_back Registry.reachable_standard hu hback hm hnamed
  have hcomes := hword fun o ho => (hnames o ho).1
  exact ⟨Registry.reachable_standard, _, hnamed, u, r₁, u', r₁', m, r₂, hu, hback, hm, hdescribe,
    hkeys, hcomes, hlabels (fun o ho => (hnames o ho).2) hcomes⟩

/-- An option with a type of a name of two words is described as one that is not compiled. -/
theorem inline_not_compiled :
    Registry.standard.Reachable ∧ InlineOption.Named ⟨"max-size", some "ByteCount", none⟩ ∧
      ∃ u r₁ u' r₁' m r₂, compile "" Registry.standard = .ok u r₁ ∧
        compile u.describe r₁ = .ok u' r₁' ∧
        u.addInline [⟨"max-size", some "ByteCount", none⟩] r₁' = .ok m r₂ ∧
        m.describe = "[--max-size=BYTECOUNT]" ∧ ∀ m' r₃, compile m.describe r₂ ≠ .ok m' r₃ := by
  obtain ⟨u, r₁, hu, hcheck⟩ := exists_of_succeedsWith (compile "" Registry.standard)
    (fun u r₁ => succeedsWith (compile u.describe r₁) fun _ r₁' =>
      succeedsWith (u.addInline [⟨"max-size", some "ByteCount", none⟩] r₁') fun m r₂ =>
        m.describe = "[--max-size=BYTECOUNT]" && ((compile m.describe).run' r₂).isNone)
    (by decide +kernel)
  obtain ⟨u', r₁', hback, hcheck⟩ := exists_of_succeedsWith _ _ hcheck
  obtain ⟨m, r₂, hm, hcheck⟩ := exists_of_succeedsWith _ _ hcheck
  obtain ⟨hdescribe, hnone⟩ := by simpa using hcheck
  refine ⟨Registry.reachable_standard, ⟨by decide +kernel, by decide +kernel⟩, u, r₁, u', r₁', m, r₂,
    hu, hback, hm, hdescribe, fun m' r₃ hm' => ?_⟩
  simp [EStateM.run', EStateM.run, hm'] at hnone

end Usage

end Synopsis
