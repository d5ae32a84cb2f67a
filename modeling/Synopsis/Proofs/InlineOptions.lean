import Synopsis.Proofs.Built
import Synopsis.Proofs.Redeclarations

/-!
# What inline options are read back as

The name of an inline option is its key with hyphens or underscores. Where such a name is one that a
long spelling may have, and not that of a negated side (`InlineOption.Named`), its spellings are those
of the key (`InlineOption.Named.spelling`). So what it adds (`InlineOption.Adds`) is described as one
group, and the group declares the option again, but for its default and its origin
(`InlineOption.Adds.rebuilds`).
-/

namespace Synopsis

open Registry (Grows)

/-! ## Names -/

theorem hyphenated_underscored_toList (name : String) :
    hyphenated (underscored name.toList) = hyphenated name := by
  rw [← String.toList_inj, hyphenated, hyphenated, String.toList_map, String.toList_map, underscored,
    String.toList_ofList, List.map_map]
  refine List.map_congr_left fun c _ => ?_
  by_cases hhyphen : c = '-' <;> simp [hhyphen]

theorem underscored_hyphenated (name : String) :
    underscored (hyphenated name).toList = underscored name.toList := by
  rw [hyphenated, String.toList_map, underscored, List.map_map]
  congr 1
  refine List.map_congr_left fun c _ => ?_
  by_cases hunderscore : c = '_' <;> simp [hunderscore]

theorem optionKey_of_head {name : String} {c : Char} {cs : List Char} (hname : name.toList = c :: cs)
    (hc : c ≠ '-') : (optionKey name).1 = underscored name.toList := by
  have hshort : startsLong name = false := by
    simp [startsLong, hname, List.isPrefixOf, Ne.symm hc]
  have hdrop : name.toList.dropWhile (· = '-') = name.toList := by
    simp [hname, hc]
  simp only [optionKey, hdrop, hshort]
  split <;> rfl

namespace InlineOption

variable {i : InlineOption}

/-- The name is written in kebab-case or in snake_case, and not as that of a negated side. -/
structure Named (i : InlineOption) : Prop where
  kebab : isLongSpelling ("--" ++ hyphenated i.name)
  affirmative : ¬['n', 'o', '-'] <+: (hyphenated i.name).toList

namespace Named

theorem key_eq (h : i.Named) : ∃ c cs, (hyphenated i.name).toList = c :: cs ∧ c.isLower ∧
    isKebabRest cs ∧ i.key = underscored (c :: cs) ∧ hyphenated i.key = hyphenated i.name := by
  obtain ⟨c, cs, hlist, hc, hcs⟩ := isLongSpelling_iff.1 h.kebab
  have hname : (hyphenated i.name).toList = c :: cs := by simpa using hlist
  have hkey : i.key = underscored i.name.toList := by
    have hmap := hname
    rw [hyphenated, String.toList_map, List.map_eq_cons_iff] at hmap
    obtain ⟨d, ds, hds, hd, -⟩ := hmap
    refine optionKey_of_head hds ?_
    rintro rfl
    simp at hd
    simp [← hd] at hc
  refine ⟨c, cs, hname, hc, hcs, ?_, ?_⟩
  · rw [← hname, underscored_hyphenated, hkey]
  · rw [hkey, hyphenated_underscored_toList]

theorem long (h : i.Named) : isLongSpelling (longSpelling i.key false) ∧
    optionKey (longSpelling i.key false) = (i.key, false) := by
  obtain ⟨c, cs, hname, hc, hcs, hkey, hhyphens⟩ := h.key_eq
  have hlong : isLongSpelling (longSpelling i.key false) := by
    rw [longSpelling, hhyphens]
    exact h.kebab
  refine ⟨hlong, ?_⟩
  have hlist : (longSpelling i.key false).toList = '-' :: '-' :: c :: cs := by
    simp [longSpelling, hhyphens, hname]
  obtain ⟨name, -, -, ⟨hnegated, -⟩ | ⟨haffirmative, hoption⟩⟩ := isLongSpelling_cases hlong
  · refine absurd ⟨name, ?_⟩ h.affirmative
    rw [hname]
    simpa using (hlist.symm.trans hnegated).symm
  · obtain rfl : c :: cs = name := by simpa using hlist.symm.trans haffirmative
    rw [hoption, hkey]

theorem negated (h : i.Named) : isLongSpelling (longSpelling i.key true) ∧
    optionKey (longSpelling i.key true) = (i.key, true) := by
  obtain ⟨c, cs, hname, hc, hcs, hkey, hhyphens⟩ := h.key_eq
  have hlist : (longSpelling i.key true).toList = '-' :: '-' :: 'n' :: 'o' :: '-' :: c :: cs := by
    simp [longSpelling, hhyphens, hname]
  have hchar : isKebabChar c := by simp [isKebabChar, hc]
  refine ⟨isLongSpelling_iff.2 ⟨'n', _, hlist, by decide, ?_⟩, ?_⟩
  · have hrest : isKebabRest ('-' :: c :: cs) := by simp [isKebabRest, hchar, hcs]
    simpa [isKebabRest, isKebabChar] using hrest
  · rw [optionKey, startsLong, hlist]
    simp [hkey]

theorem spelling (h : i.Named) (side : Bool) : isLongSpelling (longSpelling i.key side) ∧
    optionKey (longSpelling i.key side) = (i.key, side) := by
  cases side with
  | false => exact h.long
  | true => exact h.negated

theorem written (h : i.Named) {shared : Shared} {side : Bool} (hflag : side → shared.value.isFlag) :
    (shared.declare i.key (longSpelling i.key side) side).Written [longSpelling i.key side] none := by
  obtain ⟨hlong, hkey⟩ := h.spelling side
  have hdeclared := @Shared.written_declare shared _ hlong (by simpa [hkey] using hflag)
  rwa [hkey] at hdeclared

end Named

/-! ## What is added -/

/-- An option as `i` adds it: a switch with both its sides, or an option with a value. -/
inductive Adds (i : InlineOption) : OptionSpec → Prop
  | switch (type : ValueType) (default : DefaultValue) :
      Adds i { key := i.key, spellings := [longSpelling i.key false],
               negatives := [longSpelling i.key true], type, arity := .none, default := some default,
               origin := .inline, polarity := some .both }
  | value (type : ValueType) (label : String) (default : Option DefaultValue) :
      Adds i { key := i.key, spellings := [longSpelling i.key false], type, arity := .required,
               default, origin := .inline, metavar := some label }

theorem adds_of_toSpec {type : ValueType} {o : OptionSpec} (h : i.toSpec type = .ok o) :
    i.Adds o ∧ o.type = type ∧
      (o.arity = .required → o.metavar = some (upperCase o.type.name)) := by
  unfold toSpec at h
  split_ifs at h
  · cases hdefault : i.default with
    | none => simp [hdefault] at h
    | some default =>
      rw [hdefault] at h
      obtain rfl := Except.ok.inj h
      exact ⟨.switch type default, rfl, fun harity => nomatch harity⟩
  · obtain rfl := Except.ok.inj h
    exact ⟨.value type _ _, rfl, fun _ => rfl⟩

namespace Adds

variable {o : OptionSpec} {boolean count : ValueType} {r : Registry}

theorem origin_eq (h : i.Adds o) : o.origin = .inline := by
  cases h <;> rfl

theorem mandatory_eq (h : i.Adds o) : o.mandatory = false := by
  cases h <;> rfl

theorem form_eq (h : i.Adds o) : o.form = .bracketed := by
  cases h <;> rfl

/-- The type of an added option does not matter for what adds it. -/
theorem retyped (h : i.Adds o) (type : ValueType) : i.Adds { o with type } := by
  cases h with
  | switch => exact .switch type _
  | value => exact .value type _ _

theorem spelled (h : i.Adds o) (hi : i.Named) : o.Spelled := by
  have hvalid (side : Bool) : IsSpelling (longSpelling i.key side) := Or.inl (hi.spelling side).1
  cases h with
  | switch type default =>
    refine ⟨List.ne_nil_of_mem (List.mem_eraseDups.2 (List.mem_cons_self)), fun spelling hs => ?_⟩
    have hmem : spelling = longSpelling i.key false ∨ spelling = longSpelling i.key true := by
      simpa [OptionSpec.written, OptionSpec.allSpellings] using hs
    rcases hmem with rfl | rfl
    · exact hvalid false
    · exact hvalid true
  | value type label default =>
    refine ⟨List.ne_nil_of_mem (List.mem_eraseDups.2 (List.mem_cons_self)), fun spelling hs => ?_⟩
    obtain rfl : spelling = longSpelling i.key false := by
      simpa [OptionSpec.written, OptionSpec.allSpellings] using hs
    exact hvalid false

/-- An added option can be described where its value can be read. -/
theorem describable (h : i.Adds o) (hi : i.Named)
    (hvalue : ∀ label, o.arity = .required → o.metavar = some label →
      ∀ numbered, ReadsType ⟨r, numbered⟩ o.type label ⟨r, numbered⟩) : o.Describable r := by
  refine ⟨h.spelled hi, ?_⟩
  cases h with
  | switch type default => exact fun _ => .flag
  | value type label default => exact fun numbered => .required (hvalue label rfl rfl numbered)

end Adds

end InlineOption

namespace OptionSpec

/-- What reading the described option comes to: a switch is of the standard type, no default is
written, and the option is one of the text. -/
def reread (boolean : ValueType) (o : OptionSpec) : OptionSpec :=
  { o with type := if o.isFlag then boolean else o.type, default := none, origin := .usage }

end OptionSpec

/-- **An added option comes back**, but for its default and its origin. -/
theorem InlineOption.Adds.rebuilds {i : InlineOption} {o : OptionSpec} {boolean count : ValueType}
    (h : i.Adds o) (hi : i.Named) :
    o.shared.Admits o.written ∧ OptionSpec.Rebuilds boolean count o (o.reread boolean) := by
  cases h with
  | value type label default =>
    have hwritten := @Named.written i hi ⟨.required type, some label, false, none⟩ false (by simp)
    obtain ⟨hadmits, hrebuilds⟩ := @OptionSpec.rebuilds_one boolean count _ ⟨_, _, hwritten⟩ false
      (by simp [Shared.declare])
    exact ⟨hadmits, hrebuilds.key, hrebuilds.made⟩
  | switch type default =>
    have hwritten (side : Bool) := @Named.written i hi ⟨.flag, none, false, none⟩ side fun _ => rfl
    have hlong := (hi.spelling false).1
    have hnone : ∀ spelling ∈ [longSpelling i.key true], ¬isShortSpelling spelling := by
      intro spelling hmem hshort
      have hstarts := startsLong_of_isLongSpelling (hi.spelling true).1
      rw [← List.mem_singleton.1 hmem, startsLong_of_isShortSpelling hshort] at hstarts
      cases hstarts
    obtain ⟨hadmits, hrebuilds⟩ := @OptionSpec.rebuilds_two boolean count _ _ false false
      ⟨_, _, hwritten false⟩ ⟨_, _, hwritten true⟩ ⟨rfl, rfl, rfl, rfl, rfl, rfl⟩ rfl rfl _ rfl
      fun _ => ⟨⟨_, List.mem_cons_self, hlong⟩, hnone⟩
    exact ⟨hadmits, hrebuilds.key, hrebuilds.made⟩

/-- What is added are options as the inline options add them, of types that the registry has. The
label of a value is the name of its type in upper case. -/
theorem Usage.added_of_appendInline {options options' : List OptionSpec}
    {inline : List InlineOption} {r r' : Registry} (hr : r.Closed)
    (h : appendInline options inline r = .ok options' r') :
    Grows r r' ∧ ∃ added, options' = options ++ added ∧
      ∀ o ∈ added, ∃ i ∈ inline, i.Adds o ∧ (∃ name, r'.get? name = some o.type) ∧
        (o.arity = .required → o.metavar = some (upperCase o.type.name)) := by
  induction inline generalizing options r with
  | nil =>
    obtain ⟨rfl, rfl⟩ := keeping_pure_ok_iff.1 h
    exact ⟨.refl _, [], by simp, by simp⟩
  | cons i inline ih =>
    rw [appendInline, keeping_bind_ok_iff] at h
    obtain ⟨spec, r₁, hspec, hrest⟩ := h
    have hone : Grows r r₁ ∧ ∀ o ∈ spec.toList, i.Adds o ∧ (∃ name, r₁.get? name = some o.type) ∧
        (o.arity = .required → o.metavar = some (upperCase o.type.name)) := by
      rcases InlineOption.reconcile_ok_iff.1 hspec with
        ⟨-, -, -, rfl, rfl⟩ | ⟨-, typeName, type, o, -, htype, ho, rfl⟩
      · exact ⟨.refl _, by simp⟩
      · obtain ⟨hgrows, hget⟩ :=
          Registry.get?_of_resolve hr (OptionSpec.resolveType_ok_iff.1 htype)
        obtain ⟨hadds, rfl, hlabel⟩ := InlineOption.adds_of_toSpec ho
        exact ⟨hgrows, by simpa using ⟨hadds, ⟨typeName, hget⟩, hlabel⟩⟩
    obtain ⟨hgrows, added, rfl, hadded⟩ := ih (hone.1.closed hr) hrest
    refine ⟨hone.1.trans hgrows, spec.toList ++ added, by simp, fun o ho => ?_⟩
    rcases List.mem_append.1 ho with ho | ho
    · obtain ⟨hadds, ⟨name, hget⟩, hlabel⟩ := hone.2 o ho
      exact ⟨i, List.mem_cons_self, hadds, ⟨name, hgrows.get? hget⟩, hlabel⟩
    · obtain ⟨i', hi', hadds⟩ := hadded o ho
      exact ⟨i', List.mem_cons_of_mem _ hi', hadds⟩

end Synopsis
