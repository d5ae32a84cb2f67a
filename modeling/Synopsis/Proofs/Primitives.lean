import Synopsis.Proofs.Answers
import Synopsis.Proofs.Unions
import Synopsis.Proofs.Words

/-!
# What types are made of

Whatever a text names, its types are made of the primitives of the registry: a synthesized type
takes no primitive from anywhere else. So what holds of every primitive of a registry
(`Registry.Sound`) holds of every primitive of a usage that is compiled on it.

**Theorem (`Usage.sound_of_compile`).** The types of the options and the positionals of a compiled
usage are made of such primitives, and no positional is published under the number of another.

The second part is about names: a type has the name that it stands under, and an alias stands for
the name of a type, which starts with a letter.
-/

namespace Synopsis

namespace ValueType

mutual

/-- The primitives that a type is made of. -/
def primitives : ValueType → List Primitive
  | primitive p => [p]
  | derived _ _ base => base.primitives
  | union members => primitivesOf members
  | choice _ => []
  | word _ => []

def primitivesOf : List ValueType → List Primitive
  | [] => []
  | t :: ts => t.primitives ++ primitivesOf ts

end

theorem mem_primitivesOf {p : Primitive} {ts : List ValueType} :
    p ∈ primitivesOf ts ↔ ∃ t ∈ ts, p ∈ t.primitives := by
  induction ts with
  | nil => simp [primitivesOf]
  | cons t ts ih => simp [primitivesOf, ih]

/-- Every primitive that the type is made of satisfies `Q`. -/
def Over (Q : Primitive → Prop) (t : ValueType) : Prop := ∀ p ∈ t.primitives, Q p

variable {Q : Primitive → Prop}

theorem over_primitive {p : Primitive} : (primitive p).Over Q ↔ Q p := by
  simp [Over, primitives]

theorem over_derived {name lead : String} {base : ValueType} :
    (derived name lead base).Over Q ↔ base.Over Q := by
  simp [Over, primitives]

theorem over_union {members : List ValueType} :
    (union members).Over Q ↔ ∀ t ∈ members, t.Over Q := by
  simp only [Over, primitives, mem_primitivesOf]
  constructor
  · intro h t ht p hp
    exact h p ⟨t, ht, hp⟩
  · rintro h p ⟨t, ht, hp⟩
    exact h t ht p hp

theorem over_choice (words : List String) : (choice words).Over Q := by
  simp [Over, primitives]

theorem over_word (text : String) : (word text).Over Q := by
  simp [Over, primitives]

end ValueType

/-! ## Steps on a registry -/

namespace Registry

variable {Q : Primitive → Prop} {r r' : Registry} {name : String} {t : ValueType}

/-- Types stand under their own names and aliases for names of types, and all primitives satisfy
`Q`. -/
structure Sound (Q : Primitive → Prop) (r : Registry) : Prop where
  named : ∀ name t, r.types.get? name = some t → t.name = name
  targets : ∀ name target, r.aliases.get? name = some target → isTypeName target
  made : ∀ name t, r.types.get? name = some t → t.Over Q

theorem Sound.insert (hr : r.Sound Q) (ht : t.Over Q) :
    Sound Q { r with types := r.types.insert t.name t } := by
  refine ⟨fun name found h => ?_, hr.targets, fun name found h => ?_⟩
  all_goals
    rw [Dict.get?_insert] at h
    by_cases hname : t.name = name
  · rw [if_pos hname] at h
    rw [← Option.some.inj h, hname]
  · rw [if_neg hname] at h
    exact hr.named name found h
  · rw [if_pos hname] at h
    exact Option.some.inj h ▸ ht
  · rw [if_neg hname] at h
    exact hr.made name found h

theorem Sound.keep (hr : r.Sound Q) (ht : t.Over Q) :
    (r.keep t).1.name = t.name ∧ (r.keep t).1.Over Q ∧ (r.keep t).2.Sound Q := by
  cases hfound : r.types.get? t.name with
  | some kept =>
    rw [keep_of_some hfound]
    exact ⟨hr.named _ _ hfound, hr.made _ _ hfound, hr⟩
  | none =>
    rw [keep_of_none hfound]
    exact ⟨rfl, ht, hr.insert ht⟩

theorem Sound.of_keeping (hr : r.Sound Q) (ht : t.Over Q) {kept : ValueType}
    (h : keeping t r = .ok kept r') : kept.Over Q ∧ r'.Sound Q := by
  obtain ⟨rfl, rfl⟩ := by simpa [keeping] using h
  exact (hr.keep ht).2

theorem Sound.of_get? (hr : r.Sound Q) (h : r.get? name = some t) :
    t.Over Q ∧ (isTypeName name → isTypeName t.name) := by
  refine ⟨hr.made _ _ h, fun hname => ?_⟩
  rw [hr.named _ _ h]
  cases halias : r.aliases.get? name with
  | none => exact hname
  | some target => exact hr.targets name target halias

theorem Sound.of_derive (hr : r.Sound Q) {segments : List (List Char)}
    (h : r.derive segments = some (t, r')) :
    t.Over Q ∧ r'.Sound Q ∧
      (isTypeName (String.ofList segments.flatten) → isTypeName t.name) := by
  induction segments generalizing r' t with
  | nil => simp [derive] at h
  | cons segment rest ih =>
    rcases derive_cons_eq_some_iff.1 h with ⟨hfound, rfl⟩ |
      ⟨-, base, r₁, derived, hbase, hderived, rfl, rfl⟩
    · obtain ⟨hover, hname⟩ := hr.of_get? hfound
      exact ⟨hover, hr, hname⟩
    · obtain ⟨hover, hr₁, -⟩ := ih hbase
      obtain ⟨hname, hkept, hr₂⟩ := hr₁.keep (hderived ▸ ValueType.over_derived.2 hover)
      refine ⟨hkept, hr₂, fun hvalid => ?_⟩
      rw [hname, hderived]
      exact hvalid

/-- **What a name is resolved to is made of the primitives of the registry.** -/
theorem Sound.of_resolve (hr : r.Sound Q) (h : resolve name r = .ok t r') :
    t.Over Q ∧ r'.Sound Q ∧ (isTypeName name → isTypeName t.name) := by
  rcases resolve_ok_iff.1 h with ⟨hfound, rfl⟩ | ⟨-, -, hderived⟩
  · obtain ⟨hover, hname⟩ := hr.of_get? hfound
    exact ⟨hover, hr, hname⟩
  · have hspec := hr.of_derive hderived
    rwa [flatten_nameSegments, String.ofList_toList] at hspec

theorem Sound.of_mapM_resolve (hr : r.Sound Q) {names : List String} {ts : List ValueType}
    (h : names.mapM resolve r = .ok ts r') : (∀ t ∈ ts, t.Over Q) ∧ r'.Sound Q := by
  induction names generalizing r ts with
  | nil =>
    obtain ⟨rfl, rfl⟩ := by simpa using h
    exact ⟨by simp, hr⟩
  | cons name names ih =>
    simp only [List.mapM_cons, keeping_bind_ok_iff, keeping_pure_ok_iff] at h
    obtain ⟨t, r₁, ht, ts, r₂, hts, rfl, rfl⟩ := h
    obtain ⟨hover, hr₁, -⟩ := hr.of_resolve ht
    obtain ⟨hovers, hr₂⟩ := ih hr₁ hts
    exact ⟨List.forall_mem_cons.2 ⟨hover, hovers⟩, hr₂⟩

theorem Sound.of_unite (hr : r.Sound Q) {resolved : List ValueType}
    (hresolved : ∀ t ∈ resolved, t.Over Q) (h : unite resolved r = .ok t r') :
    t.Over Q ∧ r'.Sound Q := by
  obtain ⟨-, h⟩ := unites_of_unite h
  rcases findOrKeep_ok_iff.1 h with ⟨hfound, rfl⟩ | ⟨-, hkeep⟩
  · exact ⟨(hr.of_get? hfound).1, hr⟩
  · refine hr.of_keeping (ValueType.over_union.2 fun member hmember => ?_) hkeep
    exact hresolved _ (mem_of_mem_membersOf hmember)

/-- **So is a union of what names are resolved to.** -/
theorem Sound.of_union (hr : r.Sound Q) {names : List String} (h : union names r = .ok t r') :
    t.Over Q ∧ r'.Sound Q := by
  rw [union_eq, keeping_bind_ok_iff] at h
  obtain ⟨resolved, r₁, hresolved, hunite⟩ := h
  obtain ⟨hover, hr₁⟩ := hr.of_mapM_resolve hresolved
  exact hr₁.of_unite hover hunite

theorem Sound.of_group (hr : r.Sound Q) {group : Alternatives}
    (h : group.resolve r = .ok t r') : t.Over Q ∧ r'.Sound Q := by
  cases group with
  | words texts => exact hr.of_keeping (ValueType.over_choice texts) h
  | types names => exact hr.of_union h

/-- A registry to which primitives are added has no other types than those and its own. -/
theorem get?_foldl_add {ps : List Primitive} (h : (ps.foldl add r).types.get? name = some t) :
    r.types.get? name = some t ∨ ∃ p ∈ ps, t = .primitive p := by
  induction ps generalizing r with
  | nil => exact Or.inl h
  | cons p ps ih =>
    rcases ih h with h | ⟨p', hp', rfl⟩
    · replace h : (r.types.insert p.name (.primitive p)).get? name = some t := h
      rw [Dict.get?_insert] at h
      split_ifs at h
      · exact Or.inr ⟨p, by simp, (Option.some.inj h).symm⟩
      · exact Or.inl h
    · exact Or.inr ⟨p', by simp [hp'], rfl⟩

/-- **A registry that a host makes is sound** for what holds of the primitives in it. -/
theorem Reachable.sound (hr : Reachable r)
    (hover : ∀ name t, r.types.get? name = some t → t.Over Q) : r.Sound Q := by
  suffices h : (∀ name t, r.types.get? name = some t → t.name = name) ∧
      ∀ name target, r.aliases.get? name = some target → isTypeName target from ⟨h.1, h.2, hover⟩
  clear hover
  induction hr with
  | empty => exact ⟨by simp [Registry.empty], by simp [Registry.empty]⟩
  | @register r r' p _ hp ih =>
    have hvalid : isTypeName p.name := (names_of_register hp p.name (by simp)).1
    rw [eq_add_of_register hp]
    constructor
    · intro name t h
      replace h : (r.types.insert p.name (.primitive p)).get? name = some t := h
      rw [Dict.get?_insert] at h
      by_cases hname : p.name = name
      · rw [if_pos hname] at h
        rw [← Option.some.inj h]
        exact hname
      · rw [if_neg hname] at h
        exact ih.1 name t h
    · intro name target h
      rw [get?_aliases_add] at h
      by_cases hmem : name ∈ p.aliases
      · rw [if_pos hmem] at h
        exact Option.some.inj h ▸ hvalid
      · rw [if_neg hmem] at h
        exact ih.2 name target h
  | @keep r _ t ih =>
    have hr : r.Sound fun _ => True := ⟨ih.1, ih.2, fun _ _ _ _ _ => trivial⟩
    have hkept := (hr.keep (t := t) fun _ _ => trivial).2.2
    exact ⟨hkept.named, hkept.targets⟩

end Registry

/-! ## What is read -/

theorem isTypeName_of_readIdentifier {identifier name : String} {number : Option String}
    (h : readIdentifier identifier = .ok (name, number)) : isTypeName name := by
  obtain ⟨first, second, digits, ⟨hne, hfirst, hsecond⟩, -, -, rfl⟩ :=
    exists_parts_of_readIdentifier h
  have hpart (cs : List Char) (hcs : ∀ c ∈ cs, c.isUpper) :
      ∀ c ∈ capitalized cs, c.isAlphanum := by
    have halphanum (c : Char) (hc : c.isUpper) : c.isAlphanum ∧ c.toLower.isAlphanum := by
      have halpha : c.isAlpha := by simp [Char.isAlpha, hc]
      have hlower : c.toLower.isAlpha := by rwa [Char.isAlpha_toLower_eq_isAlpha]
      exact ⟨by simp [Char.isAlphanum, halpha], by simp [Char.isAlphanum, hlower]⟩
    intro c hc
    cases cs with
    | nil => simp [capitalized] at hc
    | cons d ds =>
      rw [List.forall_mem_cons] at hcs
      rcases List.mem_cons.1 hc with rfl | hc
      · exact (halphanum c hcs.1).1
      · obtain ⟨d', hd', rfl⟩ := List.mem_map.1 hc
        exact (halphanum d' (hcs.2 d' hd')).2
  cases first with
  | nil => exact absurd rfl hne
  | cons c cs =>
    have hrest : ∀ d ∈ cs.map Char.toLower ++ capitalized second, d.isAlphanum := by
      intro d hd
      rcases List.mem_append.1 hd with hd | hd
      · exact hpart _ hfirst d (List.mem_cons_of_mem _ hd)
      · exact hpart _ hsecond d hd
    have hhead : c.isUpper := hfirst c (by simp)
    have hlist : (partsName (c :: cs) second).toList =
        c :: (cs.map Char.toLower ++ capitalized second) := by
      simp [partsName, capitalized]
    rw [isTypeName, hlist]
    exact Bool.and_eq_true_iff.2 ⟨hhead, List.all_eq_true.2 hrest⟩

/-- The type that the value of an option is read as. -/
def TakenValue.type? : TakenValue → Option ValueType
  | .flag => none
  | .required type => some type
  | .optional type => some type

section Reads

variable {Q : Primitive → Prop} {k k' : Known}

theorem ReadsValue.sound {value : TakenValue} {metavar : Option String}
    (h : ReadsValue k value metavar k') (hr : k.registry.Sound Q) :
    (∀ type, value.type? = some type → type.Over Q) ∧ k'.registry.Sound Q := by
  have htype {k' : Known} {type : ValueType} {label : String} (h : ReadsType k type label k') :
      type.Over Q ∧ k'.registry.Sound Q := by
    cases h with
    | identifier _ _ htype =>
      obtain ⟨hover, hr', -⟩ := hr.of_resolve htype
      exact ⟨hover, hr'⟩
    | group _ htype => exact hr.of_group htype
  cases h with
  | flag => exact ⟨by simp [TakenValue.type?], hr⟩
  | required h => simpa [TakenValue.type?] using htype h
  | optional h => simpa [TakenValue.type?] using htype h

theorem ReadsOptions.sound {mandatory optional : List Declaration}
    (h : ReadsOptions k mandatory optional k') (hr : k.registry.Sound Q) :
    (∀ d ∈ mandatory ++ optional, ∀ type, d.value.type? = some type → type.Over Q) ∧
      k'.registry.Sound Q := by
  have hgroup {k k' : Known} {declared : List Declaration} (h : ReadsGroup k declared k')
      (hr : k.registry.Sound Q) :
      (∀ d ∈ declared, ∀ type, d.value.type? = some type → type.Over Q) ∧ k'.registry.Sound Q := by
    cases h with
    | mk hne hvalid hadmits hvalue =>
      obtain ⟨hover, hr'⟩ := hvalue.sound hr
      refine ⟨fun d hd => ?_, hr'⟩
      rw [(Shared.wellFormed_of_declares hvalid hadmits d hd).1.value]
      exact hover
  induction h with
  | done => exact ⟨by simp, hr⟩
  | optional h rest ih =>
    obtain ⟨hdeclared, hr₁⟩ := hgroup h hr
    obtain ⟨hrest, hr'⟩ := ih hr₁
    refine ⟨fun d hd => ?_, hr'⟩
    rw [List.mem_append, List.mem_append, or_left_comm, ← List.mem_append] at hd
    exact hd.elim (hdeclared d) (hrest d)
  | mandatory h rest ih =>
    obtain ⟨hdeclared, hr₁⟩ := hgroup h hr
    obtain ⟨hrest, hr'⟩ := ih hr₁
    refine ⟨fun d hd => ?_, hr'⟩
    rw [List.append_assoc, List.mem_append] at hd
    exact hd.elim (hdeclared d) (hrest d)

/-- A term that stands for one parameter, as it is kept: its type is made of sound primitives, a
word is a word, and the type of an identifier has the name of a type. -/
def Term.Sound (Q : Primitive → Prop) : Term → Prop
  | .word text => IsWord text
  | .typed type _ _ => type.Over Q ∧ isTypeName type.name
  | .union type _ => type.Over Q
  | .choice type _ => type.Over Q
  | _ => True

theorem ReadsOne.sound {t : Term} (h : ReadsOne k t k') (hr : k.registry.Sound Q) :
    t.Sound Q ∧ k'.registry.Sound Q := by
  cases h with
  | word h => exact ⟨h, hr⟩
  | typed hid hname htype hnew =>
    obtain ⟨hover, hr', hvalid⟩ := hr.of_resolve htype
    exact ⟨⟨hover, hvalid (isTypeName_of_readIdentifier hname)⟩, hr'⟩
  | choice hgroup htype => exact hr.of_keeping (ValueType.over_choice _) htype
  | union hgroup htype => exact hr.of_union htype

/-- **The terms of a level are made of the primitives of the registry.** -/
theorem ReadsLevel.sound {depth : Nat} {seen : Bool} {ts : List Term}
    (h : ReadsLevel depth seen k ts k') (hr : k.registry.Sound Q) :
    (∀ around, ∀ leaf ∈ Term.leavesOf around ts, leaf.term.Sound Q) ∧ k'.registry.Sound Q := by
  have happend {first second : List Leaf} (hfirst : ∀ leaf ∈ first, leaf.term.Sound Q)
      (hsecond : ∀ leaf ∈ second, leaf.term.Sound Q) :
      ∀ leaf ∈ first ++ second, leaf.term.Sound Q := by
    intro leaf hleaf
    exact (List.mem_append.1 hleaf).elim (hfirst leaf) (hsecond leaf)
  induction h with
  | done => exact ⟨by simp [Term.leavesOf], hr⟩
  | @one _ _ k k₁ _ t ts h rest ih =>
    obtain ⟨hterm, hr₁⟩ := h.sound hr
    obtain ⟨hrest, hr'⟩ := ih hr₁
    refine ⟨fun around => ?_, hr'⟩
    have hleaves : t.leaves around = [{ term := t, depth := around }] := by
      cases h <;> rfl
    rw [Term.leavesOf, hleaves]
    exact happend (by simpa using hterm) (hrest around)
  | repeated h _ rest ih =>
    obtain ⟨hterm, hr₁⟩ := h.sound hr
    obtain ⟨hrest, hr'⟩ := ih hr₁
    refine ⟨fun around => ?_, hr'⟩
    rw [Term.leavesOf, Term.leaves]
    exact happend (by simpa using hterm) (hrest around)
  | optional h rest ih =>
    obtain ⟨hterm, hr₁⟩ := h.sound hr
    obtain ⟨hrest, hr'⟩ := ih hr₁
    refine ⟨fun around => ?_, hr'⟩
    rw [Term.leavesOf, Term.leaves]
    exact happend (by simpa using hterm) (hrest around)
  | segment hne h rest ihinner ih =>
    obtain ⟨hinner, hr₁⟩ := ihinner hr
    obtain ⟨hrest, hr'⟩ := ih hr₁
    refine ⟨fun around => ?_, hr'⟩
    rw [Term.leavesOf, Term.leaves]
    exact happend (hinner (around + 1)) (hrest around)
  | rest => exact ⟨by simp [Term.leavesOf, Term.leaves], hr⟩

end Reads

/-! ## Positionals -/

/-- A positional of a compiled usage. -/
structure Parameter.Sound (Q : Primitive → Prop) (p : Parameter) : Prop where
  made : p.type.Over Q
  /-- A parameter that has aliases has the name of a type. -/
  typed : p.namesType → isTypeName p.typeName

section Gather

variable {Q : Primitive → Prop}

theorem Layout.sound_of_gather {deepest index : Nat} {list : Option String} {leaves : List Leaf}
    {r r' : Registry} {ps : List Parameter} (hr : r.Sound Q)
    (hleaves : ∀ leaf ∈ leaves, leaf.term.Sound Q)
    (h : gather deepest leaves index list r = .ok ps r') :
    (∀ p ∈ ps, p.Sound Q) ∧ r'.Sound Q := by
  induction leaves generalizing index list r ps with
  | nil =>
    obtain ⟨rfl, rfl⟩ := by simpa [gather] using h
    exact ⟨by simp, hr⟩
  | cons leaf leaves ih =>
    rw [List.forall_mem_cons] at hleaves
    -- what one term is: its type, how it is written, and the registry after it
    have hstep (type : ValueType) (typeName identifier : String) (r₁ : Registry)
        (hsubject : leaf.term.subject? r = some ((type, typeName, identifier), r₁))
        (htype : type.Over Q)
        (hnamed : (identifier.toList.head?.any Char.isUpper) → isTypeName typeName)
        (hr₁ : r₁.Sound Q) : (∀ p ∈ ps, p.Sound Q) ∧ r'.Sound Q := by
      obtain ⟨-, rest, hrest, rfl⟩ := (gather_cons_ok_iff hsubject).1 h
      obtain ⟨hsound, hr'⟩ := ih hr₁ hleaves.2 hrest
      exact ⟨List.forall_mem_cons.2 ⟨⟨htype, hnamed⟩, hsound⟩, hr'⟩
    have hskip (hsubject : leaf.term.subject? r = none) :
        (∀ p ∈ ps, p.Sound Q) ∧ r'.Sound Q := by
      simp only [gather, keeping_bind_ok_iff, keeping_get_ok_iff] at h
      obtain ⟨_, s₁, ⟨rfl, rfl⟩, h⟩ := h
      rw [hsubject] at h
      exact ih hr hleaves.2 h
    have hsound := hleaves.1
    cases hterm : leaf.term with
    | word text =>
      rw [hterm] at hsound
      obtain ⟨c, cs, htext, hlower⟩ := IsWord.head hsound
      obtain ⟨-, htype, hr₁⟩ := hr.keep (ValueType.over_word text)
      refine hstep _ _ _ _ (by rw [hterm]; rfl) htype (fun hupper => ?_) hr₁
      have hupper' : c.isUpper := by simpa [htext] using hupper
      exact absurd hupper' (Char.not_isUpper_of_isLower hlower)
    | typed type identifier number =>
      rw [hterm] at hsound
      exact hstep _ _ _ _ (by rw [hterm]; rfl) hsound.1 (fun _ => hsound.2) hr
    | union type names =>
      rw [hterm] at hsound
      refine hstep _ _ _ _ (by rw [hterm]; rfl) hsound (fun hupper => ?_) hr
      simp [Term.write, writeAlternatives] at hupper
    | choice type words =>
      rw [hterm] at hsound
      refine hstep _ _ _ _ (by rw [hterm]; rfl) hsound (fun hupper => ?_) hr
      simp [Term.write, writeAlternatives] at hupper
    | option => exact hskip (by rw [hterm]; rfl)
    | list => exact hskip (by rw [hterm]; rfl)
    | segment => exact hskip (by rw [hterm]; rfl)
    | rest => exact hskip (by rw [hterm]; rfl)

theorem not_isDigit_of_isAlpha {c : Char} (h : c.isAlpha) : ¬c.isDigit := by
  intro hdigit
  obtain ⟨hlow, hhigh⟩ := Char.isDigit_iff_toNat.1 hdigit
  simp only [Char.isAlpha, Char.isUpper, Char.isLower, Bool.or_eq_true, Bool.and_eq_true,
    decide_eq_true_eq, UInt32.le_iff_toNat_le, ge_iff_le] at h
  have hval : c.toNat = c.val.toNat := rfl
  have hnine : '9'.toNat = 57 := rfl
  have hA : 'A'.val.toNat = 65 := rfl
  have ha : 'a'.val.toNat = 97 := rfl
  omega

namespace Parameter

/-- A letter and what follows, maybe after a dollar: what an alias looks like. -/
def StartsWithLetter (key : String) : Prop :=
  ∃ c cs, c.isAlpha ∧ (key.toList = c :: cs ∨ key.toList = '$' :: c :: cs)

section StartsWithLetter

variable {key : String}

theorem StartsWithLetter.ne_positionalsKey (h : StartsWithLetter key) : key ≠ positionalsKey := by
  rintro rfl
  obtain ⟨c, cs, hletter, heq | heq⟩ := h
  · rw [← (List.cons.inj heq).1] at hletter
    exact absurd hletter (by decide)
  · exact absurd (List.cons.inj heq).2 (List.cons_ne_nil c cs).symm

theorem StartsWithLetter.ne_tailKey (h : StartsWithLetter key) : key ≠ tailKey := by
  rintro rfl
  obtain ⟨c, cs, hletter, heq | heq⟩ := h
  · rw [← (List.cons.inj heq).1] at hletter
    exact absurd hletter (by decide)
  · exact absurd (List.cons.inj heq).1 (by decide)

theorem StartsWithLetter.ne_positionalKey (h : StartsWithLetter key) (i : Nat) :
    key ≠ positionalKey i := by
  rintro rfl
  have hkey : (positionalKey i).toList = '$' :: Nat.toDigits 10 (i + 1) := by
    simp [positionalKey, Nat.repr_eq_ofList_toDigits]
  obtain ⟨c, cs, hletter, heq | heq⟩ := h
  · rw [hkey] at heq
    rw [← (List.cons.inj heq).1] at hletter
    exact absurd hletter (by decide)
  · rw [hkey] at heq
    refine not_isDigit_of_isAlpha hletter ?_
    refine Nat.isDigit_of_mem_toDigits (b := 10) (n := i + 1) (by decide) (by decide) ?_
    rw [(List.cons.inj heq).2]
    exact List.mem_cons_self

/-- The name of a type starts with a letter, and so does an identifier that names one. -/
theorem Sound.startsWithLetter {p : Parameter} (hp : p.Sound Q) (hnames : p.namesType)
    (hkey : key = p.typeAlias ∨ key = p.identifierAlias) : StartsWithLetter key := by
  rcases hkey with rfl | rfl
  · have hvalid := hp.typed hnames
    cases hname : p.typeName.toList with
    | nil => simp [isTypeName, hname] at hvalid
    | cons c cs =>
      have hupper : c.isUpper := by
        simp only [isTypeName, hname, Bool.and_eq_true] at hvalid
        exact hvalid.1
      refine ⟨c.toLower, cs.map Char.toLower, ?_, Or.inr (by simp [typeAlias, hname])⟩
      rw [Char.isAlpha_toLower_eq_isAlpha, Char.isAlpha, hupper]
      rfl
  · obtain ⟨c, cs, hlist, hletter⟩ := identifierAlias_head hnames
    exact ⟨c, cs, hletter, Or.inl hlist⟩

/-- An alias is not the key of a number. -/
theorem Sound.positionalKey_notMem {ps : List Parameter} {p : Parameter} (hp : p.Sound Q)
    (haliases : p.aliases = []) (i : Nat) : positionalKey i ∉ (aliasedIn ps p).aliases := by
  intro hmem
  obtain ⟨hnames, halias⟩ := unique_of_mem_aliases haliases hmem
  exact (hp.startsWithLetter hnames (halias.imp And.left And.left)).ne_positionalKey i rfl

end StartsWithLetter

end Parameter

/-- **The parameters of a layout are sound**, and none is published under the number of another. -/
theorem Layout.sound_of_ofTerms {ts : List Term} {r r' : Registry} {l : Layout}
    (hr : r.Sound Q) (hts : ∀ leaf ∈ Term.leavesOf 0 ts, leaf.term.Sound Q)
    (h : ofTerms ts r = .ok l r') :
    (∀ p ∈ l.parameters, p.Sound Q) ∧ (∀ p ∈ l.parameters, ∀ i, positionalKey i ∉ p.aliases) ∧
      r'.Sound Q := by
  obtain ⟨ps, layout, hgather, rfl, -, rfl⟩ := ofTerms_ok_iff.1 h
  obtain ⟨hsound, hr'⟩ := sound_of_gather hr hts hgather
  have haliases := aliases_of_gather hgather
  have haliased (p : Parameter) : (Parameter.aliasedIn ps p).type = p.type ∧
      (Parameter.aliasedIn ps p).typeName = p.typeName ∧
      (Parameter.aliasedIn ps p).identifier = p.identifier := by
    unfold Parameter.aliasedIn
    split <;> exact ⟨rfl, rfl, rfl⟩
  have hparameters : (∀ p ∈ Parameter.withAliases ps, p.Sound Q) ∧
      ∀ p ∈ Parameter.withAliases ps, ∀ i, positionalKey i ∉ p.aliases := by
    rw [Parameter.withAliases_eq]
    constructor
    · intro _ hmem
      obtain ⟨p, hp, rfl⟩ := List.mem_map.1 hmem
      obtain ⟨htype, hname, hidentifier⟩ := haliased p
      refine ⟨htype ▸ (hsound p hp).made, fun hnames => ?_⟩
      rw [hname]
      apply (hsound p hp).typed
      rwa [Parameter.namesType, hidentifier] at hnames
    · intro _ hmem i
      obtain ⟨p, hp, rfl⟩ := List.mem_map.1 hmem
      exact (hsound p hp).positionalKey_notMem (haliases p hp) i
  split
  · exact ⟨hparameters.1, hparameters.2, hr'⟩
  · exact ⟨hparameters.1, hparameters.2, hr'⟩

end Gather

/-! ## Options -/

namespace OptionSpec

variable {Q : Primitive → Prop} {boolean count : ValueType}

theorem MadeOf.over {o : OptionSpec} {src : List (Bool × Declaration)}
    (h : MadeOf boolean count o src) (hboolean : boolean.Over Q) (hcount : count.Over Q)
    (hsrc : ∀ x ∈ src, ∀ type, x.2.value.type? = some type → type.Over Q) : o.type.Over Q := by
  have hone (d : Declaration) (mandatory : Bool)
      (hd : ∀ type, d.value.type? = some type → type.Over Q) :
      (ofDeclaration d mandatory boolean count).type.Over Q := by
    unfold ofDeclaration
    cases hvalue : d.value with
    | flag =>
      cases d.recurs
      · exact hboolean
      · exact hcount
    | required type => exact hd type (by simp [hvalue, TakenValue.type?])
    | optional type => exact hd type (by simp [hvalue, TakenValue.type?])
  cases h with
  | @one mandatory d _ => exact hone d mandatory (hsrc (mandatory, d) (by simp))
  | @two mandatory _ d _ _ _ => exact hone d mandatory (hsrc (mandatory, d) (by simp))

end OptionSpec

/-- **What is read from a text is made of the primitives of the registry**: the values of its
options, which are well formed, and the terms that stand for one parameter. -/
theorem Outline.sound_of_read {Q : Primitive → Prop} {text : String} {r r' : Registry}
    {outline : Outline} (hr : r.Sound Q) (h : Outline.read text r = .ok outline r') :
    (∀ d ∈ outline.mandatory ++ outline.optional, d.WellFormed) ∧
      (∀ d ∈ outline.mandatory ++ outline.optional,
        ∀ type, d.value.type? = some type → type.Over Q) ∧
      (∀ leaf ∈ Term.leavesOf 0 outline.terms, leaf.term.Sound Q) ∧ r'.Sound Q := by
  obtain ⟨s, houtline, rfl⟩ := Outline.read_ok_iff.1 h
  obtain ⟨words, s₁, mandatory, optional, s₂, terms, s₃, hwords, hdeclared, hterms, -, rfl, rfl⟩ :=
    Reader.outline_ok_iff.1 houtline
  have htrim : trimStart (trimStart text.toList) = trimStart text.toList :=
    List.dropWhile_idempotent _ _
  obtain ⟨-, hknown, -⟩ := Reader.words_sound hwords (by simp) (by simpa using htrim)
  have hr₀ : s₁.known.registry.Sound Q := by
    rw [hknown]
    exact hr
  obtain ⟨hvalues, hr₁⟩ := (Reader.options_reads hdeclared).sound hr₀
  obtain ⟨hleaves, hr₂⟩ := (Reader.terms_reads hterms).sound hr₁
  exact ⟨(Reader.options_reads hdeclared).wellFormed, hvalues, hleaves 0, hr₂⟩

namespace Usage

/-- **The types of a compiled usage are made of the primitives of the registry** that it is compiled
on, and no positional is published under the number of another. -/
theorem sound_of_compile {Q : Primitive → Prop} {text : String} {r r' : Registry} {u : Usage}
    (hr : r.Sound Q) (h : compile text r = .ok u r') :
    (∀ o ∈ u.options, o.type.Over Q) ∧ (∀ p ∈ u.layout.parameters, p.Sound Q) ∧
      (∀ p ∈ u.layout.parameters, ∀ i, positionalKey i ∉ p.aliases) ∧ r'.Sound Q := by
  obtain ⟨outline, r₁, options, r₂, layout, switches, hread, hoptions, hlayout, -, rfl⟩ :=
    compile_ok_iff.1 h
  obtain ⟨hwf, hvalues, hleaves, hr₁⟩ := Outline.sound_of_read hr hread
  obtain ⟨boolean, count, r₃, hboolean, hcount, hoptions⟩ := OptionSpec.reconcile_ok_iff.1 hoptions
  obtain ⟨hboolean, hr₃, -⟩ := hr₁.of_resolve hboolean
  obtain ⟨hcount, hr₄, -⟩ := hr₃.of_resolve hcount
  obtain ⟨hparameters, hnumbers, hr'⟩ := Layout.sound_of_ofTerms hr₄ hleaves hlayout
  refine ⟨fun o ho => ?_, hparameters, hnumbers, hr'⟩
  obtain ⟨src, hmade, hsrc⟩ := (OptionSpec.declares_of_ofDeclarations hwf hoptions).made ho
  refine hmade.over hboolean hcount fun x hx => ?_
  exact OptionSpec.forall_mem_declared hvalues x (hsrc x hx)

end Usage

end Synopsis
