import Synopsis.Proofs.Typing

/-!
# Aliases of positionals

**Theorem (`Usage.mirrors_of_finish`).** No two positionals have an alias in common, and no alias is
a key that publishing writes itself: `$`, `...` or the number of a positional. Whatever an
invocation is fed and defaults to, an alias that is no option's key answers as its positional does,
with its value and its mark, and with nothing where the positional is not bound.

**What an alias looks like.** It is a letter and what follows, after a dollar if it comes from the
type (`Parameter.Sound.startsWithLetter`). A number starts with a digit, and the other keys have no
letter at all.

**Where an alias answers.** It is published where nothing stands under it. Bindings have the keys of
options and the numbers of positionals, so nothing does (`Published.get?_alias`), and as no other
positional has the alias, what is published there is the value of this one.
-/

namespace Synopsis

/-! ## What aliases are made from -/

namespace Parameter

/-- An alias is made from the type of a parameter or from its identifier, where that names the
type. -/
theorem of_mem_aliases {ps : List Parameter} {p : Parameter} (hp : p.aliases = []) {key : String}
    (hkey : key ∈ (aliasedIn ps p).aliases) :
    (aliasedIn ps p).namesType ∧
      (key = (aliasedIn ps p).typeAlias ∨ key = (aliasedIn ps p).identifierAlias) := by
  obtain ⟨hnames, halias⟩ := unique_of_mem_aliases hp hkey
  have hsame : aliasedIn ps p = { p with aliases := (aliasedIn ps p).aliases } := by
    unfold aliasedIn
    rw [if_pos hnames]
  rw [hsame]
  exact ⟨hnames, halias.imp And.left And.left⟩

end Parameter

theorem Layout.of_mem_aliases {ts : List Term} {r r' : Registry} {l : Layout}
    (h : ofTerms ts r = .ok l r') {p : Parameter} (hp : p ∈ l.parameters) {key : String}
    (hkey : key ∈ p.aliases) :
    p.namesType ∧ (key = p.typeAlias ∨ key = p.identifierAlias) := by
  obtain ⟨ps, layout, hgather, rfl, -, rfl⟩ := ofTerms_ok_iff.1 h
  have hmem : p ∈ ps.map (Parameter.aliasedIn ps) := by
    rw [← Parameter.withAliases_eq]
    split at hp <;> exact hp
  obtain ⟨q, hq, rfl⟩ := List.mem_map.1 hmem
  exact Parameter.of_mem_aliases (aliases_of_gather hgather q hq) hkey

/-! ## Where an alias answers -/

/-- A key that is no alias answers with what stands under it. -/
theorem Invocation.publish_of_notMem_aliases {l : Layout} {values : Dict Value}
    {explicit : List String} {key : String} (hl : l.Aliased) (hkey : key ≠ positionalsKey)
    (hnone : ∀ p ∈ l.parameters, key ∉ p.aliases) :
    (publish l values explicit).get? key = values.get? key ∧
      ((publish l values explicit).isExplicit key ↔ key ∈ explicit) := by
  constructor
  · cases hv : values.get? key with
    | some v => exact get?_publish_of_some hkey hv
    | none =>
      rw [Option.eq_none_iff_forall_ne_some]
      intro v hv'
      obtain ⟨p, hp, halias, -⟩ := (get?_publish_of_none hl hkey hv).1 hv'
      exact hnone p hp halias
  · rw [isExplicit_publish, or_iff_left]
    rintro ⟨-, p, hp, halias, -⟩
    exact hnone p hp halias

namespace Published

variable {u : Usage} {defaults : Dict DefaultValue} {g : Gathered} {evaluator : Evaluator}
  {arranged : List (Parameter × Slot Payload)} {options positionals defaulted : List Binding}
  {values : Dict Value} {explicit : List String} {p : Parameter}

theorem get?_eq_none_iff (h : Published u defaults g evaluator arranged options positionals
    defaulted values explicit) (hu : u.Keyed) (hp : p ∈ u.layout.parameters) :
    values.get? p.key = none ↔ p ∉ arranged.map (·.1) ∧ defaults.get? p.key = none := by
  rw [← Option.not_isSome_iff_eq_none (o := defaults.get? p.key), ← not_or,
    ← h.settled.bound_iff hu hp]
  constructor
  · intro hnone hbound
    obtain ⟨v, hv, -⟩ := h.get?_of_bound hbound
    simp [hnone] at hv
  · intro hunbound
    push Not at hunbound
    exact h.valued.only p.key (positionalKey_ne_tailKey p.index) hunbound

theorem get?_of_ne (h : Published u defaults g evaluator arranged options positionals defaulted
    values explicit) {key : String} (htail : key ≠ tailKey) (hnumber : ∀ i, key ≠ positionalKey i)
    (hoption : ∀ o ∈ u.options, o.key ≠ key) : values.get? key = none ∧ key ∉ explicit := by
  have hother : ∀ b ∈ options ++ positionals ++ defaulted, b.key ≠ key := by
    intro b hb
    rcases h.settled.key_cases hb with ⟨o, ho, heq⟩ | ⟨i, heq⟩
    · rw [heq]
      exact hoption o ho
    · rw [heq]
      exact (hnumber i).symm
  refine ⟨h.valued.only key htail hother, fun hmem => ?_⟩
  obtain ⟨b, hb, -, heq⟩ := (h.supplied key htail).1 hmem
  exact hother b hb heq

/-- **An alias under which nothing stands answers as its positional does.** -/
theorem get?_alias (h : Published u defaults g evaluator arranged options positionals defaulted
    values explicit) (hl : u.layout.Aliased) (hp : p ∈ u.layout.parameters)
    {key : String} (hkey : key ∈ p.aliases) (hpositionals : key ≠ positionalsKey)
    (hnone : values.get? key = none) (hsupplied : key ∉ explicit) :
    (Invocation.publish u.layout values explicit).get? key = values.get? p.key ∧
      ((Invocation.publish u.layout values explicit).isExplicit key ↔ p.key ∈ explicit) := by
  have hown : ∀ q ∈ u.layout.parameters, key ∈ q.aliases → q = p :=
    fun q hq halias => hl q hq p hp key halias hkey
  constructor
  · ext v
    rw [Invocation.get?_publish_of_none hl hpositionals hnone]
    constructor
    · rintro ⟨q, hq, halias, hv⟩
      rwa [hown q hq halias] at hv
    · intro hv
      exact ⟨p, hp, hkey, hv⟩
  · rw [Invocation.isExplicit_publish]
    constructor
    · rintro (hmem | ⟨-, q, hq, halias, hmem, -⟩)
      · exact absurd hmem hsupplied
      · rwa [hown q hq halias] at hmem
    · intro hmem
      have hbound := (h.supplied p.key (positionalKey_ne_tailKey p.index)).1 hmem
      obtain ⟨b, hb, -, heq⟩ := hbound
      obtain ⟨v, hv, -⟩ := h.get?_of_bound ⟨b, hb, heq⟩
      exact Or.inr ⟨hnone, p, hp, hkey, hmem, by rw [hv]; rfl⟩

end Published

/-! ## Usages -/

namespace Usage

variable {text : String} {r r' : Registry} {u : Usage}

/-- An alias is the key of nothing else that is published. -/
theorem ne_of_mem_aliases (hr : Registry.Reachable r) (h : compile text r = .ok u r')
    {p : Parameter} (hp : p ∈ u.layout.parameters) {key : String} (hkey : key ∈ p.aliases) :
    key ≠ positionalsKey ∧ key ≠ tailKey ∧ ∀ i, key ≠ positionalKey i := by
  obtain ⟨-, hparameters, hnumbers, -⟩ :=
    sound_of_compile (hr.sound (Q := fun _ => True) fun _ _ _ _ _ => trivial) h
  have hletter : Parameter.StartsWithLetter key := by
    obtain ⟨outline, r₁, options, r₂, layout, switches, -, -, hlayout, -, rfl⟩ := compile_ok_iff.1 h
    obtain ⟨hnames, halias⟩ := Layout.of_mem_aliases hlayout hp hkey
    exact (hparameters p hp).startsWithLetter hnames halias
  refine ⟨hletter.ne_positionalsKey, hletter.ne_tailKey, fun i heq => ?_⟩
  exact hnumbers p hp i (heq ▸ hkey)

/-- **Aliases of positionals are unambiguous and answer as their positionals do.** No two positionals
have an alias in common, and no alias is the key of all positionals, of the tail or of a number.
However an invocation that is finished was fed, a positional answers unless it is neither dealt a
value nor defaulted, and each of its aliases that is no option's key answers and is explicit as it
is. -/
theorem mirrors_of_finish (hr : Registry.Reachable r) (h : compile text r = .ok u r') :
    (u.layout.parameters.Pairwise fun p q => p.aliases.Disjoint q.aliases) ∧
    (∀ p ∈ u.layout.parameters, ∀ key ∈ p.aliases,
      key ≠ positionalsKey ∧ key ≠ tailKey ∧ ∀ i, key ≠ positionalKey i) ∧
    ∀ {defaults : Dict DefaultValue} {occurrences : List Occurrence} {evaluator : Evaluator}
      {inv : Invocation} {env : Environment},
      occurrences.foldlM Invocation.feed { usage := u, defaults } = .ok inv →
      (inv.finish evaluator).1.result = .ok env → ∀ p ∈ u.layout.parameters,
        (env.get? p.key = none ↔ ¬u.Deals (occurrences.filterMap Occurrence.positional?) p ∧
          defaults.get? p.key = none) ∧
        ∀ key ∈ p.aliases, (∀ o ∈ u.options, o.key ≠ key) →
          env.get? key = env.get? p.key ∧ env.isExplicit key = env.isExplicit p.key := by
  have hl := aliased_of_compile h
  refine ⟨?_, fun p hp key hkey => ne_of_mem_aliases hr h hp hkey, ?_⟩
  · refine (List.Pairwise.and_mem.1 (fits_of_compile h).pairwise_index).imp ?_
    rintro p q ⟨hp, hq, hlt⟩ key hkey hkey'
    rw [hl p hp q hq key hkey hkey'] at hlt
    exact Nat.lt_irrefl _ hlt
  · intro defaults occurrences evaluator inv env hfed henv p hp
    have hu := keyed_of_compile h
    obtain ⟨g, rfl, hafter⟩ := Invocation.after_of_foldlM_feed rfl hfed
    obtain ⟨arranged, options, positionals, defaulted, values, explicit, hpublished, rfl⟩ :=
      Invocation.published_of_outcome hu henv
    have hpositionals : g.positionals = occurrences.filterMap Occurrence.positional? :=
      hafter.positionals
    have hdeals : u.Deals (occurrences.filterMap Occurrence.positional?) p ↔
        p ∈ arranged.map (·.1) := by
      unfold Deals
      rw [← hpositionals, hpublished.settled.of_arrangement]
      simp
    obtain ⟨hvalue, hmark⟩ := @Invocation.publish_of_notMem_aliases u.layout values explicit p.key hl
      (positionalKey_ne_positionalsKey p.index) fun q hq halias =>
        (ne_of_mem_aliases hr h hq halias).2.2 p.index rfl
    refine ⟨?_, fun key hkey hoption => ?_⟩
    · rw [hvalue, hdeals]
      exact hpublished.get?_eq_none_iff hu hp
    · obtain ⟨hall, htail, hnumber⟩ := ne_of_mem_aliases hr h hp hkey
      obtain ⟨hnone, hsupplied⟩ := hpublished.get?_of_ne htail hnumber hoption
      obtain ⟨halias, hexplicit⟩ := hpublished.get?_alias hl hp hkey hall hnone hsupplied
      rw [hvalue, halias, Bool.eq_iff_iff, hexplicit, hmark]
      exact ⟨rfl, Iff.rfl⟩

/-- Two numbers share the alias of their type, so neither has it. The second is defaulted, and its
own alias is not explicit; the text's aliases are. -/
theorem mirrors_defaultedNumber :
    ∃ u r' inv env, compile "STR INT1 [INT2]" Registry.standard = .ok u r' ∧
      (u.scan [⟨.positionalValue, "x"⟩, ⟨.positionalValue, "5"⟩]).occurrences.foldlM Invocation.feed
        { usage := u, defaults := Dict.empty.insert "$3" (.raw "7") } = .ok inv ∧
      (inv.finish Evaluator.unsupported).1.result = .ok env ∧
      ∃ text ∈ u.layout.parameters, ∃ second ∈ u.layout.parameters,
        text.aliases = ["$string", "str"] ∧ second.aliases = ["int2"] ∧
        text.aliases.Disjoint second.aliases ∧
        env.get? "int2" = env.get? "$3" ∧ env.get? "$3" ≠ none ∧ env.isExplicit "int2" = false ∧
        env.get? "$string" = env.get? "$1" ∧ env.isExplicit "$string" = true := by
  obtain ⟨u, r', inv, env, hcompile, hfed, henv, hsatisfied⟩ :=
    @exists_of_run "STR INT1 [INT2]" [⟨.positionalValue, "x"⟩, ⟨.positionalValue, "5"⟩]
      (Dict.empty.insert "$3" (.raw "7")) Evaluator.unsupported
      (fun u env => u.options.isEmpty &&
        u.layout.parameters.map (fun p => (p.key, p.aliases)) =
          [("$1", ["$string", "str"]), ("$2", ["int1"]), ("$3", ["int2"])] &&
        !env.isExplicit "$3" && env.isExplicit "$1")
      (by decide +kernel)
  simp only [Bool.and_eq_true, decide_eq_true_eq, List.isEmpty_iff, Bool.not_eq_true'] at hsatisfied
  obtain ⟨⟨⟨hoptions, hparameters⟩, hdefaulted⟩, hsupplied⟩ := hsatisfied
  obtain ⟨p, later, hlist, hfirst, hlater⟩ := List.map_eq_cons_iff.1 hparameters
  obtain ⟨number, last, rfl, -, hlast⟩ := List.map_eq_cons_iff.1 hlater
  obtain ⟨q, none, rfl, hthird, hnone⟩ := List.map_eq_cons_iff.1 hlast
  obtain ⟨hkey, hstring⟩ := Prod.mk.inj hfirst
  obtain ⟨hkey', hnumber⟩ := Prod.mk.inj hthird
  have hp : p ∈ u.layout.parameters := by simp [hlist]
  have hq : q ∈ u.layout.parameters := by simp [hlist]
  have hundeclared (key : String) : ∀ o ∈ u.options, o.key ≠ key := by simp [hoptions]
  obtain ⟨hdisjoint, -, hmirrors⟩ := mirrors_of_finish Registry.reachable_standard hcompile
  obtain ⟨htext, hmark⟩ :=
    (hmirrors hfed henv p hp).2 "$string" (by simp [hstring]) (hundeclared _)
  obtain ⟨hsome, haliases⟩ := hmirrors hfed henv q hq
  obtain ⟨hsecond, hmark'⟩ := haliases "int2" (by simp [hnumber]) (hundeclared _)
  rw [hkey] at htext hmark
  rw [hkey'] at hsome hsecond hmark'
  refine ⟨u, r', inv, env, hcompile, hfed, henv, p, hp, q, hq, hstring, hnumber, ?_, hsecond, ?_,
    hmark'.trans hdefaulted, htext, hmark.trans hsupplied⟩
  · rw [hlist] at hdisjoint
    exact List.rel_of_pairwise_cons hdisjoint (by simp)
  · rw [Ne, hsome]
    intro hunbound
    simp [Dict.get?_insert] at hunbound

end Usage

end Synopsis
