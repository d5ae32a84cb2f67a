import Synopsis.Proofs.Built
import Synopsis.Proofs.Blocks
import Synopsis.Proofs.Evaluations

/-!
# Keys that publishing writes itself

An environment binds options beside what is published: the positionals under `$1`, `$2`, …, a
captured tail under `...` and all positionals under `$`. A text cannot declare an option with such
a key, but the name of an inline option is not held to the spellings of a text.

**Theorem (`Usage.own_of_built`).** However a usage is built, an option that is matched answers with
what its own occurrences come to, unless its key is one that the usage publishes something else
under (`Usage.Reserves`). The keys that a text can declare are never of that kind.

An option named `$` is overwritten (`Usage.overwritten_positionals`).

Such keys break the rule that all bindings have different keys, on which the account of resolving
rests. So it is retold for one key: other bindings leave alone what stands under it.
-/

namespace Synopsis

/-! ## What one binding comes to -/

namespace Invocation

variable {evaluator : Evaluator} {ready : Dict Value} {s s' : Resolution}

theorem completed_of_resolve_of_ne {bs : List Binding} {key : String}
    (hbs : ∀ b ∈ bs, b.key ≠ key) (h : resolve evaluator ready bs s = .ok () s') :
    s'.completed.get? key = s.completed.get? key := by
  induction bs generalizing s with
  | nil =>
    obtain ⟨-, rfl⟩ := keeping_pure_ok_iff.1 h
    rfl
  | cons b bs ih =>
    rw [List.forall_mem_cons] at hbs
    simp only [resolve, keeping_bind_ok_iff] at h
    obtain ⟨_, s₁, hb, hrest⟩ := h
    rcases gets_of_resolveBinding hb with ⟨-, rfl⟩ | ⟨-, v, -, hcompleted⟩
    · exact ih hbs.2 hrest
    · rw [ih hbs.2 hrest, hcompleted, Dict.get?_insert, if_neg hbs.1]

/-- What a binding comes to stands under its key, if no other binding has the key and the tail is
not captured under it. -/
theorem get?_of_resolve_alone {before after : List Binding} {b : Binding}
    {tail : Option (List Token)} {claimed : Option String}
    (hbefore : ∀ b' ∈ before, b'.key ≠ b.key) (hafter : ∀ b' ∈ after, b'.key ≠ b.key)
    (htail : b.key = tailKey → tail = none)
    (h : resolve evaluator (direct (before ++ b :: after) tail) (before ++ b :: after)
      { claimed } = .ok () s') :
    ∃ v, ((direct (before ++ b :: after) tail).extend s'.completed).get? b.key = some v ∧
      b.Gets evaluator v := by
  obtain ⟨s₁, hfirst, h⟩ := resolve_append_ok_iff.1 h
  simp only [resolve, keeping_bind_ok_iff] at h
  obtain ⟨_, s₂, hb, hlast⟩ := h
  have hnone := completed_of_resolve_of_ne hbefore hfirst
  have hlater := completed_of_resolve_of_ne hafter hlast
  rcases gets_of_resolveBinding hb with ⟨hready, rfl⟩ | ⟨-, v, hgets, hcompleted⟩
  · obtain ⟨v, hv⟩ := hready
    refine ⟨v, ?_, ?_⟩
    · have hdirect : (direct (before ++ b :: after) tail).get? b.key =
          ((before ++ b :: after).foldl enterReady Dict.empty).get? b.key := by
        by_cases hkey : b.key = tailKey
        · rw [direct_eq, htail hkey]
        · exact get?_direct _ _ hkey
      rw [Dict.get?_extend, hlater, hnone, hdirect, List.foldl_append, List.foldl_cons,
        get?_foldl_enterReady_of_ne hafter]
      simp [enterReady, hv]
    · unfold Binding.Gets
      rw [hv]
  · refine ⟨v, ?_, hgets⟩
    rw [Dict.get?_extend, hlater, hcompleted, Dict.get?_insert, if_pos rfl]
    rfl

end Invocation

/-! ## The binding of one option -/

theorem Settled.alone_of_option {u : Usage} {defaults : Dict DefaultValue} {g : Gathered}
    {arranged : List (Parameter × Slot Payload)} {options positionals defaulted : List Binding}
    (h : Settled u defaults g arranged options positionals defaulted)
    (hdistinct : (u.options.map OptionSpec.key).Nodup) (hfits : u.layout.Fits u.terms)
    {o : OptionSpec} (ho : o ∈ u.options) (hoccurs : g.occurrences o.key ≠ [])
    (hkey : ∀ p ∈ u.layout.parameters, p.key ≠ o.key) :
    ∃ before b after, options ++ positionals ++ defaulted = before ++ b :: after ∧
      o.Settles defaults (g.occurrences o.key) (some b) ∧
      (∀ b' ∈ before, b'.key ≠ b.key) ∧ ∀ b' ∈ after, b'.key ≠ b.key := by
  obtain ⟨found, hfound, hsettles⟩ : ∃ found, found ∈ options ∧
      o.Settles defaults (g.occurrences o.key) (some found) := by
    obtain ⟨all, hall, rfl⟩ := h.of_options
    obtain ⟨found, hfound, hsettles⟩ := exists_of_forall₂_left hall ho
    cases found with
    | none => exact absurd (Or.inl hoccurs) hsettles.not_hasOwn
    | some b => exact ⟨b, List.reduceOption_mem_iff.2 hfound, hsettles⟩
  obtain ⟨before, after, hoptions, hbefore, hafter⟩ :=
    exists_split_of_nodup_map (hdistinct.sublist h.key_options) hfound
  have hpositional (b' : Binding) (hb' : b' ∈ positionals ∨ b' ∈ defaulted) :
      b'.key ≠ found.key := by
    rw [hsettles.key_eq]
    rcases hb' with hb' | hb'
    · obtain ⟨-, hassigns, -⟩ := Layout.arrange_sound hfits h.of_arrangement
      obtain ⟨s, hs, hb'⟩ := h.of_mem_positionals hb'
      rw [hb'.key_eq]
      exact hkey s.1 (hassigns.shaped s hs).1
    · obtain ⟨p, hp, hb'⟩ := h.of_mem_defaulted hb'
      rw [hb'.key_eq]
      exact hkey p hp
  refine ⟨before, found, after ++ positionals ++ defaulted, ?_, hsettles, hbefore, ?_⟩
  · rw [hoptions]
    simp only [List.append_assoc, List.cons_append]
  · intro b' hb'
    rw [List.append_assoc, List.mem_append, List.mem_append] at hb'
    rcases hb' with hb' | hb'
    · exact hafter b' hb'
    · exact hpositional b' hb'

namespace Usage

/-- Something besides options may be published under the key. -/
def Reserves (u : Usage) (key : String) : Prop :=
  key = positionalsKey ∨ (key = tailKey ∧ u.layout.tailStart.isSome) ∨
    ∃ p ∈ u.layout.parameters, p.key = key

variable {u : Usage} {tokens : List Token} {evaluator : Evaluator} {env : Environment}

theorem Built.fits (hu : u.Built) : u.layout.Fits u.terms := by
  induction hu with
  | compiled h => exact fits_of_compile h
  | extended hu h ih =>
    rcases h.cases with ⟨hkeeps, -, -⟩ | hcapture
    · rw [hkeeps.layout, hkeeps.terms]
      exact ih
    · exact fits_of_addTrailingCapture hcapture ih

theorem tail_of_scan (hnone : u.layout.tailStart = none) (herror : (u.scan tokens).error = none)
    {g : Gathered} (hafter : Gathered.After {} (u.scan tokens).occurrences g) : g.tail = none := by
  obtain ⟨pieces, hpieces, hoccurrences⟩ := SwitchTable.exists_pieces herror
  rw [hnone] at hpieces
  rw [hafter.tail, show (u.scan tokens).occurrences = _ from hoccurrences, Option.or_none,
    List.getLast?_eq_none_iff, List.filterMap_eq_nil_iff]
  intro occurrence hmem
  cases occurrence with
  | tail ts => exact absurd hmem (hpieces.tail_notMem ts)
  | named => rfl
  | positional => rfl

/-- The keys that a text can declare are not reserved. -/
theorem not_reserves_of_isOptionKey {key : String} (h : IsOptionKey key) : ¬u.Reserves key := by
  rintro (heq | ⟨heq, -⟩ | ⟨p, -, heq⟩)
  · exact h.ne_positionalsKey heq
  · exact h.ne_tailKey heq
  · exact h.ne_positionalKey p.index heq.symm

/-- **An option that is matched answers with its own value**, however the usage is built, unless its
key is reserved. No key that a text can declare is. -/
theorem own_of_built (hu : u.Built) (henv : (u.invoke tokens evaluator).result = .ok env) :
    (∀ o ∈ u.options, (u.scan tokens).Names o.key → ¬u.Reserves o.key →
      ∃ v, env.get? o.key = some v ∧
        o.Answers Dict.empty evaluator ((u.scan tokens).payloads o.key) v) ∧
    ∀ key, IsOptionKey key → ¬u.Reserves key := by
  refine ⟨fun o ho hnames hreserves => ?_, fun key => not_reserves_of_isOptionKey⟩
  simp only [Reserves, not_or, not_exists, not_and] at hreserves
  obtain ⟨hpositionals, htail, hparameters⟩ := hreserves
  obtain ⟨herror, g, hfed⟩ := fed_of_invoke henv
  rw [invoke_eq_of_fed hfed herror] at henv
  have hafter := after_of_fed hfed
  have hpayloads : g.occurrences o.key = (u.scan tokens).payloads o.key := hafter.named o.key
  rw [Scan.names_iff, ← hpayloads] at hnames
  rw [← hpayloads]
  obtain ⟨bindings, claimed, s, explicit, hsettle, hresolve, rfl, -, -⟩ :=
    Invocation.resolved_of_outcome henv
  obtain ⟨arranged, options, positionals, defaulted, hsettled, rfl⟩ :=
    Invocation.settled_of_settle hsettle
  obtain ⟨before, b, after, hbindings, hsettles, hbefore, hafter'⟩ :=
    hsettled.alone_of_option hu.nodup_keys hu.fits ho hnames hparameters
  rw [hbindings] at hresolve ⊢
  have hkey : b.key = o.key := hsettles.key_eq
  have hnone : b.key = tailKey → g.tail = none := by
    intro heq
    exact tail_of_scan (by simpa using htail (hkey ▸ heq)) herror hafter
  obtain ⟨v, hv, hgets⟩ := Invocation.get?_of_resolve_alone hbefore hafter' hnone hresolve
  rw [hkey] at hv
  exact ⟨v, Invocation.get?_publish_of_some hpositionals hv, hsettles.answers hgets⟩

/-- An inline option under the key of a second positional, in a usage that has one. -/
theorem own_secondPositional :
    ∃ (u : Usage) (env : Environment), u.Built ∧
      (u.invoke (Token.classifyAll ["--$2=5", "x"]) Evaluator.unsupported).result = .ok env ∧
      ∃ o ∈ u.options, o.key = "$2" ∧ ∃ v, env.get? o.key = some v ∧
        o.Answers Dict.empty Evaluator.unsupported [.text "5"] v := by
  obtain ⟨u, r, hcompile, hcheck⟩ := exists_of_succeedsWith (compile "STR" Registry.standard)
    (fun u r => succeedsWith (u.addInline [⟨"$2", some "Int", none⟩] r) fun m _ =>
      (m.invoke (Token.classifyAll ["--$2=5", "x"]) Evaluator.unsupported).result.isOk &&
        m.layout.parameters.all (·.key ≠ "$2") && m.options.any fun o => o.key = "$2" &&
          (m.scan (Token.classifyAll ["--$2=5", "x"])).payloads o.key = [.text "5"])
    (by decide +kernel)
  obtain ⟨m, r', hm, hcheck⟩ := exists_of_succeedsWith _ _ hcheck
  simp only [Bool.and_eq_true, failing_isOk_iff, List.all_eq_true, List.any_eq_true,
    decide_eq_true_eq] at hcheck
  obtain ⟨⟨⟨env, henv⟩, hparameters⟩, o, ho, hkey, hpayloads⟩ := hcheck
  have hbuilt : m.Built := (Built.compiled hcompile).extended (.inline hm)
  have hreserves : ¬m.Reserves o.key := by
    rw [hkey]
    rintro (heq | ⟨heq, -⟩ | ⟨p, hp, heq⟩)
    · exact absurd heq (by decide)
    · exact absurd heq (by decide)
    · exact hparameters p hp heq
  have hnames : (m.scan (Token.classifyAll ["--$2=5", "x"])).Names o.key := by
    rw [Scan.names_iff, hpayloads]
    simp
  obtain ⟨v, hv, hanswers⟩ := (own_of_built hbuilt henv).1 o ho hnames hreserves
  exact ⟨m, env, hbuilt, henv, o, ho, hkey, v, hv, hpayloads ▸ hanswers⟩

/-- An inline option under the key of all positionals is matched and loses its value to them. -/
theorem overwritten_positionals :
    ∃ (u : Usage) (env : Environment), u.Built ∧
      (u.invoke (Token.classifyAll ["--$=5"]) Evaluator.unsupported).result = .ok env ∧
      ∃ o ∈ u.options, (u.scan (Token.classifyAll ["--$=5"])).payloads o.key = [.text "5"] ∧
        env.get? o.key = some (.list []) ∧
        ¬o.Answers Dict.empty Evaluator.unsupported [.text "5"] (.list []) := by
  obtain ⟨u, r, hcompile, hcheck⟩ := exists_of_succeedsWith (compile "" Registry.standard)
    (fun u r => succeedsWith (u.addInline [⟨"$", some "Int", none⟩] r) fun m _ =>
      (m.invoke (Token.classifyAll ["--$=5"]) Evaluator.unsupported).result.toOption.any fun env =>
        m.options.any fun o => (m.scan (Token.classifyAll ["--$=5"])).payloads o.key = [.text "5"] &&
          !o.recurs && ((o.type.read? "5").bind Value.elements?).isNone &&
          ((env.get? o.key).bind Value.elements?).any List.isEmpty)
    (by decide +kernel)
  obtain ⟨m, r', hm, hcheck⟩ := exists_of_succeedsWith _ _ hcheck
  simp only [failing_any_toOption_iff, List.any_eq_true, Bool.and_eq_true, decide_eq_true_eq,
    Bool.not_eq_true'] at hcheck
  obtain ⟨env, henv, o, ho, ⟨⟨hpayloads, hrecurs⟩, hread⟩, hget⟩ := hcheck
  have hlist : env.get? o.key = some (.list []) := by
    cases hvalue : env.get? o.key with
    | none => simp [hvalue] at hget
    | some v => cases v <;> simp_all [Value.elements?]
  refine ⟨m, env, (Built.compiled hcompile).extended (.inline hm), henv, o, ho, hpayloads, hlist,
    fun hanswers => ?_⟩
  have hvalue : o.type.read? "5" = some (.list []) := by
    simpa [Payload.Yields, ValueType.Reads, fileTopic] using
      (OptionSpec.answers_cons_iff hrecurs).1 hanswers
  simp [hvalue, Value.elements?] at hread

end Usage

end Synopsis
