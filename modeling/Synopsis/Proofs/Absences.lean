import Synopsis.Proofs.Answers
import Synopsis.Proofs.Invoking

/-!
# Options that stay away

An option that does not occur has its default before anything else is asked of it: a switch with
one side is defaulted to the other, a repeated one to the number zero, and an option that repeats
comes to the empty collection. Only then is the mandatory mark read.

**Theorem (`Usage.supplied_or_fallsBack`).** A mandatory option of an invocation that succeeds was
supplied, or it is one of those. The mark is felt only where an option takes one value, and a switch
with two sides must be supplied with the mark or without it.
-/

namespace Synopsis

namespace OptionSpec

variable {boolean count : ValueType} {o : OptionSpec} {src : List (Bool × Declaration)}

theorem MadeOf.default_eq (h : MadeOf boolean count o src) :
    o.default = implicitDefault o.polarity o.recurs := by
  cases h with
  | one => rfl
  | two hother => simp [join, ofDeclaration, hother.single, implicitDefault]

theorem MadeOf.isSome_polarity (h : MadeOf boolean count o src)
    (hwf : ∀ x ∈ src, x.2.WellFormed) : o.polarity.isSome = o.isFlag := by
  cases h with
  | @one mandatory d _ =>
    obtain ⟨longs, short, hwritten⟩ := hwf _ (List.mem_singleton_self _)
    have hflag : (ofDeclaration d mandatory boolean count).isFlag = d.value.isFlag := by
      unfold ofDeclaration isFlag
      cases d.value <;> rfl
    rw [hflag, polarity_ofDeclaration]
    cases hside : d.negated with
    | true => rw [(hwritten.negated hside).2]; rfl
    | false => cases d.value.isFlag <;> rfl
  | @two mandatory mandatory' d d' hother =>
    have hflag : (ofDeclaration d mandatory boolean count).isFlag = d.value.isFlag := by
      unfold ofDeclaration isFlag
      cases d.value <;> rfl
    exact ((hflag.trans hother.flag).symm : _)

/-- What an option is bound to that stays away and is not missed. -/
inductive FallsBack (o : OptionSpec) : Value → Prop
  | off (hpolarity : o.polarity = some .affirmative) (hrecurs : o.recurs = false) :
      FallsBack o (.boolean false)
  | on (hpolarity : o.polarity = some .negative) (hrecurs : o.recurs = false) :
      FallsBack o (.boolean true)
  | uncounted (hflag : o.isFlag) (hrecurs : o.recurs) : FallsBack o (.count 0)
  | unlisted (hflag : o.isFlag = false) (hrecurs : o.recurs) : FallsBack o (o.type.collect [])

theorem FallsBack.recurs_or_side {v : Value} (h : o.FallsBack v) :
    o.recurs ∨ o.polarity = some .affirmative ∨ o.polarity = some .negative := by
  cases h with
  | off hpolarity => exact Or.inr (Or.inl hpolarity)
  | on hpolarity => exact Or.inr (Or.inr hpolarity)
  | uncounted _ hrecurs => exact Or.inl hrecurs
  | unlisted _ hrecurs => exact Or.inl hrecurs

/-- What is left unbound may be: it is not mandatory, nor is it a switch with two sides. -/
theorem Settles.of_none {defaults : Dict DefaultValue} {payloads : List Payload}
    (h : o.Settles defaults payloads none) :
    payloads = [] ∧ o.default? defaults = none ∧ o.mandatory = false ∧ o.polarity ≠ some .both := by
  cases h with
  | unbound hdefault _ hmandatory hpolarity => exact ⟨rfl, hdefault, hmandatory, hpolarity⟩

theorem Answers.fallsBack {evaluator : Evaluator} {v : Value}
    (h : o.Answers Dict.empty evaluator [] v) (hmade : MadeOf boolean count o src)
    (hwf : ∀ x ∈ src, x.2.WellFormed) : o.FallsBack v := by
  have hflag := hmade.isSome_polarity hwf
  have hdefault := hmade.default_eq
  rcases answers_nil_iff.1 h with ⟨d, hsome, hvalue⟩ | ⟨hnone, hrecurs, rfl⟩
  · replace hsome : implicitDefault o.polarity o.recurs = some d := by
      rw [← hdefault]
      simpa [default?] using hsome
    unfold implicitDefault at hsome
    split at hsome
    · next side hpolarity hrecurs =>
      obtain rfl := Option.some.inj hsome
      obtain rfl : v = .count 0 := hvalue
      exact .uncounted (by rw [← hflag, hpolarity]; rfl) hrecurs
    · next hpolarity hrecurs =>
      obtain rfl := Option.some.inj hsome
      obtain rfl : v = .boolean false := hvalue
      exact .off hpolarity hrecurs
    · next hpolarity hrecurs =>
      obtain rfl := Option.some.inj hsome
      obtain rfl : v = .boolean true := hvalue
      exact .on hpolarity hrecurs
    · simp at hsome
  · replace hnone : o.default = none := by simpa [default?] using hnone
    refine .unlisted ?_ hrecurs
    cases hpolarity : o.polarity with
    | none => rw [← hflag, hpolarity]; rfl
    | some side => simp [hdefault, hpolarity, hrecurs, implicitDefault] at hnone

end OptionSpec

namespace Usage

variable {text : String} {r r' : Registry} {u : Usage} {tokens : List Token}
  {evaluator : Evaluator} {env : Environment} {o : OptionSpec}

/-- What an invocation makes of an option: if it is left unbound it may stay away, and else it
answers with a value of its own, and is explicit if it was found. -/
theorem own_of_invoke (h : compile text r = .ok u r')
    (henv : (u.invoke tokens evaluator).result = .ok env) (ho : o ∈ u.options) :
    o.Settles Dict.empty ((u.scan tokens).payloads o.key) none ∨
      (env.isExplicit o.key ↔ (u.scan tokens).Names o.key) ∧
        ∃ v, env.get? o.key = some v ∧
          o.Answers Dict.empty evaluator ((u.scan tokens).payloads o.key) v := by
  have hu := keyed_of_compile h
  obtain ⟨herror, g, hfed⟩ := fed_of_invoke henv
  rw [invoke_eq_of_fed hfed herror] at henv
  obtain ⟨arranged, options, positionals, defaulted, values, explicit, hpublished, rfl⟩ :=
    Invocation.published_of_outcome hu henv
  have hpayloads : g.occurrences o.key = (u.scan tokens).payloads o.key :=
    (after_of_fed hfed).named o.key
  rw [Scan.names_iff, ← hpayloads]
  obtain ⟨found, hsettles, -⟩ := hpublished.settled.of_option hu ho
  cases found with
  | none => exact Or.inl hsettles
  | some b => exact Or.inr (hpublished.own hu ho hsettles.hasOwn)

/-- **A mandatory option is supplied or falls back.** It is explicit if it was found. If it was not
found it is a switch with one side or it repeats, and is bound to what it falls back to. -/
theorem supplied_or_fallsBack (h : compile text r = .ok u r')
    (henv : (u.invoke tokens evaluator).result = .ok env) (ho : o ∈ u.options)
    (hmandatory : o.mandatory) :
    (env.isExplicit o.key ↔ (u.scan tokens).Names o.key) ∧
      (¬(u.scan tokens).Names o.key → ∃ v, env.get? o.key = some v ∧ o.FallsBack v) ∧
      (o.recurs = false → o.isFlag = false ∨ o.polarity = some .both →
        (u.scan tokens).Names o.key ∧ env.isExplicit o.key) := by
  obtain ⟨outline, r₁, boolean, count, -, hwf, hdeclares⟩ := declares_of_compile h
  obtain ⟨src, hmade, hsrc⟩ := hdeclares.made ho
  have hwf' : ∀ x ∈ src, x.2.WellFormed := fun x hx => hwf x (hsrc x hx)
  rcases own_of_invoke h henv ho with hunbound | ⟨hexplicit, v, hv, hanswers⟩
  · simp [hunbound.of_none.2.2.1] at hmandatory
  have hfallsBack (hnone : ¬(u.scan tokens).Names o.key) : o.FallsBack v := by
    rw [Scan.names_iff, not_not] at hnone
    rw [hnone] at hanswers
    exact hanswers.fallsBack hmade hwf'
  refine ⟨hexplicit, fun hnone => ⟨v, hv, hfallsBack hnone⟩, fun hrecurs hkind => ?_⟩
  have hnamed : (u.scan tokens).Names o.key := by
    by_contra hnone
    have hside := (hfallsBack hnone).recurs_or_side.resolve_left (by simp [hrecurs])
    rcases hkind with hvalue | hboth
    · rw [← hmade.isSome_polarity hwf'] at hvalue
      rcases hside with hside | hside <;> simp [hside] at hvalue
    · rcases hside with hside | hside <;> simp [hside] at hboth
  exact ⟨hnamed, hexplicit.2 hnamed⟩

/-- A tuple of options, of which one is supplied and one that repeats is not. -/
theorem fallsBack_repeated :
    ∃ u r' env, compile "--n=INT (--x|-a) (--w=STR)..." Registry.standard = .ok u r' ∧
      (u.invoke [⟨.name, "--n"⟩, ⟨.namedValue, "1"⟩] Evaluator.unsupported).result = .ok env ∧
      (∃ o ∈ u.options, o.mandatory ∧ o.key = "n" ∧ env.isExplicit o.key) ∧
      ∃ o ∈ u.options, o.mandatory ∧ o.key = "w" ∧ ¬env.isExplicit o.key ∧
        ∃ v, env.get? o.key = some v ∧ o.FallsBack v := by
  obtain ⟨u, r', env, hcompile, henv, hcheck⟩ := @exists_of_invoke
    [⟨.name, "--n"⟩, ⟨.namedValue, "1"⟩] Evaluator.unsupported "--n=INT (--x|-a) (--w=STR)..."
    Registry.standard
    (fun u _ => (u.options.any fun o => o.mandatory && !o.recurs && !o.isFlag && o.key = "n") &&
      u.options.any fun o => o.mandatory && o.key = "w" &&
        ((u.scan [⟨.name, "--n"⟩, ⟨.namedValue, "1"⟩]).payloads o.key).isEmpty)
    (by decide +kernel)
  obtain ⟨hsupplied, habsent⟩ := Bool.and_eq_true_iff.1 hcheck
  refine ⟨u, r', env, hcompile, henv, ?_, ?_⟩
  · obtain ⟨o, ho, hcheck⟩ := List.any_eq_true.1 hsupplied
    obtain ⟨⟨⟨hmandatory, hrecurs⟩, hflag⟩, hkey⟩ := by simpa using hcheck
    obtain ⟨-, -, hsupplies⟩ := supplied_or_fallsBack hcompile henv ho hmandatory
    exact ⟨o, ho, hmandatory, hkey, (hsupplies hrecurs (Or.inl hflag)).2⟩
  · obtain ⟨o, ho, hcheck⟩ := List.any_eq_true.1 habsent
    obtain ⟨⟨hmandatory, hkey⟩, hpayloads⟩ := by simpa using hcheck
    obtain ⟨hexplicit, hfallsBack, -⟩ := supplied_or_fallsBack hcompile henv ho hmandatory
    have hnone : ¬(u.scan [⟨.name, "--n"⟩, ⟨.namedValue, "1"⟩]).Names o.key := by
      rw [Scan.names_iff, hpayloads, not_not]
    exact ⟨o, ho, hmandatory, hkey, fun h => hnone (hexplicit.1 h), hfallsBack hnone⟩

/-- A mandatory switch that is not supplied is not missed. -/
theorem mandatory_notSupplied :
    ∃ u r' env, compile "--x" Registry.standard = .ok u r' ∧
      (u.invoke [] Evaluator.unsupported).result = .ok env ∧
      ∃ o ∈ u.options, o.mandatory ∧ ¬(u.scan []).Names o.key ∧ ¬env.isExplicit o.key := by
  obtain ⟨u, r', env, hcompile, henv, hcheck⟩ := @exists_of_invoke [] Evaluator.unsupported "--x"
    Registry.standard
    (fun u env => u.options.any fun o => o.mandatory && ((u.scan []).payloads o.key).isEmpty &&
      !env.isExplicit o.key)
    (by decide +kernel)
  obtain ⟨o, ho, hcheck⟩ := List.any_eq_true.1 hcheck
  obtain ⟨⟨hmandatory, hpayloads⟩, hexplicit⟩ := by simpa using hcheck
  refine ⟨u, r', env, hcompile, henv, o, ho, hmandatory, ?_, by simp [hexplicit]⟩
  rw [Scan.names_iff, hpayloads, not_not]

end Usage

end Synopsis
