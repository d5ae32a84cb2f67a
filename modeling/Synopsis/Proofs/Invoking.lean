import Synopsis.Proofs.Feeding

/-!
# Invoking a usage

An invocation of tokens that succeeds has scanned them without an error, fed all that was found, and
comes to the outcome of what was gathered.
-/

namespace Synopsis

namespace Usage

variable {u : Usage} {tokens : List Token} {evaluator : Evaluator}

/-- An invocation is feeding what is scanned and finishing, once nothing has failed. -/
theorem invoke_eq_of_fed {g : Gathered}
    (hfed : (u.scan tokens).occurrences.foldlM Invocation.feed { usage := u } =
      .ok { usage := u, gathered := some g })
    (herror : (u.scan tokens).error = none) (evaluator : Evaluator) :
    u.invoke tokens evaluator = Invocation.outcome { usage := u } g evaluator := by
  simp only [invoke, hfed, herror]
  rfl

theorem exists_gathered {occurrences : List Occurrence} {inv : Invocation}
    (h : occurrences.foldlM Invocation.feed { usage := u } = .ok inv) :
    ∃ g, inv = { usage := u, gathered := some g } ∧ Gathered.After {} occurrences g :=
  Invocation.after_of_foldlM_feed rfl h

theorem after_of_fed {occurrences : List Occurrence} {g : Gathered}
    (h : occurrences.foldlM Invocation.feed { usage := u } =
      .ok { usage := u, gathered := some g }) : Gathered.After {} occurrences g := by
  obtain ⟨g', heq, hafter⟩ := exists_gathered h
  obtain rfl : g = g' := by simpa using heq
  exact hafter

theorem fed_of_invoke {env : Environment} (h : (u.invoke tokens evaluator).result = .ok env) :
    (u.scan tokens).error = none ∧
      ∃ g, (u.scan tokens).occurrences.foldlM Invocation.feed { usage := u } =
        .ok { usage := u, gathered := some g } := by
  unfold invoke at h
  cases hfed : (u.scan tokens).occurrences.foldlM Invocation.feed { usage := u } with
  | error e => simp [hfed] at h
  | ok inv =>
    obtain ⟨g, rfl, -⟩ := exists_gathered hfed
    cases herror : (u.scan tokens).error with
    | some e => simp [hfed, herror] at h
    | none => exact ⟨rfl, g, rfl⟩

theorem exists_of_invoke {text : String} {r : Registry} {satisfied : Usage → Environment → Bool}
    (h : succeedsWith (compile text r)
      (fun u _ => (u.invoke tokens evaluator).result.toOption.any (satisfied u)) = true) :
    ∃ u r' env, compile text r = .ok u r' ∧ (u.invoke tokens evaluator).result = .ok env ∧
      satisfied u env := by
  obtain ⟨u, r', hcompile, h⟩ := exists_of_succeedsWith _ _ h
  obtain ⟨env, henv, h⟩ := failing_any_toOption_iff.1 h
  exact ⟨u, r', env, hcompile, henv, h⟩

end Usage

end Synopsis
