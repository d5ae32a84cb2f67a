import Synopsis.Proofs.Deferred
import Synopsis.Proofs.Descriptions
import Synopsis.Proofs.WrittenValues

/-!
# Copying a value by an expression

**Theorem (`Usage.copied_of_written`).** What is written is read back (`Standardized.read?_write`), so
the expression `$key` copies: an option that does not repeat and whose type has no fractions is bound
to the value that is bound under `key`, whenever its type accepts that value.

An expression is answered with the text of the value that its evaluation sees. The only call under
the key of the option is for this expression, so the text of that value is the one that the option is
filled with. The evaluation is not the one that a run fails at: the type reads the text, and as no
standard type takes the file topic, no second claim on it is made. What is seen once stands in the
end, so the value that was copied is the one that `key` has in the environment.
-/

namespace Synopsis

/-! ## The types of options -/

theorem Alternatives.exists_of_resolve {group : Alternatives} {r r' : Registry} {t : ValueType}
    (h : group.resolve r = .ok t r') : ∃ name, r'.types.get? name = some t := by
  have hkeeping {s : ValueType} {r : Registry} (h : Registry.keeping s r = .ok t r') :
      ∃ name, r'.types.get? name = some t := by
    obtain ⟨rfl, rfl⟩ := EStateM.Result.ok.inj h
    exact ⟨_, Registry.types_keep r s⟩
  cases group with
  | words texts => exact hkeeping h
  | types names =>
    rw [resolve, Registry.union_eq, keeping_bind_ok_iff] at h
    obtain ⟨resolved, r₁, -, hunite⟩ := h
    rcases Registry.findOrKeep_ok_iff.1 (Registry.unites_of_unite hunite).2 with
      ⟨hfound, rfl⟩ | ⟨-, hkept⟩
    · exact ⟨_, hfound⟩
    · exact hkeeping hkept

theorem ReadsValue.exists_name {k k' : Known} {value : TakenValue} {metavar : Option String}
    {type : ValueType} (h : ReadsValue k value metavar k') (hk : k.registry.Closed)
    (htype : value.type? = some type) : ∃ name, k'.registry.types.get? name = some type := by
  have hread {t : ValueType} {label : String} (h : ReadsType k t label k') :
      ∃ name, k'.registry.types.get? name = some t := by
    cases h with
    | identifier _ _ hresolved => exact ⟨_, (Registry.get?_of_resolve hk hresolved).2⟩
    | group _ hresolved => exact Alternatives.exists_of_resolve hresolved
  cases h with
  | flag => cases htype
  | required h => exact Option.some.inj htype ▸ hread h
  | optional h => exact Option.some.inj htype ▸ hread h

namespace Usage

variable {text : String} {r r' : Registry} {u : Usage} {o : OptionSpec}

theorem exists_type_name (hr : r.Closed) (h : compile text r = .ok u r') (ho : o ∈ u.options)
    (hflag : o.isFlag = false) : ∃ name, r'.types.get? name = some o.type := by
  have htype : o.taken.type? = some o.type := by
    cases harity : o.arity with
    | none => simp [OptionSpec.isFlag, harity] at hflag
    | required => simp [OptionSpec.taken, harity, TakenValue.type?]
    | optional => simp [OptionSpec.taken, harity, TakenValue.type?]
  exact ((rereadable_of_compile hr h).value o ho []).exists_name
    ((grows_of_compile hr h).closed hr) htype

/-- The registry that compiling a text leaves is the one after that text, too. -/
theorem agrees_of_compile {texts : List String}
    (h : compile text (afterCompiling texts Registry.standard) = .ok u r') :
    Registry.standard.Agrees r' := by
  have hafter : afterCompiling (texts ++ [text]) Registry.standard = r' := by
    unfold afterCompiling at h ⊢
    rw [List.foldl_append, List.foldl_cons, h]
    rfl
  rw [← hafter]
  exact agrees_afterCompiling _ Registry.hosted_standard.agrees

/-- The type of an option that takes a value is made of a standard primitive, or lists words. -/
theorem standardized_of_compile {texts : List String}
    (h : compile text (afterCompiling texts Registry.standard) = .ok u r') (ho : o ∈ u.options)
    (hflag : o.isFlag = false) : Registry.Standardized o.type := by
  have hagrees := agrees_afterCompiling texts Registry.hosted_standard.agrees
  obtain ⟨name, hname⟩ := exists_type_name hagrees.orderly_after.closed h ho hflag
  exact (agrees_of_compile h).standardized hname

end Usage

namespace Invocation

variable {inv : Invocation} {g : Gathered} {evaluator : Evaluator}
  {done done' : List (Call × String)} {calls : List Call} {log before after : List Evaluation}
  {e : Evaluation}

/-! ## One call of a run -/

theorem Completes.exists_call
    (h : Completes inv g evaluator done calls (before ++ e :: after) done') :
    ∃ first c later more text, calls = first ++ c :: later ∧
      Completes inv g evaluator done first before more ∧ Made inv g evaluator more c e ∧
      e.answer = .ok text ∧
      Completes inv g evaluator (more ++ [(c, text)]) later after done' := by
  obtain ⟨first, rest, more, rfl, hfirst, hrest⟩ := h.split
  cases hrest with
  | cons hmade hanswer _ hlater => exact ⟨first, _, _, more, _, rfl, hfirst, hmade, hanswer, hlater⟩

theorem Completes.exists_evaluation {first later : List Call} {c : Call}
    (h : Completes inv g evaluator done calls log done') (hcalls : calls = first ++ c :: later) :
    ∃ before e after, log = before ++ e :: after ∧ before.length = first.length := by
  have hlength : first.length < log.length := by
    rw [h.answers.1, hcalls, List.length_append, List.length_cons]
    omega
  refine ⟨log.take first.length, log[first.length], log.drop (first.length + 1), ?_, ?_⟩
  · rw [List.getElem_cons_drop, List.take_append_drop]
  · rw [List.length_take]
    omega

/-- The call that is made after those of a completed run has the key that stands there. -/
theorem Completes.key_of_call {first later : List Call} {c : Call} {key : String}
    (h : Completes inv g evaluator done first log done') (hcalls : inv.calls g = first ++ c :: later)
    (hcall : ((inv.calls g)[log.length]?).map Call.key = some key) : c.key = key := by
  rw [hcalls, h.answers.1, List.getElem?_append_right le_rfl] at hcall
  simpa using hcall

theorem Completes.claimed_le (h : Completes inv g evaluator done calls log done')
    (hdone : topicsAmong (inv.arrivalsAfter g done) ≤ 1) :
    topicsAmong (inv.arrivalsAfter g done') ≤ 1 := by
  induction h with
  | nil => exact hdone
  | cons _ _ haccepts _ ih => exact ih haccepts.claimed

section Bound

variable (hu : inv.usage.Keyed) (hregulated : inv.Regulated g) (hpasses : inv.Passes g)

include hu hregulated hpasses

theorem filter_calls_option {o : OptionSpec} (ho : o ∈ inv.usage.options)
    (hne : g.occurrences o.key ≠ []) :
    (inv.calls g).filter (·.key = o.key) = callsFor o.key o.type (g.occurrences o.key) := by
  obtain ⟨bindings, claimed, hsettle⟩ := (inv.exists_settle_iff g).2 hpasses
  obtain ⟨arranged, options, positionals, defaulted, hsettled, rfl⟩ := settled_of_settle hsettle
  obtain ⟨found, hsettles, hmem, -⟩ := hsettled.of_option hu ho
  have hcalls := hsettles.calls_eq (hregulated.counted o ho) (hregulated.alone o ho)
  generalize g.occurrences o.key = payloads at hne hsettles hcalls ⊢
  cases found with
  | none =>
    cases hsettles
    exact absurd rfl hne
  | some b =>
    rw [← hsettled.calls_eq hregulated, ← hcalls, ← hsettles.key_eq,
      filter_calls (hsettled.nodup hu) (hmem b rfl)]
    simp

end Bound

/-! ## Copies -/

theorem ofVariables_key (vars : Dict String) (key : String) (view : View) :
    Evaluator.ofVariables vars ("$" ++ key) view =
      match view key with
      | some value => .ok value.write
      | none => .error s!"unbound key '{key}'." := by
  have hlist : ("$" ++ key).toList = '$' :: key.toList := by simp
  unfold Evaluator.ofVariables
  rw [hlist]
  cases hvalue : view key with
  | none => simp only [String.ofList_toList, hvalue]
  | some value => simp only [String.ofList_toList, hvalue]

/-- The evaluation `e` of a run, which `after` follows, copies the value `v` to a key: it answers with
the text of `v`, the key has that value from then on, and the run does not fail at it. -/
structure Copies (run : Outcome) (key : String) (v : Value) (e : Evaluation)
    (after : List Evaluation) : Prop where
  answer : e.answer = .ok v.write
  seen : ∀ later ∈ after, later.view key = some v
  bound : ∀ env, run.result = .ok env → env.get? key = some v
  goesOn : ∀ failure, run.result = .error failure → after ≠ []

section Copies

variable {vars : Dict String} {o : OptionSpec} {key : String} {v : Value} {first later : List Call}
  {c : Call} {more : List (Call × String)}
  (hu : inv.usage.Keyed) (hregulated : inv.Regulated g) (hpasses : inv.Passes g)
  (ho : o ∈ inv.usage.options) (hrecurs : o.recurs = false) (hexact : o.type.Exact)
  (hstandardized : Registry.Standardized o.type)
  (hoccurs : g.occurrences o.key = [.deferred ("$" ++ key)])

include hu hregulated hpasses ho hoccurs

/-- The call for the option is the only one under its key. -/
theorem call_eq (hcalls : inv.calls g = first ++ c :: later) (hc : c.key = o.key) :
    c = ⟨o.key, o.type, "$" ++ key⟩ ∧ ∀ c' ∈ first ++ later, c'.key ≠ o.key := by
  have hown := filter_calls_option hu hregulated hpasses ho (by simp [hoccurs])
  rw [hcalls, hoccurs, List.filter_append, List.filter_cons_of_pos (by simpa using hc)] at hown
  replace hown : first.filter (·.key = o.key) ++ c :: later.filter (·.key = o.key) =
      [⟨o.key, o.type, "$" ++ key⟩] := hown
  rcases List.append_eq_singleton_iff.1 hown with ⟨hfirst, hlater⟩ | ⟨-, hlater⟩
  · obtain ⟨hcall, hnone⟩ := List.cons_eq_cons.1 hlater
    refine ⟨hcall, List.forall_mem_append.2 ⟨fun c' hc' => ?_, fun c' hc' => ?_⟩⟩
    · simpa using List.filter_eq_nil_iff.1 hfirst c' hc'
    · simpa using List.filter_eq_nil_iff.1 hnone c' hc'
  · cases hlater

include hrecurs in
/-- Once the call for the option is answered, the value that the answer is read as stands. -/
theorem stands_of_call (hcalls : inv.calls g = first ++ c :: later) (hc : c.key = o.key)
    {before : List Evaluation} (hbefore : Completes inv g evaluator [] first before more)
    {text : String} (hreads : o.type.Reads text v) (rest : List (Call × String)) :
    inv.Stands g (more ++ (c, text) :: rest) o.key v := by
  obtain ⟨-, hothers⟩ := call_eq hu hregulated hpasses ho hoccurs hcalls hc
  obtain ⟨-, answered, hanswered, hmore, -⟩ := hbefore.answers
  obtain rfl : more = answered := hanswered
  refine .option ho ?_
  have hnone : textsFor more o.key = [] := textsFor_eq_nil fun a ha =>
    hothers a.1 (List.mem_append_left _ (hmore ▸ List.mem_map_of_mem ha))
  have htexts : textsFor ((c, text) :: rest) o.key = text :: textsFor rest o.key := by
    simp [textsFor, hc]
  rw [textsFor_append, hnone, htexts, hoccurs]
  exact .single hrecurs hreads

include hexact hstandardized

/-- **A call for the option that sees a value which the type accepts copies it**: it is answered with
the text of the value, and the type reads that text as the value. -/
theorem answer_of_call (hcalls : inv.calls g = first ++ c :: later) (hc : c.key = o.key)
    (hbefore : Completes inv g (.ofVariables vars) [] first before more)
    (hmade : Made inv g (.ofVariables vars) more c e) (hv : e.view key = some v)
    (haccepts : o.type.accepts v) :
    e.answer = .ok v.write ∧ o.type.Reads v.write v ∧ inv.Accepts g more c v.write := by
  obtain ⟨rfl, -⟩ := call_eq hu hregulated hpasses ho hoccurs hcalls hc
  have htopic := hstandardized.takesTopic_eq_false
  have hreads : o.type.Reads v.write v := by
    unfold ValueType.Reads
    rw [if_neg (by simp [htopic])]
    exact hstandardized.read?_write hexact haccepts
  refine ⟨?_, hreads, ⟨v, hreads⟩, ?_⟩
  · rw [hmade.answer, hmade.expression, ofVariables_key, hv]
  · rw [topicsAmong_arrivalsAfter, topicsAmong_singleton, if_neg (by simp [htopic]), Nat.add_zero]
    refine hbefore.claimed_le ?_
    rw [arrivalsAfter, List.map_nil, List.append_nil]
    exact hpasses.claimed

include hrecurs

/-- Once the calls that a run has completed contain the one for the option, the option has the value
that was copied, and every later evaluation sees it. -/
theorem copies_of_completes {calls rest : List Call} {log : List Evaluation}
    {done : List (Call × String)} (hcalls : inv.calls g = calls ++ rest)
    (hcall : ((inv.calls g)[before.length]?).map Call.key = some o.key)
    (hcompletes : Completes inv g (.ofVariables vars) [] calls (before ++ e :: log) done)
    (hv : e.view key = some v) (haccepts : o.type.accepts v) :
    e.answer = .ok v.write ∧ inv.Stands g done o.key v ∧
      ∀ seen ∈ log, seen.view o.key = some v := by
  obtain ⟨first, c, later, more, text, rfl, hbefore, hmade, htext, hlater⟩ :=
    hcompletes.exists_call
  have hsplit : inv.calls g = first ++ c :: (later ++ rest) := by simpa using hcalls
  have hc := hbefore.key_of_call hsplit hcall
  obtain ⟨hanswer, hreads, -⟩ := answer_of_call hu hregulated hpasses ho hexact hstandardized
    hoccurs hsplit hc hbefore hmade hv haccepts
  obtain rfl : text = v.write := by simpa using htext.symm.trans hanswer
  have hstands (answered : List (Call × String)) :=
    stands_of_call hu hregulated hpasses ho hrecurs hoccurs hsplit hc hbefore hreads answered
  refine ⟨hanswer, ?_, fun seen hseen => ?_⟩
  · obtain ⟨-, answered, rfl, -, -⟩ := hlater.answers
    simpa using hstands answered
  · obtain ⟨earlier, others, rfl⟩ := List.append_of_mem hseen
    obtain ⟨_, c', _, more', text', -, hearlier, hmade', -, -⟩ := hlater.exists_call
    obtain ⟨-, answered, rfl, -, -⟩ := hearlier.answers
    rw [hmade'.sees]
    simpa using hstands answered

/-- **An evaluation for the option that sees a value which the type accepts copies it.** -/
theorem copies_of_outcome (hlog : (inv.outcome g (.ofVariables vars)).evaluations =
      before ++ e :: after) (hcall : ((inv.calls g)[before.length]?).map Call.key = some o.key)
    (hv : e.view key = some v) (haccepts : o.type.accepts v) :
    Copies (inv.outcome g (.ofVariables vars)) o.key v e after ∧
      ∀ env, (inv.outcome g (.ofVariables vars)).result = .ok env → env.get? key = some v := by
  rcases traced_of_outcome hu hregulated hpasses (.ofVariables vars) with
    ⟨env, done, hresult, hcompletes, hfinal⟩ | ⟨failure, hresult, hbreaks⟩
  · rw [hlog] at hcompletes
    obtain ⟨hanswer, hstands, hseen⟩ := copies_of_completes hu hregulated hpasses ho hrecurs hexact
      hstandardized hoccurs (List.append_nil _).symm hcall hcompletes hv haccepts
    have hbound (env' : Environment) (h : (inv.outcome g (.ofVariables vars)).result = .ok env') :
        env' = env := Except.ok.inj (h.symm.trans hresult)
    refine ⟨⟨hanswer, hseen, fun env' h => ?_, fun failure h => ?_⟩, fun env' h => ?_⟩
    · rw [hbound env' h]
      exact hfinal _ _ hstands
    · exact absurd (h.symm.trans hresult) (by simp)
    · rw [hbound env' h]
      exact hfinal _ _ (hcompletes.stands_of_mem hu hpasses (by simp) hv)
  · have hfails {env : Environment} (h : (inv.outcome g (.ofVariables vars)).result = .ok env) :
        False := by simp [hresult] at h
    obtain ⟨first, c, later, log, last, done, hcalls, heq, hfirst, hmade, hrefused⟩ := hbreaks
    rw [hlog] at heq
    rcases List.eq_nil_or_concat after with rfl | ⟨log', last', rfl⟩
    · -- the run would fail at this evaluation, which is answered
      obtain ⟨rfl, hlast⟩ := List.append_inj' heq rfl
      obtain rfl := List.singleton_inj.1 hlast
      obtain ⟨hanswer, -, haccepted⟩ := answer_of_call hu hregulated hpasses ho hexact
        hstandardized hoccurs hcalls (hfirst.key_of_call hcalls hcall) hfirst hmade hv haccepts
      exact absurd haccepted (hrefused _ hanswer)
    · rw [List.concat_eq_append, ← List.cons_append, ← List.append_assoc] at heq
      obtain ⟨rfl, hlast⟩ := List.append_inj' heq rfl
      obtain rfl := List.singleton_inj.1 hlast
      obtain ⟨hanswer, hstands, hseen⟩ := copies_of_completes hu hregulated hpasses ho hrecurs
        hexact hstandardized hoccurs hcalls hcall hfirst hv haccepts
      refine ⟨⟨hanswer, ?_, fun env h => (hfails h).elim, by simp⟩, fun env h => (hfails h).elim⟩
      rw [List.concat_eq_append, List.forall_mem_append]
      exact ⟨hseen, by simpa using (hmade.sees _ _).2 hstands⟩

/-- **In an environment the option has the value of the key**, if its type accepts that. -/
theorem copied_of_outcome {env : Environment}
    (henv : (inv.outcome g (.ofVariables vars)).result = .ok env) :
    ∃ v, env.get? key = some v ∧ (o.type.accepts v → env.get? o.key = some v) := by
  rcases traced_of_outcome hu hregulated hpasses (.ofVariables vars) with
    ⟨env', done, hresult, hcompletes, hfinal⟩ | ⟨failure, hresult, -⟩
  · obtain rfl : env = env' := Except.ok.inj (henv.symm.trans hresult)
    have hmem : ⟨o.key, o.type, "$" ++ key⟩ ∈ inv.calls g := by
      have hown := filter_calls_option hu hregulated hpasses ho (by simp [hoccurs])
      refine List.mem_of_mem_filter (p := (·.key = o.key)) ?_
      rw [hown, hoccurs]
      exact List.mem_singleton_self _
    obtain ⟨first, later, hcalls⟩ := List.append_of_mem hmem
    obtain ⟨before, e, after, hlog, hlength⟩ := hcompletes.exists_evaluation hcalls
    -- the call is answered, so something is seen under the key
    have hsplit := hcompletes
    rw [hlog] at hsplit
    obtain ⟨first', c, later', more, text, hcalls', hbefore, hmade, htext, -⟩ := hsplit.exists_call
    obtain ⟨-, hrest⟩ := List.append_inj (hcalls.symm.trans hcalls')
      (hlength.symm.trans hbefore.answers.1)
    obtain ⟨rfl, -⟩ := List.cons.inj hrest
    obtain ⟨v, hv⟩ : ∃ v, e.view key = some v := by
      rw [hmade.answer, hmade.expression, ofVariables_key] at htext
      cases hview : e.view key with
      | none => simp [hview] at htext
      | some v => exact ⟨v, rfl⟩
    refine ⟨v, hfinal _ _ (hcompletes.stands_of_mem hu hpasses (by simp [hlog]) hv), ?_⟩
    intro haccepts
    have hcall : ((inv.calls g)[before.length]?).map Call.key = some o.key := by
      rw [hcalls, hlength, List.getElem?_append_right le_rfl]
      simp
    exact (copies_of_outcome hu hregulated hpasses ho hrecurs hexact hstandardized hoccurs hlog hcall
      hv haccepts).1.bound env henv
  · rw [henv] at hresult
    cases hresult

end Copies

end Invocation

namespace Usage

open Invocation

/-- **What is written is read back, so `$key` copies.** After any texts have been compiled on the
standard registry:

* a type without fractions reads the text of each value that it accepts as that value;
* an option of such a type that does not repeat and is given the expression `$key` has the value of
  `key` in the environment, if its type accepts that;
* and its evaluation, if it sees a value under `key` that the type accepts, is not the one that the
  run fails at, and the option has that value from then on. -/
theorem copied_of_written (texts : List String) :
    (∀ name t, (afterCompiling texts Registry.standard).types.get? name = some t → t.Exact →
      ∀ v, t.accepts v → t.read? v.write = some v) ∧
    ∀ text u r', compile text (afterCompiling texts Registry.standard) = .ok u r' →
      ∀ tokens defaults inv g, (u.scan tokens).error = none →
      (u.scan tokens).occurrences.foldlM feed { usage := u, defaults } = .ok inv →
      inv.gathered = some g →
      ∀ o ∈ u.options, o.recurs = false → o.type.Exact →
      ∀ key, .deferred ("$" ++ key) ∈ (u.scan tokens).payloads o.key →
      ∀ vars,
        (∀ env, (inv.finish (.ofVariables vars)).1.result = .ok env →
          ∃ v, env.get? key = some v ∧ (o.type.accepts v → env.get? o.key = some v)) ∧
        ∀ before e after, (inv.finish (.ofVariables vars)).1.evaluations = before ++ e :: after →
          ((inv.calls g)[before.length]?).map Call.key = some o.key →
          ∀ v, e.view key = some v → o.type.accepts v →
            Copies (inv.finish (.ofVariables vars)).1 o.key v e after ∧
            ∀ env, (inv.finish (.ofVariables vars)).1.result = .ok env → env.get? key = some v := by
  have hagrees := agrees_afterCompiling texts Registry.hosted_standard.agrees
  refine ⟨fun name t ht hexact v hv => (hagrees.standardized ht).read?_write hexact hv, ?_⟩
  intro text u r' h tokens defaults inv g herror hfed hg o ho hrecurs hexact key hmem vars
  obtain ⟨g', rfl, hafter⟩ := after_of_foldlM_feed rfl hfed
  obtain rfl : g' = g := Option.some.inj hg
  have hu : Usage.Keyed u := keyed_of_compile h
  have hregulated := regulated_of_fed h herror hfed
  have hflag : o.isFlag = false := carries_of_scan h herror ho _ hmem
  have hstandardized := standardized_of_compile h ho hflag
  -- the expression is all that the option is given
  have hnamed : g'.occurrences o.key = (u.scan tokens).payloads o.key := hafter.named o.key
  have hoccurs : g'.occurrences o.key = [.deferred ("$" ++ key)] := by
    rw [← hnamed] at hmem
    obtain ⟨payload, hone⟩ := List.length_eq_one_iff.1
      (le_antisymm (hregulated.alone o ho hrecurs) (List.length_pos_of_mem hmem))
    rw [hone] at hmem ⊢
    rw [List.mem_singleton.1 hmem]
  by_cases hpasses : Passes { usage := u, defaults, gathered := some g' } g'
  · refine ⟨fun env henv => copied_of_outcome hu hregulated hpasses ho hrecurs hexact hstandardized
      hoccurs henv, fun before e after hlog hcall v hv haccepts => ?_⟩
    exact copies_of_outcome hu hregulated hpasses ho hrecurs hexact hstandardized hoccurs hlog hcall
      hv haccepts
  · obtain ⟨hnone, e, hresult⟩ := error_of_not_passes hpasses (.ofVariables vars)
    refine ⟨fun env henv => ?_, fun before e' after hlog => ?_⟩
    · exact absurd (henv.symm.trans hresult) (by simp)
    · exact absurd (hnone.symm.trans hlog) (by simp)

/-- The least integer in a derived type, and an option of that type that is given another's value. -/
theorem copied_of_written_bigInt :
    (∃ t, (afterCompiling ["[--n=BIG_INT] STR"] Registry.standard).types.get? "BigInt" = some t ∧
      t.read? (Value.integer Int64.minValue).write = some (.integer Int64.minValue)) ∧
    ∃ u r' inv g env v e, compile "[--x=INT] [--y=BIG_INT] STR" Registry.standard = .ok u r' ∧
      (u.scan [⟨.name, "--x"⟩, ⟨.namedValue, "-7"⟩, ⟨.name, "--y"⟩, ⟨.namedExpression, "$x"⟩,
        ⟨.positionalValue, "p"⟩]).occurrences.foldlM feed { usage := u } = .ok inv ∧
      inv.gathered = some g ∧ (inv.finish (.ofVariables Dict.empty)).1.result = .ok env ∧
      env.get? "x" = some v ∧ env.get? "y" = some v ∧
      (inv.finish (.ofVariables Dict.empty)).1.evaluations = [e] ∧ e.answer = .ok v.write := by
  constructor
  · have hkept : ((afterCompiling ["[--n=BIG_INT] STR"] Registry.standard).types.get? "BigInt").any
        (fun t => decide t.Exact && t.accepts (.integer Int64.minValue)) = true := by
      decide +kernel
    obtain ⟨t, ht, hcheck⟩ := (Option.any_eq_true _ _).1 hkept
    obtain ⟨hexact, haccepts⟩ := by simpa using hcheck
    exact ⟨t, ht, (copied_of_written ["[--n=BIG_INT] STR"]).1 "BigInt" t ht hexact
      (.integer Int64.minValue) haccepts⟩
  · obtain ⟨u, r', inv, env, hcompile, hfed, henv, hsatisfied⟩ :=
      @exists_of_run "[--x=INT] [--y=BIG_INT] STR"
        [⟨.name, "--x"⟩, ⟨.namedValue, "-7"⟩, ⟨.name, "--y"⟩, ⟨.namedExpression, "$x"⟩,
          ⟨.positionalValue, "p"⟩] Dict.empty (.ofVariables Dict.empty)
        (fun u _ =>
          let scanned := u.scan [⟨.name, "--x"⟩, ⟨.namedValue, "-7"⟩, ⟨.name, "--y"⟩,
            ⟨.namedExpression, "$x"⟩, ⟨.positionalValue, "p"⟩]
          scanned.error.isNone && u.options.any fun o => o.key = "y" && !o.recurs &&
            decide o.type.Exact && scanned.payloads o.key = [.deferred ("$" ++ "x")] &&
            (scanned.occurrences.foldlM feed { usage := u }).toOption.any fun inv =>
              inv.gathered.any fun g => ((inv.calls g)[0]?).map Call.key = some o.key &&
                (inv.finish (.ofVariables Dict.empty)).1.evaluations.length = 1 &&
                (inv.finish (.ofVariables Dict.empty)).1.evaluations.all fun e =>
                  (e.view "x").any o.type.accepts)
        (by decide +kernel)
    simp only [Bool.and_eq_true, List.any_eq_true, Bool.not_eq_true', decide_eq_true_eq,
      Option.isNone_iff_eq_none] at hsatisfied
    obtain ⟨herror, o, ho, ⟨⟨⟨hkey, hrecurs⟩, hexact⟩, hpayloads⟩, hrun⟩ := hsatisfied
    simp only [hfed, Except.toOption, Option.any_some, Option.any_eq_true, Bool.and_eq_true,
      decide_eq_true_eq] at hrun
    obtain ⟨g, hg, ⟨hcall, hone⟩, hview⟩ := hrun
    obtain ⟨e, hlog⟩ := List.length_eq_one_iff.1 hone
    obtain ⟨v, hv, haccepts⟩ : ∃ v, e.view "x" = some v ∧ o.type.accepts v := by
      simpa [hlog, Option.any_eq_true] using hview
    obtain ⟨-, hcopies⟩ := (copied_of_written []).2 _ u r' hcompile _ Dict.empty inv g herror hfed
      hg o ho hrecurs hexact "x" (by simp [hpayloads]) Dict.empty
    obtain ⟨hcopied, hbound⟩ := hcopies [] e [] hlog hcall v hv haccepts
    exact ⟨u, r', inv, g, env, v, e, hcompile, hfed, hg, henv, hbound env henv,
      hkey ▸ hcopied.bound env henv, hlog, hcopied.answer⟩

end Usage

end Synopsis
