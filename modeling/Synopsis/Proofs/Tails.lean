import Synopsis.Proofs.Answers
import Synopsis.Proofs.Invoking
import Synopsis.Proofs.Failures
import Synopsis.Proofs.Plain

/-!
# What a trailing capture takes

A usage with a trailing capture takes as many positionals as it has parameters, and hands the rest
of the command line on, from the next positional argument to the end.

**Theorem (`Usage.delegates_of_invoke`).** Such a usage never meets too many positionals. The tail is
bound exactly if there is a positional more than it has parameters; the arguments then split before
that positional, and the environment is that of the first part with the second as its tail.

The scan of the first part is the scan of all arguments up to the tail, because no piece of a
command line takes part of an argument. No argument is an expression, so nothing is evaluated and
the tail is all that the environments differ by.
-/

namespace Synopsis

/-! ## Usages with a trailing capture -/

theorem Term.leavesOf_append (depth : Nat) (first second : List Term) :
    leavesOf depth (first ++ second) = leavesOf depth first ++ leavesOf depth second := by
  induction first with
  | nil => simp [leavesOf]
  | cons t ts ih => simp [leavesOf, ih]

theorem Term.nestingOf_append (first second : List Term) :
    nestingOf (first ++ second) = max (nestingOf first) (nestingOf second) := by
  induction first with
  | nil => simp [nestingOf]
  | cons t ts ih => simp [nestingOf, ih, max_assoc]

namespace Layout

variable {l : Layout} {ts : List Term}

/-- A trailing capture changes nothing of a layout but where the tail starts. -/
theorem Fits.withTail (hl : l.Fits ts) (tailStart : Option Nat) :
    ({ l with tailStart } : Layout).Fits (ts ++ [.rest]) ∧
      ({ l with tailStart } : Layout).Fits ts := by
  refine ⟨⟨?_, ?_, hl.depth_le, hl.list_deepest, hl.one_list⟩,
    hl.deepest, hl.numbered, hl.depth_le, hl.list_deepest, hl.one_list⟩
  · simpa [Term.nestingOf_append, Term.nestingOf, Term.nesting] using hl.deepest
  · simpa [Term.leavesOf_append, Term.leavesOf, Term.leaves] using hl.numbered

/-- No positional is published under the key of the tail. -/
def Unshadowed (l : Layout) : Prop := ∀ p ∈ l.parameters, tailKey ∉ p.aliases

theorem unshadowed_of_ofTerms {r r' : Registry} (h : ofTerms ts r = .ok l r') : l.Unshadowed := by
  obtain ⟨ps, layout, hgather, rfl, -, rfl⟩ := ofTerms_ok_iff.1 h
  have hps := aliases_of_gather hgather
  have hunshadowed : ∀ p ∈ Parameter.withAliases ps, tailKey ∉ p.aliases := by
    intro _ hmem halias
    obtain ⟨p, hp, rfl⟩ := List.mem_map.1 (Parameter.withAliases_eq ps ▸ hmem)
    obtain ⟨hnames, ⟨heq, -⟩ | ⟨heq, -⟩⟩ := Parameter.unique_of_mem_aliases (hps p hp) halias
    · have := congrArg String.toList heq
      simp [tailKey, Parameter.typeAlias] at this
    · obtain ⟨c, cs, hlist, hletter⟩ := Parameter.identifierAlias_head hnames
      have hhead : ['.', '.', '.'] = c :: cs := by rw [← hlist, ← heq]; rfl
      rw [← (List.cons.inj hhead).1] at hletter
      exact absurd hletter (by decide)
  split
  · exact hunshadowed
  · exact hunshadowed

/-- A tail starts after the parameters, none of which is a list. -/
theorem longest_of_ofTerms {r r' : Registry} {n : Nat} (h : ofTerms ts r = .ok l r')
    (hn : l.tailStart = some n) : l.list? = none ∧ l.longest = some n := by
  obtain ⟨ps, layout, -, rfl, hnone, rfl⟩ := ofTerms_ok_iff.1 h
  split at hn
  · next hrest =>
    rw [if_pos hrest]
    exact ⟨hnone hrest, hn⟩
  · simp at hn

end Layout

/-- A usage with a trailing capture after `n` parameters, none of them a list. -/
structure Usage.Captures (u : Usage) (n : Nat) : Prop where
  keyed : u.Keyed
  aliased : u.layout.Aliased
  unshadowed : u.layout.Unshadowed
  noList : u.layout.list? = none
  longest : u.layout.longest = some n
  tailStart : u.layout.tailStart = some n

namespace Usage

variable {text : String} {r r' : Registry} {u v : Usage} {n : Nat}

theorem unshadowed_of_compile (h : compile text r = .ok u r') : u.layout.Unshadowed := by
  obtain ⟨outline, r₁, options, r₂, layout, switches, -, -, hlayout, -, rfl⟩ := compile_ok_iff.1 h
  exact Layout.unshadowed_of_ofTerms hlayout

theorem captures_of_compile (h : compile text r = .ok u r') (hn : u.layout.tailStart = some n) :
    u.Captures n := by
  obtain ⟨hlist, hlongest⟩ : u.layout.list? = none ∧ u.layout.longest = some n := by
    obtain ⟨outline, r₁, options, r₂, layout, switches, -, -, hlayout, -, rfl⟩ := compile_ok_iff.1 h
    exact Layout.longest_of_ofTerms hlayout hn
  exact ⟨keyed_of_compile h, aliased_of_compile h, unshadowed_of_compile h, hlist, hlongest, hn⟩

theorem addTrailingCapture_ok_iff :
    u.addTrailingCapture = .ok v ↔ u.layout.list? = none ∧
      v = { u with
        layout := { u.layout with tailStart := u.layout.longest }
        terms := if u.terms.any Term.isRest then u.terms else u.terms ++ [.rest] } := by
  simp only [addTrailingCapture, failing_bind_ok_iff, failing_mapError_ok_iff,
    failing_pure_ok_iff]
  cases hlist : u.layout.list? with
  | some list => simp [Layout.withTailCapture, hlist]
  | none => simp [Layout.withTailCapture, hlist]

theorem fits_of_addTrailingCapture (hv : u.addTrailingCapture = .ok v)
    (hfits : u.layout.Fits u.terms) : v.layout.Fits v.terms := by
  obtain ⟨-, rfl⟩ := addTrailingCapture_ok_iff.1 hv
  obtain ⟨hfits', hfits''⟩ := hfits.withTail u.layout.longest
  show ({ u.layout with tailStart := u.layout.longest } : Layout).Fits
    (if u.terms.any Term.isRest then u.terms else u.terms ++ [.rest])
  split
  · exact hfits''
  · exact hfits'

theorem captures_of_addTrailingCapture (h : compile text r = .ok u r')
    (hv : u.addTrailingCapture = .ok v) (hn : v.layout.tailStart = some n) : v.Captures n := by
  have hu := keyed_of_compile h
  have haliased := aliased_of_compile h
  have hunshadowed := unshadowed_of_compile h
  have hfits := fits_of_addTrailingCapture hv hu.fits
  obtain ⟨hlist, rfl⟩ := addTrailingCapture_ok_iff.1 hv
  exact ⟨⟨hu.distinct, hu.optionKeys, hfits⟩, haliased, hunshadowed, hlist, hn, hn⟩

end Usage

/-! ## The scan with and without a tail -/

/-- What a move finds besides a positional. -/
def Move.found : Move → List Occurrence
  | options found _ => found
  | positional found _ => found

namespace SwitchTable

variable {table : SwitchTable} {expecting : Expecting} {index n : Nat} {token : Token}
  {tokens : List Token} {move : Move}

theorem named_of_mem_found {use : SwitchUse} {occurrence : Occurrence}
    (h : occurrence ∈ use.found) : ∃ key spelling payload, occurrence = .named key spelling payload := by
  unfold SwitchUse.found at h
  split_ifs at h
  · exact ⟨_, _, _, List.mem_singleton.1 h⟩
  · simp at h

theorem named_of_readFresh (h : table.readFresh token = .ok move) :
    ∀ occurrence ∈ move.found, ∃ key spelling payload, occurrence = .named key spelling payload := by
  intro occurrence hmem
  by_cases htoken : token.isOption
  · obtain ⟨uses, -, rfl⟩ := (readFresh_ok_iff htoken).1 h
    obtain ⟨use, -, hmem⟩ := List.mem_flatMap.1 hmem
    exact named_of_mem_found hmem
  · rw [readFresh_of_not_isOption (by simpa using htoken)] at h
    obtain rfl := Except.ok.inj h
    simp [Move.found] at hmem

theorem found_after (found : List Occurrence) (move : Move) :
    (move.after found).found = found ++ move.found := by
  cases move <;> rfl

/-- Besides a positional, one token comes to uses of options. -/
theorem named_of_readToken (h : table.readToken expecting token = .ok move) :
    ∀ occurrence ∈ move.found, ∃ key spelling payload, occurrence = .named key spelling payload := by
  have hvalue (key spelling : String) (payload : Payload)
      (heq : .options [.named key spelling payload] (.option none) = move) :
      ∀ occurrence ∈ move.found, ∃ key spelling payload, occurrence = .named key spelling payload := by
    subst heq
    simp [Move.found]
  cases expecting with
  | option last =>
    have hfresh : table.readFresh token = .ok move := by
      cases last <;> cases hkind : token.kind <;> simp_all [readToken]
    exact named_of_readFresh hfresh
  | value key spelling =>
    simp only [readToken] at h
    split at h
    · exact hvalue _ _ _ (Except.ok.inj h)
    · exact hvalue _ _ _ (Except.ok.inj h)
    · exact hvalue _ _ _ (Except.ok.inj h)
    · exact hvalue _ _ _ (Except.ok.inj h)
    · simp at h
    · simp at h
  | optionalValue key spelling implied =>
    simp only [readToken] at h
    split at h
    · exact hvalue _ _ _ (Except.ok.inj h)
    · exact hvalue _ _ _ (Except.ok.inj h)
    · cases hfresh : table.readFresh token with
      | error e => simp [hfresh, Except.map] at h
      | ok move' =>
        rw [hfresh] at h
        obtain rfl := Except.ok.inj h
        intro occurrence hmem
        rw [found_after] at hmem
        rcases List.mem_append.1 hmem with hmem | hmem
        · exact ⟨_, _, _, List.mem_singleton.1 hmem⟩
        · exact named_of_readFresh hfresh occurrence hmem

/-- A scan finds the tail only where it would find one positional more without it. -/
theorem lt_of_tail_mem {ts : List Token}
    (h : .tail ts ∈ (table.scanFrom (some n) expecting index tokens).occurrences) (hle : index ≤ n) :
    n < index + ((table.scanFrom none expecting index tokens).occurrences.filterMap
      Occurrence.positional?).length := by
  induction tokens generalizing expecting index with
  | nil => cases expecting <;> simp [scanFrom, finishScan] at h
  | cons token tokens ih =>
    cases hread : table.readToken expecting token with
    | error e => simp [scanFrom, hread] at h
    | ok move =>
      have hfound : .tail ts ∉ move.found := by
        intro hmem
        obtain ⟨_, _, _, heq⟩ := named_of_readToken hread _ hmem
        simp at heq
      cases move with
      | options found next =>
        simp only [scanFrom, hread, Scan.after, List.mem_append] at h ⊢
        have := ih (h.resolve_left hfound) hle
        rw [List.filterMap_append, List.length_append]
        omega
      | positional found payload =>
        have hnone : table.scanFrom none expecting index (token :: tokens) =
            (table.scanFrom none (.option none) (index + 1) tokens).after
              (found ++ [.positional index payload]) := by simp [scanFrom, hread]
        rw [hnone]
        by_cases hindex : n = index
        · simp [Scan.after, Occurrence.positional?, hindex]
        · have hrest : .tail ts ∈
              (table.scanFrom (some n) (.option none) (index + 1) tokens).occurrences := by
            simp only [scanFrom, hread, Option.some.injEq, if_neg hindex, Scan.after,
              List.mem_append, List.mem_singleton, reduceCtorEq, or_false] at h
            exact h.resolve_left hfound
          have := ih hrest (by omega)
          simp [Scan.after, Occurrence.positional?]
          omega

/-- A scan that finds no tail is the scan without one. -/
theorem scanFrom_none_of_noTail
    (h : ∀ ts, .tail ts ∉ (table.scanFrom (some n) expecting index tokens).occurrences) :
    table.scanFrom none expecting index tokens = table.scanFrom (some n) expecting index tokens := by
  induction tokens generalizing expecting index with
  | nil => rfl
  | cons token tokens ih =>
    cases hread : table.readToken expecting token with
    | error e => simp [scanFrom, hread]
    | ok move =>
      cases move with
      | options found next =>
        simp only [scanFrom, hread, Scan.after, List.mem_append] at h ⊢
        rw [ih fun ts hts => h ts (Or.inr hts)]
      | positional found payload =>
        by_cases hindex : n = index
        · exact absurd (by simp [scanFrom, hread, hindex]) (h (token :: tokens))
        · simp only [scanFrom, hread, Option.some.injEq, if_neg hindex, Scan.after,
            List.mem_append] at h ⊢
          rw [ih fun ts hts => h ts (Or.inr hts)]
          rfl

end SwitchTable

/-! ## What the tail changes -/

namespace Invocation

theorem publish_congr {l : Layout} (haliased : l.Aliased) {values values' : Dict Value}
    {explicit explicit' : List String}
    (hvalues : ∀ key, key ≠ tailKey → values.get? key = values'.get? key)
    (hexplicit : ∀ key, key ≠ tailKey → (key ∈ explicit ↔ key ∈ explicit')) {key : String}
    (hkey : key ≠ tailKey) :
    (publish l values explicit).get? key = (publish l values' explicit').get? key ∧
      (publish l values explicit).isExplicit key = (publish l values' explicit').isExplicit key := by
  refine publish_agree haliased (fun p _ => ?_) (fun p _ => ?_) (hvalues key hkey) (hexplicit key hkey)
  · exact hvalues _ (positionalKey_ne_tailKey p.index)
  · exact hexplicit _ (positionalKey_ne_tailKey p.index)

end Invocation

/-- As many values as the longest branch takes fill every parameter. -/
theorem Layout.filled_of_longest {l : Layout} {ts : List Term} (hl : l.Fits ts)
    (hlist : l.list? = none) {α : Type} {values : List α} {slots : List (Parameter × Slot α)}
    (hlongest : l.longest = some values.length) (h : l.arrange values = .ok slots) :
    l.parameters.length = values.length ∧ ∀ p ∈ l.parameters, p ∈ slots.map (·.1) := by
  have hsingle : ∀ p ∈ l.parameters, p.recurs = false := by
    intro p hp
    simpa using List.find?_eq_none.1 hlist p hp
  have hbranch : l.branch l.deepest = .exactly (l.fixed l.deepest) := by simp [branch, hlist]
  have hfixed : l.fixed l.deepest = values.length := by simpa [longest, hbranch] using hlongest
  have hdepth : l.deepest ≤ l.depthFor values.length l.deepest :=
    (minimum_depthFor l (Nat.le_refl _) (by simp [hbranch, Branch.minimum, hfixed])).1
  obtain ⟨-, -, hdealt⟩ := arrange_sound hl h
  constructor
  · rw [← hfixed, fixed, List.filter_eq_self.2]
    intro p hp
    simp [hl.depth_le p hp, hsingle p hp]
  · intro p hp
    exact hdealt p hp (Nat.le_trans (hl.depth_le p hp) hdepth) (hsingle p hp)

/-! ## Invocations of arguments -/

namespace Usage

variable {u : Usage} {tokens : List Token} {evaluator : Evaluator}

theorem plain_of_arguments {arguments : List String}
    (h : (u.scan (Token.classifyAll arguments)).error = none) :
    ∀ occurrence ∈ (u.scan (Token.classifyAll arguments)).occurrences, occurrence.Plain := by
  obtain ⟨pieces, hpieces, hoccurrences⟩ := SwitchTable.exists_pieces h
  rw [show (u.scan (Token.classifyAll arguments)).occurrences = _ from hoccurrences]
  exact hpieces.plain

theorem isReady_of_settle (hu : u.Keyed) {occurrences : List Occurrence} {g : Gathered}
    (hafter : Gathered.After {} occurrences g)
    (hplain : ∀ occurrence ∈ occurrences, occurrence.Plain) {bindings : List Binding}
    {claimed : Option String}
    (hsettle : Invocation.settle u Dict.empty g none = .ok (bindings, claimed)) :
    ∀ b ∈ bindings, b.IsReady := by
  obtain ⟨hnamed, hpositionals⟩ := hafter.plain hplain
  obtain ⟨arranged, options, positionals, defaulted, hsettled, rfl⟩ :=
    Invocation.settled_of_settle hsettle
  exact hsettled.isReady hu hnamed hpositionals

end Usage

theorem Layout.lt_of_tooMany {l : Layout} {α : Type} {values : List α} {limit got : Nat}
    {ranged : Bool} (h : l.arrange values = .error (.tooMany limit got ranged)) {n : Nat}
    (hn : l.longest = some n) : n < values.length := by
  simp only [arrange, hn] at h
  split_ifs at h with hshort hlong
  · simp at h
  · exact hlong
  · simp only [arrange.select] at h
    split_ifs at h
    simp at h

namespace Usage.Captures

variable {u : Usage} {n : Nat} {arguments : List String} {evaluator : Evaluator}

theorem ne_tooMany (hu : u.Captures n) {limit got : Nat} {ranged : Bool} :
    (u.invoke (Token.classifyAll arguments) evaluator).result ≠
      .error (.count (.tooMany limit got ranged)) := by
  intro h
  cases hfed : (u.scan (Token.classifyAll arguments)).occurrences.foldlM Invocation.feed
      { usage := u } with
  | error e =>
    obtain rfl : e = _ := by simpa [invoke, hfed] using h
    exact Invocation.count_of_foldlM_feed hfed
  | ok inv =>
    obtain ⟨g, rfl, hafter⟩ := exists_gathered hfed
    cases herror : (u.scan (Token.classifyAll arguments)).error with
    | some e => simp [invoke, hfed, herror] at h
    | none =>
      rw [invoke_eq_of_fed hfed herror] at h
      cases hsettle : Invocation.settle u Dict.empty g none with
      | ok result =>
        have hready := isReady_of_settle hu.keyed hafter (plain_of_arguments herror) hsettle
        rw [@Invocation.outcome_of_isReady { usage := u } _ _ _ hsettle hready] at h
        simp at h
      | error e =>
        obtain rfl : e = _ := by simpa [Invocation.outcome, hsettle] using h
        have hlt := Layout.lt_of_tooMany (Invocation.count_of_settle _ hsettle) hu.longest
        -- but no more positionals are scanned than come before the tail
        obtain ⟨pieces, hpieces, hoccurrences⟩ := SwitchTable.exists_pieces herror
        have hle := hpieces.numbered.2 n hu.tailStart (Nat.zero_le n)
        have hpositionals : g.positionals = positionalsOf pieces := by
          rw [hafter.positionals,
            show (u.scan (Token.classifyAll arguments)).occurrences = _ from hoccurrences]
          rfl
        rw [hpositionals] at hlt
        omega

theorem get?_tailKey (hu : u.Captures n) {g : Gathered} {env : Environment}
    (h : (Invocation.outcome { usage := u } g evaluator).result = .ok env) :
    env.get? tailKey = g.tail.map Value.tail := by
  obtain ⟨arranged, options, positionals, defaulted, values, explicit, hpublished, rfl⟩ :=
    Invocation.published_of_outcome hu.keyed h
  have htail := hpublished.valued.of_tail
  cases hg : g.tail with
  | some tokens =>
    rw [hg] at htail
    exact Invocation.get?_publish_of_some (by decide) htail
  | none =>
    rw [hg] at htail
    refine Option.eq_none_iff_forall_not_mem.2 fun v hv => ?_
    obtain ⟨p, hp, halias, -⟩ :=
      (Invocation.get?_publish_of_none hu.aliased (by decide) htail).1 hv
    exact hu.unshadowed p hp halias

theorem isSome_positionalKey (hu : u.Captures n) {g : Gathered} {env : Environment}
    (h : (Invocation.outcome { usage := u } g evaluator).result = .ok env)
    (hn : g.positionals.length = n) {i : Nat} (hi : i < n) :
    (env.get? (positionalKey i)).isSome := by
  obtain ⟨arranged, options, positionals, defaulted, values, explicit, hpublished, rfl⟩ :=
    Invocation.published_of_outcome hu.keyed h
  obtain ⟨hlength, hfilled⟩ := Layout.filled_of_longest hu.keyed.fits hu.noList
    (hn.symm ▸ hu.longest) hpublished.settled.of_arrangement
  obtain ⟨p, hp, rfl⟩ : ∃ p ∈ u.layout.parameters, p.index = i := by
    have hindices := map_index_of_numbered hu.keyed.fits.numbered
    have hmem : i ∈ u.layout.parameters.map Parameter.index := by
      rw [hindices, hlength, hn]
      simpa using hi
    simpa using hmem
  have hbound := (hpublished.settled.bound_iff hu.keyed hp).2 (Or.inl (hfilled p hp))
  obtain ⟨v, -, hv⟩ := hpublished.get?_of_bound hbound
  rw [show positionalKey p.index = p.key from rfl, hv]
  rfl

end Usage.Captures

/-- The environment of `arguments` is that of those before `first`, with the others as its tail. -/
structure Usage.Delegates (u : Usage) (evaluator : Evaluator) (n : Nat) (arguments : List String)
    (env : Environment) (pre : List String) (first : String) (post : List String)
    (env' : Environment) : Prop where
  split : arguments = pre ++ first :: post
  /-- The tail starts at a positional argument. -/
  plain : Token.classify first = [⟨.positionalValue, first⟩]
  tail : env.get? tailKey = some (.tail (Token.classifyAll (first :: post)))
  /-- Nothing after the start of the tail is matched. -/
  scanned : (u.scan (Token.classifyAll arguments)).occurrences =
    (u.scan (Token.classifyAll pre)).occurrences ++ [.tail (Token.classifyAll (first :: post))]
  filled : (u.scan (Token.classifyAll pre)).positionals.length = n
  bound : ∀ i < n, (env.get? (positionalKey i)).isSome
  before : (u.invoke (Token.classifyAll pre) evaluator).result = .ok env'
  untailed : env'.get? tailKey = none
  same : ∀ key, key ≠ tailKey →
    env.get? key = env'.get? key ∧ env.isExplicit key = env'.isExplicit key

namespace Usage.Captures

variable {u : Usage} {n : Nat} {arguments : List String} {evaluator : Evaluator} {env : Environment}

/-- Feeding a tail last changes nothing else that is gathered. -/
theorem fed_before_tail {occurrences : List Occurrence} {g : Gathered} {ts : List Token}
    (h : (occurrences ++ [Occurrence.tail ts]).foldlM Invocation.feed { usage := u } =
      .ok { usage := u, gathered := some g }) :
    ∃ g', occurrences.foldlM Invocation.feed { usage := u } =
        .ok { usage := u, gathered := some g' } ∧ g = { g' with tail := some ts } := by
  rw [List.foldlM_append, failing_bind_ok_iff] at h
  obtain ⟨inv, hfed, hlast⟩ := h
  obtain ⟨g', rfl, -⟩ := exists_gathered hfed
  refine ⟨g', hfed, ?_⟩
  have hlast' : ({ g' with tail := some ts } : Gathered) = g := by
    simpa [Invocation.feed, Gathered.add, bind, Except.bind, pure, Except.pure] using hlast
  exact hlast'.symm

theorem same_of_tail (hu : u.Captures n) {occurrences : List Occurrence} {g : Gathered}
    (hafter : Gathered.After {} occurrences g)
    (hplain : ∀ occurrence ∈ occurrences, occurrence.Plain) {ts : List Token}
    (henv : (Invocation.outcome { usage := u } { g with tail := some ts } evaluator).result = .ok env)
    (hnone : g.tail = none) :
    ∃ env', (Invocation.outcome { usage := u } g evaluator).result = .ok env' ∧
      ∀ key, key ≠ tailKey →
        env.get? key = env'.get? key ∧ env.isExplicit key = env'.isExplicit key := by
  cases hsettle : Invocation.settle u Dict.empty g none with
  | error e =>
    have hsettle' : Invocation.settle u Dict.empty { g with tail := some ts } none = .error e :=
      hsettle
    simp [Invocation.outcome, hsettle'] at henv
  | ok result =>
    obtain ⟨bindings, claimed⟩ := result
    have hready := isReady_of_settle hu.keyed hafter hplain hsettle
    rw [@Invocation.outcome_of_isReady { usage := u } { g with tail := some ts } _ _ hsettle hready]
      at henv
    obtain rfl := Except.ok.inj henv
    rw [@Invocation.outcome_of_isReady { usage := u } g _ _ hsettle hready, hnone]
    refine ⟨_, rfl, fun key hkey => Invocation.publish_congr hu.aliased ?_ ?_ hkey⟩
    · intro key hkey
      rw [Invocation.get?_direct _ _ hkey, Invocation.get?_direct _ _ hkey]
    · intro key hkey
      simp [hkey]

theorem delegates (hu : u.Captures n)
    (henv : (u.invoke (Token.classifyAll arguments) evaluator).result = .ok env) {ts : List Token}
    (hmem : .tail ts ∈ (u.scan (Token.classifyAll arguments)).occurrences) :
    ∃ pre first post env', u.Delegates evaluator n arguments env pre first post env' := by
  obtain ⟨herror, g, hfed⟩ := fed_of_invoke henv
  rw [invoke_eq_of_fed hfed herror] at henv
  obtain ⟨pieces, hpieces, hoccurrences⟩ := SwitchTable.exists_pieces herror
  replace hoccurrences : (u.scan (Token.classifyAll arguments)).occurrences = _ := hoccurrences
  rw [hoccurrences] at hmem hfed
  obtain ⟨before, token, rfl, hnone, hstart, -, -⟩ := hpieces.tail_last hmem
  obtain ⟨pre, first, post, rfl, hfirst, hpre, rfl⟩ := hpieces.arguments_of_tail
  have hbefore := hpre ▸ hpieces.of_append.1
  have hscan : u.scan (Token.classifyAll pre) = ⟨before.flatMap Piece.occurrences, none⟩ :=
    SwitchTable.scanFrom_iff.2 ⟨before, hbefore, rfl⟩
  have happend : (before ++ [Piece.tail (Token.classifyAll (first :: post))]).flatMap
      Piece.occurrences = before.flatMap Piece.occurrences ++
        [.tail (Token.classifyAll (first :: post))] := by
    rw [List.flatMap_append]
    rfl
  rw [happend] at hfed hoccurrences
  obtain ⟨g', hfed', rfl⟩ := fed_before_tail hfed
  have hafter := after_of_fed hfed'
  have hpositionals : g'.positionals = positionalsOf before := by
    rw [hafter.positionals]
    rfl
  have htail : g'.tail = none := by
    have htails : (before.flatMap Piece.occurrences).filterMap Occurrence.tail? = [] := by
      rw [List.filterMap_eq_nil_iff]
      intro occurrence hmem
      cases occurrence with
      | tail tokens => exact absurd hmem (hnone tokens)
      | named => rfl
      | positional => rfl
    rw [hafter.tail, htails]
    rfl
  have hn : g'.positionals.length = n := by
    have hstart' : n = 0 + (positionalsOf (before ++ [Piece.tail _])).length :=
      Option.some_injective _ (hu.tailStart.symm.trans hstart)
    rw [hpositionals, hstart', positionalsOf_append, positionalsOf_tail, List.append_nil, Nat.zero_add]
  obtain ⟨env', henv', hsame⟩ := hu.same_of_tail hafter hbefore.plain henv htail
  have hbound (i : Nat) (hi : i < n) := hu.isSome_positionalKey henv hn hi
  refine ⟨pre, first, post, env', rfl, hfirst, hu.get?_tailKey henv, ?_, ?_, hbound, ?_, ?_, hsame⟩
  · rw [hoccurrences, hscan]
  · rw [hscan, ← hn, hpositionals]
    rfl
  · rw [invoke_eq_of_fed (by rw [hscan]; exact hfed') (by rw [hscan]), henv']
  · rw [hu.get?_tailKey henv', htail]
    rfl

theorem isSome_tailKey_iff (hu : u.Captures n)
    (henv : (u.invoke (Token.classifyAll arguments) evaluator).result = .ok env) :
    (env.get? tailKey).isSome ↔
      ∃ ts, .tail ts ∈ (u.scan (Token.classifyAll arguments)).occurrences := by
  obtain ⟨herror, g, hfed⟩ := fed_of_invoke henv
  rw [invoke_eq_of_fed hfed herror] at henv
  rw [hu.get?_tailKey henv, (after_of_fed hfed).tail, Option.or_none, Option.isSome_map,
    List.getLast?_isSome]
  constructor
  · intro hne
    obtain ⟨ts, hts⟩ := List.exists_mem_of_ne_nil _ hne
    obtain ⟨occurrence, hmem, htail⟩ := List.mem_filterMap.1 hts
    cases occurrence with
    | tail ts' => exact ⟨ts', hmem⟩
    | named => simp [Occurrence.tail?] at htail
    | positional => simp [Occurrence.tail?] at htail
  · rintro ⟨ts, hmem⟩
    exact List.ne_nil_of_mem (List.mem_filterMap.2 ⟨_, hmem, rfl⟩)

/-- The scan finds a tail where there is a positional more than the usage has parameters. -/
theorem exists_tail_iff (hu : u.Captures n)
    (herror : (u.scan (Token.classifyAll arguments)).error = none) :
    (∃ ts, .tail ts ∈ (u.scan (Token.classifyAll arguments)).occurrences) ↔
      n < (u.switches.scan none (Token.classifyAll arguments)).positionals.length := by
  have hscan : u.scan (Token.classifyAll arguments) =
      u.switches.scanFrom (some n) (.option none) 0 (Token.classifyAll arguments) := by
    rw [scan, hu.tailStart]
    rfl
  constructor
  · rintro ⟨ts, hmem⟩
    rw [hscan] at hmem
    have := SwitchTable.lt_of_tail_mem hmem (Nat.zero_le n)
    rwa [Nat.zero_add] at this
  · intro hlt
    by_contra hnone
    push Not at hnone
    obtain ⟨pieces, hpieces, hoccurrences⟩ := SwitchTable.exists_pieces herror
    have hle := hpieces.numbered.2 n hu.tailStart (Nat.zero_le n)
    have hsame : u.switches.scan none (Token.classifyAll arguments) =
        u.scan (Token.classifyAll arguments) := by
      rw [hscan] at hnone ⊢
      exact SwitchTable.scanFrom_none_of_noTail hnone
    have hpositionals : (u.scan (Token.classifyAll arguments)).positionals = positionalsOf pieces := by
      unfold Scan.positionals
      rw [show (u.scan (Token.classifyAll arguments)).occurrences = _ from hoccurrences]
      rfl
    rw [hsame, hpositionals] at hlt
    omega

end Usage.Captures

namespace Usage

variable {text : String} {r r' : Registry} {u v : Usage} {n : Nat}

/-- **A trailing capture takes the rest of the arguments, and nothing else of them.** A usage with a
tail never meets too many positionals. It binds the tail exactly if there is a positional more than
its parameters take; then its environment is that of the arguments before that positional, with the
other arguments as they are for the tail. -/
theorem delegates_of_invoke (h : compile text r = .ok u r')
    (hv : v = u ∨ u.addTrailingCapture = .ok v) (hn : v.layout.tailStart = some n)
    (arguments : List String) (evaluator : Evaluator) :
    v.layout.longest = some n ∧
    (∀ limit got ranged, (v.invoke (Token.classifyAll arguments) evaluator).result ≠
      .error (.count (.tooMany limit got ranged))) ∧
    ∀ env, (v.invoke (Token.classifyAll arguments) evaluator).result = .ok env →
      ((env.get? tailKey).isSome ↔
        n < (v.switches.scan none (Token.classifyAll arguments)).positionals.length) ∧
      ((env.get? tailKey).isSome →
        ∃ pre first post env', v.Delegates evaluator n arguments env pre first post env') := by
  have hcaptures : v.Captures n := by
    rcases hv with rfl | hv
    · exact captures_of_compile h hn
    · exact captures_of_addTrailingCapture h hv hn
  refine ⟨hcaptures.longest, fun _ _ _ => hcaptures.ne_tooMany, fun env henv => ⟨?_, ?_⟩⟩
  · rw [hcaptures.isSome_tailKey_iff henv, hcaptures.exists_tail_iff (fed_of_invoke henv).1]
  · intro hsome
    obtain ⟨ts, hmem⟩ := (hcaptures.isSome_tailKey_iff henv).1 hsome
    exact hcaptures.delegates henv hmem

/-- An option in the tail, and one before it that may do without its value. -/
theorem delegates_optionInTail :
    ∃ u r' env, compile "[--level[=INT]] STR ..." Registry.standard = .ok u r' ∧
      u.layout.tailStart = some 1 ∧
      (u.invoke (Token.classifyAll ["a", "--level", "b", "--level=2"]) Evaluator.unsupported).result =
        .ok env ∧
      ∃ pre first post env', u.Delegates Evaluator.unsupported 1 ["a", "--level", "b", "--level=2"] env
        pre first post env' := by
  obtain ⟨u, r', hcompile, hcheck⟩ := exists_of_succeedsWith
    (compile "[--level[=INT]] STR ..." Registry.standard)
    (fun u _ => u.layout.tailStart = some 1 &&
      (u.invoke (Token.classifyAll ["a", "--level", "b", "--level=2"])
        Evaluator.unsupported).result.toOption.any fun env => (env.get? tailKey).isSome)
    (by decide +kernel)
  simp only [Bool.and_eq_true, decide_eq_true_eq, failing_any_toOption_iff] at hcheck
  obtain ⟨hn, env, henv, htail⟩ := hcheck
  obtain ⟨-, -, hdelegates⟩ := delegates_of_invoke hcompile (Or.inl rfl) hn
    ["a", "--level", "b", "--level=2"] Evaluator.unsupported
  exact ⟨u, r', env, hcompile, hn, henv, (hdelegates env henv).2 htail⟩

end Usage

end Synopsis
