import Synopsis.Proofs.Absences
import Synopsis.Proofs.Sequences
import Synopsis.Proofs.Typing

/-!
# The sides of a switch

**Theorem (`Usage.sides_of_switch`).** A switch that does not repeat is bound to the side that was
written: to `false` by a long spelling after `--no-`, to `true` by any other. If none was written it
is bound to the side opposite to the declared one, and one of two declared sides must be written.
Writing it twice always fails, on one side or on both.

The side of a long spelling is told by the spelling alone, and the option lists it on that side
(`OptionSpec.MadeOf.mem_negatives_iff`). The table has an implied value for each side, and an
occurrence of a switch carries the one of its spelling (`Usage.implied_of_scan`). Every token before
the tail that spells an option is an occurrence of it (`SwitchTable.ReadsPieces.countP_le`).
-/

namespace Synopsis

theorem isLongSpelling_no {spelling : String} {base : List Char}
    (hlist : spelling.toList = '-' :: '-' :: 'n' :: 'o' :: '-' :: base)
    (h : isLongSpelling spelling) : base ≠ [] := by
  rintro rfl
  simp [isLongSpelling, hlist, isKebabRest] at h

/-- **A long spelling is on the negated side if it starts with `--no-`.** -/
theorem optionKey_negated_iff {spelling : String} (h : isLongSpelling spelling) :
    (optionKey spelling).2 ↔ "--no-".toList <+: spelling.toList := by
  obtain ⟨name, -, -, ⟨hlist, hkey⟩ | ⟨hlist, hkey⟩⟩ := isLongSpelling_cases h
  · rw [hkey, hlist]
    exact iff_of_true rfl ⟨name, rfl⟩
  · rw [hkey]
    refine iff_of_false (by simp) ?_
    rintro ⟨base, hbase⟩
    have hlist' : spelling.toList = '-' :: '-' :: 'n' :: 'o' :: '-' :: base := hbase.symm
    have hnegated : (optionKey spelling).2 = true := by
      simp [optionKey, hlist', startsLong, isLongSpelling_no hlist' h]
    simp [hkey] at hnegated

theorem equals_notMem_of_spelling {spelling : String}
    (h : isLongSpelling spelling ∨ isShortSpelling spelling) : '=' ∉ spelling.toList := by
  rcases h with hlong | hshort
  · obtain ⟨c, cs, hlist, hc, hcs⟩ := isLongSpelling_iff.1 hlong
    have hrest : '=' ∉ cs := fun hmem =>
      absurd (isLower_or_isDigit_of_isKebabRest hcs _ hmem) (by decide)
    have hne : '=' ≠ c := by
      rintro rfl
      simp at hc
    simp [hlist, hrest, hne]
  · obtain ⟨c, hlist, hc⟩ := isShortSpelling_iff.1 hshort
    have hne : '=' ≠ c := by
      rintro rfl
      simp at hc
    simp [hlist, hne]

theorem Declaration.Written.mem_longs {d : Declaration} {longs : List String}
    {short : Option String} (h : d.Written longs short) {spelling : String}
    (hmem : spelling ∈ d.spellings) (hlong : startsLong spelling) : spelling ∈ longs := by
  rw [h.spellings, List.mem_append] at hmem
  refine hmem.resolve_right fun hshort => ?_
  have hvalid := h.short_valid spelling (by simpa using hshort)
  simp [startsLong_of_isShortSpelling hvalid] at hlong

theorem Declaration.WellFormed.negated_of_long {d : Declaration} (h : d.WellFormed)
    {spelling : String} (hmem : spelling ∈ d.spellings) (hlong : startsLong spelling) :
    isLongSpelling spelling ∧ (optionKey spelling).2 = d.negated := by
  obtain ⟨longs, short, hwritten⟩ := h
  exact hwritten.longs_valid spelling (hwritten.mem_longs hmem hlong)

theorem Declaration.WellFormed.long_or_short {d : Declaration} (h : d.WellFormed)
    {spelling : String} (hmem : spelling ∈ d.spellings) :
    isLongSpelling spelling ∨ isShortSpelling spelling := by
  obtain ⟨longs, short, hwritten⟩ := h
  rw [hwritten.spellings, List.mem_append] at hmem
  rcases hmem with hlong | hshort
  · exact Or.inl (hwritten.longs_valid spelling hlong).1
  · exact Or.inr (hwritten.short_valid spelling (by simpa using hshort))

theorem Declaration.WellFormed.spellings_ne_nil {d : Declaration} (h : d.WellFormed) :
    d.spellings ≠ [] := by
  obtain ⟨longs, short, hwritten⟩ := h
  obtain ⟨first, hfirst, -⟩ := hwritten.key
  intro hnil
  simp [hnil] at hfirst

namespace OptionSpec

variable {boolean count : ValueType} {o : OptionSpec} {src : List (Bool × Declaration)}
  {spelling : String}

/-- What turns a switch on is what its affirmative declarations list. -/
theorem MadeOf.mem_spellings_iff (h : MadeOf boolean count o src) :
    spelling ∈ o.spellings ↔ ∃ x ∈ src, x.2.negated = false ∧ spelling ∈ x.2.spellings := by
  cases h with
  | @one mandatory d _ => cases hside : d.negated <;> simp [ofDeclaration, hside]
  | @two mandatory mandatory' d d' hother hside =>
    have hside' : d'.negated = true := by simpa [hside] using hother.side
    simp [join, ofDeclaration, hside, hside']

theorem MadeOf.mem_negatives_iff (h : MadeOf boolean count o src) :
    spelling ∈ o.negatives ↔ ∃ x ∈ src, x.2.negated ∧ spelling ∈ x.2.spellings := by
  cases h with
  | @one mandatory d _ => cases hside : d.negated <;> simp [ofDeclaration, hside]
  | @two mandatory mandatory' d d' hother hside =>
    have hside' : d'.negated = true := by simpa [hside] using hother.side
    simp [join, ofDeclaration, hside, hside']

theorem MadeOf.exists_of_mem (h : MadeOf boolean count o src) (hmem : spelling ∈ o.allSpellings) :
    ∃ x ∈ src, spelling ∈ x.2.spellings := by
  rcases List.mem_append.1 hmem with hmem | hmem
  · obtain ⟨x, hx, -, hs⟩ := h.mem_spellings_iff.1 hmem
    exact ⟨x, hx, hs⟩
  · obtain ⟨x, hx, -, hs⟩ := h.mem_negatives_iff.1 hmem
    exact ⟨x, hx, hs⟩

/-- **The side of a long spelling of an option is told by the spelling.** -/
theorem MadeOf.mem_negatives_iff_of_long (h : MadeOf boolean count o src)
    (hwf : ∀ x ∈ src, x.2.WellFormed) (hmem : spelling ∈ o.allSpellings)
    (hlong : startsLong spelling) :
    spelling ∈ o.negatives ↔ "--no-".toList <+: spelling.toList := by
  obtain ⟨x, hx, hs⟩ := h.exists_of_mem hmem
  obtain ⟨hvalid, hside⟩ := (hwf x hx).negated_of_long hs hlong
  rw [← optionKey_negated_iff hvalid, h.mem_negatives_iff]
  constructor
  · intro ⟨y, hy, hnegated, hs'⟩
    rw [((hwf y hy).negated_of_long hs' hlong).2]
    exact hnegated
  · intro hnegated
    exact ⟨x, hx, by rw [← hside]; exact hnegated, hs⟩

/-- Only the affirmative side of a switch is declared if nothing turns it off. -/
theorem MadeOf.negatives_eq_nil_iff (h : MadeOf boolean count o src)
    (hwf : ∀ x ∈ src, x.2.WellFormed) (hflag : o.isFlag) :
    o.negatives = [] ↔ o.polarity = some .affirmative := by
  have hsome : o.polarity.isSome := (h.isSome_polarity hwf).trans hflag
  cases h with
  | @one mandatory d _ =>
    have hne := (hwf (mandatory, d) (by simp)).spellings_ne_nil
    rw [polarity_ofDeclaration] at hsome ⊢
    cases hside : d.negated with
    | true => simp [ofDeclaration, hside, hne]
    | false =>
      have hvalue : d.value.isFlag := by
        by_contra hvalue
        simp [hside, hvalue] at hsome
      simp [ofDeclaration, hside, hvalue]
  | @two mandatory mandatory' d d' hother hside =>
    have hside' : d'.negated = true := by simpa [hside] using hother.side
    have hne' := (hwf (mandatory', d') (by simp)).spellings_ne_nil
    simp [join, ofDeclaration, hside', hne']

theorem MadeOf.spellings_eq_nil_iff (h : MadeOf boolean count o src)
    (hwf : ∀ x ∈ src, x.2.WellFormed) : o.spellings = [] ↔ o.polarity = some .negative := by
  cases h with
  | @one mandatory d _ =>
    have hne := (hwf (mandatory, d) (by simp)).spellings_ne_nil
    rw [polarity_ofDeclaration]
    cases hside : d.negated with
    | true => simp [ofDeclaration, hside]
    | false => cases hvalue : d.value.isFlag <;> simp [ofDeclaration, hside, hne]
  | @two mandatory mandatory' d d' hother hside =>
    have hne := (hwf (mandatory, d) (by simp)).spellings_ne_nil
    simp [join, ofDeclaration, hside, hne]

end OptionSpec

/-! ## Tokens that spell an option -/

/-- The token is a spelling of the option. -/
def OptionSpec.isSpelledBy (o : OptionSpec) (token : Token) : Bool :=
  token.isName && token.text ∈ o.allSpellings

/-- The tokens that a scan leaves to the tail. -/
def capturedBy (occurrences : List Occurrence) : List Token :=
  (occurrences.filterMap Occurrence.tail?).flatten

namespace SwitchTable

variable {table : SwitchTable} {token : Token} {tailStart : Option Nat} {index : Nat}
  {o : OptionSpec}

/-- The spellings of the option are spellings, and the table has them for its key. -/
def Lists (table : SwitchTable) (o : OptionSpec) : Prop :=
  ∀ spelling ∈ o.allSpellings, (isLongSpelling spelling ∨ isShortSpelling spelling) ∧
    ∃ switch, table.get? spelling = some switch ∧ switch.key = o.key

/-- A token that spells an option is read as the option. -/
theorem ReadsUses.exists_use {uses : List SwitchUse} (h : table.ReadsUses token uses)
    (ho : table.Lists o) (hspelled : o.isSpelledBy token) : ∃ use ∈ uses, use.switch.key = o.key := by
  obtain ⟨-, hmem⟩ := Bool.and_eq_true_iff.1 hspelled
  obtain ⟨hvalid, switch, hget, hkey⟩ := ho token.text (by simpa using hmem)
  cases h with
  | @long long use _ htext huse =>
    refine ⟨use, List.mem_singleton_self _, ?_⟩
    have htoken : String.ofList ('-' :: '-' :: long) = token.text := by
      rw [← htext, String.ofList_toList]
    cases huse with
    | bare _ hswitch =>
      rw [htoken, hget] at hswitch
      rw [← Option.some.inj hswitch, hkey]
    | @attached name value _ _ =>
      have hequals : '=' ∈ token.text.toList := by simp [htext]
      exact absurd hequals (equals_notMem_of_spelling hvalid)
  | @stack c cs uses _ htext hc huses =>
    obtain ⟨rfl⟩ : cs = [] := by
      rcases hvalid with hlong | hshort
      · obtain ⟨d, ds, hlist, -⟩ := isLongSpelling_iff.1 hlong
        rw [htext] at hlist
        exact absurd (by simpa using congrArg List.tail hlist : _ ∧ _).1 hc
      · obtain ⟨d, hlist, -⟩ := isShortSpelling_iff.1 hshort
        rw [htext] at hlist
        simpa using congrArg (List.drop 2) hlist
    have htoken : String.ofList ['-', c] = token.text := by rw [← htext, String.ofList_toList]
    cases huses with
    | flag _ hswitch =>
      rw [htoken, hget] at hswitch
      exact ⟨_, List.mem_cons_self, by rw [← Option.some.inj hswitch, hkey]⟩
    | bare _ hswitch =>
      rw [htoken, hget] at hswitch
      exact ⟨_, List.mem_cons_self, by rw [← Option.some.inj hswitch, hkey]⟩
    | attached _ _ _ hvalue => exact absurd rfl hvalue

theorem Lists.isOption (ho : table.Lists o) (hspelled : o.isSpelledBy token) : token.isOption := by
  obtain ⟨hname, hmem⟩ := Bool.and_eq_true_iff.1 hspelled
  obtain ⟨hlong | hshort, -⟩ := ho token.text (by simpa using hmem)
  · obtain ⟨c, cs, hlist, -⟩ := isLongSpelling_iff.1 hlong
    simp [Token.isOption, hname, hlist]
  · obtain ⟨c, hlist, -⟩ := isShortSpelling_iff.1 hshort
    simp [Token.isOption, hname, hlist]

/-- A piece of an option yields an occurrence of each option that its token spells. -/
theorem one_le_payloadsOf {flags : List SwitchUse} {last : SwitchUse} {value : Option Token}
    (huses : table.ReadsUses token (flags ++ [last])) (ho : table.Lists o)
    (hspelled : o.isSpelledBy token) :
    1 ≤ (payloadsOf o.key (Piece.option token flags last value).occurrences).length := by
  obtain ⟨use, huse, hkey⟩ := huses.exists_use ho hspelled
  obtain ⟨value', hmem⟩ : ∃ value', use.occurrence value' ∈
      (Piece.option token flags last value).occurrences := by
    rcases List.mem_append.1 huse with hflag | hlast
    · exact ⟨none, List.mem_append_left _ (List.mem_map_of_mem hflag)⟩
    · rw [List.mem_singleton.1 hlast]
      exact ⟨value, List.mem_append_right _ (List.mem_singleton_self _)⟩
  have hfound : use.payload value' ∈
      payloadsOf o.key (Piece.option token flags last value).occurrences :=
    List.mem_filterMap.2 ⟨_, hmem, if_pos hkey⟩
  exact List.length_pos_of_mem hfound

/-- **Tokens that spell an option are occurrences of it**, but for those in the tail. -/
theorem ReadsPieces.countP_le {tokens : List Token} {pieces : List Piece}
    (h : table.ReadsPieces tailStart index tokens pieces) (ho : table.Lists o) :
    tokens.countP o.isSpelledBy ≤
      (payloadsOf o.key (pieces.flatMap Piece.occurrences)).length +
        (capturedBy (pieces.flatMap Piece.occurrences)).countP o.isSpelledBy := by
  have hcons {piece : Piece} {pieces : List Piece} :
      payloadsOf o.key ((piece :: pieces).flatMap Piece.occurrences) =
          payloadsOf o.key piece.occurrences ++ payloadsOf o.key (pieces.flatMap Piece.occurrences) ∧
        capturedBy ((piece :: pieces).flatMap Piece.occurrences) =
          capturedBy piece.occurrences ++ capturedBy (pieces.flatMap Piece.occurrences) := by
    rw [List.flatMap_cons, payloadsOf_append]
    simp [capturedBy]
  have hoption {token : Token} {flags : List SwitchUse} {last : SwitchUse} {value : Option Token}
      (huses : table.ReadsUses token (flags ++ [last])) :
      [token].countP o.isSpelledBy ≤
        (payloadsOf o.key (Piece.option token flags last value).occurrences).length := by
    rw [List.countP_singleton]
    split_ifs with hspelled
    · exact one_le_payloadsOf huses ho hspelled
    · exact Nat.zero_le _
  induction h with
  | done => simp
  | @option _ token rest flags last pieces huses _ _ ih =>
    rw [hcons.1, hcons.2, List.length_append, List.countP_append,
      ← List.singleton_append, List.countP_append]
    have := @hoption token flags last none huses
    omega
  | @optionWithValue _ token value rest flags last pieces huses hvalue _ ih =>
    have hnot : o.isSpelledBy value = false := by
      rw [OptionSpec.isSpelledBy, (taken_of_value? hvalue).2.2.2, Bool.false_and]
    rw [hcons.1, hcons.2, List.length_append, List.countP_append,
      ← List.singleton_append, List.countP_append,
      @List.countP_cons_of_neg _ _ value rest (by simp [hnot])]
    have := @hoption token flags last (some value) huses
    omega
  | @positional _ token rest pieces htoken _ _ ih =>
    have hnot : ¬o.isSpelledBy token := by
      intro hspelled
      simp [ho.isOption hspelled] at htoken
    rw [hcons.1, hcons.2, List.length_append, List.countP_append, List.countP_cons_of_neg hnot]
    omega
  | tail => simp [capturedBy, Piece.occurrences, Occurrence.tail?]

end SwitchTable

/-! ## Invocations -/

namespace Usage

variable {text : String} {r r' : Registry} {u : Usage} {tokens : List Token}
  {evaluator : Evaluator} {env : Environment} {o : OptionSpec}

theorem option?_of_mem (h : compile text r = .ok u r') (ho : o ∈ u.options) :
    u.option? o.key = some o := by
  cases hfound : u.option? o.key with
  | none => simpa using List.find?_eq_none.1 hfound o ho
  | some o' =>
    have hkey : o'.key = o.key := by simpa using List.find?_some hfound
    rw [List.inj_on_of_nodup_map (keys_nodup_of_compile h) (List.mem_of_find?_eq_some hfound) ho hkey]

theorem implied_of_scan (h : compile text r = .ok u r') (herror : (u.scan tokens).error = none)
    (ho : o ∈ u.options) (hflag : o.isFlag) {spelling : String} {payload : Payload}
    (hmem : .named o.key spelling payload ∈ (u.scan tokens).occurrences) :
    spelling ∈ o.allSpellings ∧ payload = .implied (!decide (spelling ∈ o.negatives)) := by
  obtain ⟨switch, hget, hclaimed, hswitch⟩ := switch_of_scan h herror ho hmem
  have hspelling := OptionSpec.mem_allSpellings_of_mem_switches hclaimed
  have harity : o.arity = .none := by simpa [OptionSpec.isFlag] using hflag
  rw [SwitchTable.get?_of_build (build_of_compile h) (keys_nodup_of_compile h) ho hspelling] at hget
  refine ⟨hspelling, ?_⟩
  by_cases hside : spelling ∈ o.negatives
  · rw [if_pos hside] at hget
    obtain rfl := Option.some.inj hget
    cases payload with
    | implied on => rw [hswitch.2, decide_eq_true hside]; rfl
    | text => exact absurd rfl hswitch
    | deferred => exact absurd rfl hswitch
  · rw [if_neg hside] at hget
    obtain rfl := Option.some.inj hget
    cases payload with
    | implied on => rw [hswitch.2, decide_eq_false hside, harity]; rfl
    | text => exact absurd harity hswitch
    | deferred => exact absurd harity hswitch

theorem lists_of_compile (h : compile text r = .ok u r') (ho : o ∈ u.options) :
    u.switches.Lists o := by
  obtain ⟨outline, r₁, boolean, count, -, hwf, hdeclares⟩ := declares_of_compile h
  obtain ⟨src, hmade, hsrc⟩ := hdeclares.made ho
  intro spelling hmem
  obtain ⟨x, hx, hs⟩ := hmade.exists_of_mem hmem
  refine ⟨(hwf x (hsrc x hx)).long_or_short hs, ?_⟩
  rw [SwitchTable.get?_of_build (build_of_compile h) (keys_nodup_of_compile h) ho hmem]
  refine ⟨_, rfl, ?_⟩
  split_ifs <;> rfl

/-- An option that may not repeat occurs once at most where an invocation succeeds. -/
theorem length_payloads_le_one (h : compile text r = .ok u r') (ho : o ∈ u.options)
    (hrecurs : o.recurs = false) (henv : (u.invoke tokens evaluator).result = .ok env) :
    ((u.scan tokens).payloads o.key).length ≤ 1 := by
  obtain ⟨-, g, hfed⟩ := fed_of_invoke henv
  have hempty : u.Tolerates (Gathered.occurrences {}) := fun _ _ _ _ => Nat.zero_le _
  have hadmits := (Invocation.exists_fed_iff hempty).1 ⟨_, hfed⟩
  exact hadmits.tolerated o.key o (option?_of_mem h ho) hrecurs

/-- A switch that occurs is bound to the side of the spelling that it occurs by. -/
theorem get?_of_written (h : compile text r = .ok u r')
    (henv : (u.invoke tokens evaluator).result = .ok env) (ho : o ∈ u.options) (hflag : o.isFlag)
    (hrecurs : o.recurs = false) {spelling : String} {payload : Payload}
    (hmem : .named o.key spelling payload ∈ (u.scan tokens).occurrences) :
    env.get? o.key = some (.boolean (!decide (spelling ∈ o.negatives))) := by
  obtain ⟨herror, -⟩ := fed_of_invoke henv
  obtain ⟨-, rfl⟩ := implied_of_scan h herror ho hflag hmem
  -- the occurrence is the only one
  have hpayload : .implied (!decide (spelling ∈ o.negatives)) ∈ (u.scan tokens).payloads o.key :=
    List.mem_filterMap.2 ⟨_, hmem, if_pos rfl⟩
  obtain ⟨payload, hone⟩ := List.length_eq_one_iff.1
    (le_antisymm (length_payloads_le_one h ho hrecurs henv) (List.length_pos_of_mem hpayload))
  obtain rfl : _ = payload := List.mem_singleton.1 (hone ▸ hpayload)
  rcases own_of_invoke h henv ho with hunbound | ⟨-, v, hv, hanswers⟩
  · rw [hone] at hunbound
    exact absurd hunbound.of_none.1 (List.cons_ne_nil _ _)
  rw [hone, OptionSpec.answers_cons_iff hrecurs] at hanswers
  obtain rfl : v = _ := hanswers
  exact hv

/-- A switch that does not occur is bound to the side opposite to the only one that is declared. -/
theorem get?_of_unwritten (h : compile text r = .ok u r')
    (henv : (u.invoke tokens evaluator).result = .ok env) (ho : o ∈ u.options) (hflag : o.isFlag)
    (hrecurs : o.recurs = false) (hnone : ¬(u.scan tokens).Names o.key) :
    o.polarity = some .affirmative ∧ env.get? o.key = some (.boolean false) ∨
      o.polarity = some .negative ∧ env.get? o.key = some (.boolean true) := by
  obtain ⟨outline, r₁, boolean, count, -, hwf, hdeclares⟩ := declares_of_compile h
  obtain ⟨src, hmade, hsrc⟩ := hdeclares.made ho
  have hwf' : ∀ x ∈ src, x.2.WellFormed := fun x hx => hwf x (hsrc x hx)
  rw [Scan.names_iff, not_not] at hnone
  rcases own_of_invoke h henv ho with hunbound | ⟨-, v, hv, hanswers⟩
  · -- without a default there are no sides, or both
    obtain ⟨-, hdefault, -, hboth⟩ := hunbound.of_none
    have hsides : o.polarity.isSome := (hmade.isSome_polarity hwf').trans hflag
    simp only [OptionSpec.default?, Dict.get?_empty, Option.none_or, hmade.default_eq, hrecurs]
      at hdefault
    cases hpolarity : o.polarity with
    | none => simp [hpolarity] at hsides
    | some polarity => cases polarity <;> simp [hpolarity, OptionSpec.implicitDefault] at hdefault hboth
  rw [hnone] at hanswers
  cases hanswers.fallsBack hmade hwf' with
  | off hside => exact Or.inl ⟨hside, hv⟩
  | on hside => exact Or.inr ⟨hside, hv⟩
  | uncounted _ hrecurs' => simp [hrecurs] at hrecurs'
  | unlisted hvalue => simp [hflag] at hvalue

/-- The tokens before the tail spell an option once at most for each of its occurrences. -/
theorem countP_front_le (h : compile text r = .ok u r') (ho : o ∈ u.options)
    (herror : (u.scan tokens).error = none) {front : List Token}
    (hfront : tokens = front ++ capturedBy (u.scan tokens).occurrences) :
    front.countP o.isSpelledBy ≤ ((u.scan tokens).payloads o.key).length := by
  obtain ⟨pieces, hpieces, hoccurrences⟩ := SwitchTable.exists_pieces herror
  replace hoccurrences : (u.scan tokens).occurrences = pieces.flatMap Piece.occurrences :=
    hoccurrences
  have hle := hpieces.countP_le (lists_of_compile h ho)
  have hcount := congrArg (List.countP o.isSpelledBy) hfront
  rw [← hoccurrences, hcount, List.countP_append] at hle
  exact Nat.le_of_add_le_add_right hle

/-- **A switch is bound to the side that was written.** -/
theorem sides_of_switch (h : compile text r = .ok u r') (ho : o ∈ u.options) (hflag : o.isFlag)
    (hrecurs : o.recurs = false) (tokens : List Token) (evaluator : Evaluator) :
    (∀ env, (u.invoke tokens evaluator).result = .ok env →
      ((u.scan tokens).payloads o.key).length ≤ 1 ∧
      (∀ spelling payload, .named o.key spelling payload ∈ (u.scan tokens).occurrences →
        startsLong spelling →
        env.get? o.key = some (.boolean (!decide ("--no-".toList <+: spelling.toList)))) ∧
      (¬(u.scan tokens).Names o.key →
        (o.negatives = [] → env.get? o.key = some (.boolean false)) ∧
        (o.spellings = [] → env.get? o.key = some (.boolean true)))) ∧
    (o.spellings ≠ [] → o.negatives ≠ [] → ¬(u.scan tokens).Names o.key →
      ∃ e, (u.invoke tokens evaluator).result = .error e) ∧
    (2 ≤ ((u.scan tokens).payloads o.key).length →
      ∃ e, (u.invoke tokens evaluator).result = .error e) ∧
    ∀ front, tokens = front ++ capturedBy (u.scan tokens).occurrences →
      2 ≤ front.countP o.isSpelledBy → ∃ e, (u.invoke tokens evaluator).result = .error e := by
  obtain ⟨outline, r₁, boolean, count, -, hwf, hdeclares⟩ := declares_of_compile h
  obtain ⟨src, hmade, hsrc⟩ := hdeclares.made ho
  have hwf' : ∀ x ∈ src, x.2.WellFormed := fun x hx => hwf x (hsrc x hx)
  have hfails (hnot : ∀ env, (u.invoke tokens evaluator).result ≠ .ok env) :
      ∃ e, (u.invoke tokens evaluator).result = .error e := by
    cases hresult : (u.invoke tokens evaluator).result with
    | error e => exact ⟨e, rfl⟩
    | ok env => exact absurd hresult (hnot env)
  refine ⟨fun env henv => ⟨length_payloads_le_one h ho hrecurs henv, ?_, ?_⟩, ?_, ?_, ?_⟩
  · intro spelling payload hmem hlong
    obtain ⟨hspelling, -⟩ := implied_of_scan h (fed_of_invoke henv).1 ho hflag hmem
    rw [get?_of_written h henv ho hflag hrecurs hmem]
    simp only [hmade.mem_negatives_iff_of_long hwf' hspelling hlong]
  · intro hnone
    rw [hmade.negatives_eq_nil_iff hwf' hflag, hmade.spellings_eq_nil_iff hwf']
    rcases get?_of_unwritten h henv ho hflag hrecurs hnone with ⟨hside, hv⟩ | ⟨hside, hv⟩
    · exact ⟨fun _ => hv, fun hside' => by simp [hside] at hside'⟩
    · exact ⟨fun hside' => by simp [hside] at hside', fun _ => hv⟩
  · intro hspellings hnegatives hnone
    rw [Ne, hmade.spellings_eq_nil_iff hwf'] at hspellings
    rw [Ne, hmade.negatives_eq_nil_iff hwf' hflag] at hnegatives
    refine hfails fun env henv => ?_
    rcases get?_of_unwritten h henv ho hflag hrecurs hnone with ⟨hside, -⟩ | ⟨hside, -⟩
    · exact hnegatives hside
    · exact hspellings hside
  · intro htwice
    refine hfails fun env henv => ?_
    have := length_payloads_le_one h ho hrecurs henv
    omega
  · intro front hfront htwice
    refine hfails fun env henv => ?_
    have hle := countP_front_le h ho (fed_of_invoke henv).1 hfront
    have := length_payloads_le_one h ho hrecurs henv
    omega

/-- The negated side before a tail that spells the other one, and both sides before the tail. -/
theorem sides_beforeTail :
    ∃ u r' env, compile "[--x|-a] [--no-x] STR ..." Registry.standard = .ok u r' ∧
      (u.invoke [⟨.name, "--no-x"⟩, ⟨.positionalValue, "v"⟩, ⟨.positionalValue, "w"⟩,
        ⟨.name, "--x"⟩] Evaluator.unsupported).result = .ok env ∧
      ∃ o ∈ u.options, o.isFlag ∧ o.recurs = false ∧ env.get? o.key = some (.boolean false) ∧
        ∃ e, (u.invoke [⟨.name, "--no-x"⟩, ⟨.positionalValue, "v"⟩, ⟨.name, "--x"⟩]
          Evaluator.unsupported).result = .error e := by
  obtain ⟨u, r', env, hcompile, henv, hcheck⟩ := @exists_of_invoke
    [⟨.name, "--no-x"⟩, ⟨.positionalValue, "v"⟩, ⟨.positionalValue, "w"⟩, ⟨.name, "--x"⟩]
    Evaluator.unsupported "[--x|-a] [--no-x] STR ..." Registry.standard
    (fun u _ => u.options.any fun o => o.isFlag && !o.recurs &&
      .named o.key "--no-x" (.implied false) ∈ (u.scan [⟨.name, "--no-x"⟩, ⟨.positionalValue, "v"⟩,
        ⟨.positionalValue, "w"⟩, ⟨.name, "--x"⟩]).occurrences &&
      capturedBy (u.scan [⟨.name, "--no-x"⟩, ⟨.positionalValue, "v"⟩,
        ⟨.name, "--x"⟩]).occurrences = [] &&
      [⟨.name, "--no-x"⟩, ⟨.positionalValue, "v"⟩, ⟨.name, "--x"⟩].countP o.isSpelledBy = 2)
    (by decide +kernel)
  obtain ⟨o, ho, hcheck⟩ := List.any_eq_true.1 hcheck
  obtain ⟨⟨⟨⟨hflag, hrecurs⟩, hwritten⟩, hcaptured⟩, htwice⟩ := by simpa using hcheck
  obtain ⟨hbound, -⟩ := sides_of_switch hcompile ho hflag hrecurs
    [⟨.name, "--no-x"⟩, ⟨.positionalValue, "v"⟩, ⟨.positionalValue, "w"⟩, ⟨.name, "--x"⟩]
    Evaluator.unsupported
  obtain ⟨-, -, -, hfails⟩ := sides_of_switch hcompile ho hflag hrecurs
    [⟨.name, "--no-x"⟩, ⟨.positionalValue, "v"⟩, ⟨.name, "--x"⟩] Evaluator.unsupported
  refine ⟨u, r', env, hcompile, henv, o, ho, hflag, hrecurs, ?_, ?_⟩
  · rw [(hbound env henv).2.1 "--no-x" (.implied false) hwritten (by decide)]
    rfl
  · apply hfails [⟨.name, "--no-x"⟩, ⟨.positionalValue, "v"⟩, ⟨.name, "--x"⟩]
    · rw [hcaptured, List.append_nil]
    · exact htwice.ge

end Usage

end Synopsis
