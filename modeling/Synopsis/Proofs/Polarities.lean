import Synopsis.Proofs.Sides

/-!
# The two polarities of a name

**Theorem (`Usage.polarities_of_compile`).** Where the table has both `--name` and `--no-name`, they
are the two sides of one switch exactly if `--name` is the first spelling of its option. If it is,
then `--name` stands for `true`, `--no-name` stands for `false`, and whatever is written on a command
line, both are occurrences of one key. If it is not, their keys differ.

**Keys.** A declaration has the key of its first spelling (`Declaration.WellFormed.head?_iff`). A
negated one has no other long spelling, so `--no-name` always goes by the name that it negates. An
affirmative one lists every affirmative name of its group, and all but the first go by the key of
another name.

**Sides.** Options of one key are one option. If it is turned on by one spelling and off by another
it is made of two declarations (`OptionSpec.MadeOf.isFlag_of_sides`), so it takes no value.
-/

namespace Synopsis

/-! ## The keys of the two spellings -/

/-- A long spelling is on the affirmative side of its name, unless that starts with `no-`. -/
theorem optionKey_affirmative {name : String} (h : isLongSpelling ("--" ++ name))
    (hno : ¬"no-".toList <+: name.toList) :
    optionKey ("--" ++ name) = (underscored name.toList, false) := by
  obtain ⟨base, -, -, ⟨hlist, -⟩ | ⟨hlist, hkey⟩⟩ := isLongSpelling_cases h
  · have hname : name.toList = "no-".toList ++ base := by simpa using hlist
    exact absurd ⟨base, hname.symm⟩ hno
  · obtain rfl : name.toList = base := by simpa using hlist
    exact hkey

theorem optionKey_negated {name : String} (h : isLongSpelling ("--no-" ++ name)) :
    optionKey ("--no-" ++ name) = (underscored name.toList, true) := by
  obtain ⟨base, -, -, ⟨hlist, hkey⟩ | ⟨-, hkey⟩⟩ := isLongSpelling_cases h
  · obtain rfl : name.toList = base := by simpa using hlist
    exact hkey
  · have hnegated : (optionKey ("--no-" ++ name)).2 := by
      rw [optionKey_negated_iff h]
      exact ⟨name.toList, by simp⟩
    simp [hkey] at hnegated

namespace Declaration.WellFormed

variable {d : Declaration} {spelling : String}

/-- **A long spelling gives its declaration the key exactly if it is the first one.** -/
theorem head?_iff (h : d.WellFormed) (hmem : spelling ∈ d.spellings) (hlong : startsLong spelling) :
    d.spellings.head? = some spelling ↔ d.key = (optionKey spelling).1 := by
  obtain ⟨hvalid, hside⟩ := h.negated_of_long hmem hlong
  obtain ⟨longs, short, hwritten⟩ := h
  obtain ⟨first, hfirst, hkey⟩ := hwritten.key
  constructor
  · intro hhead
    rw [hkey, Option.some.inj (hfirst.symm.trans hhead)]
  · intro heq
    -- long spellings come before short ones, so the first one is long as well
    have hne : longs ≠ [] := List.ne_nil_of_mem (hwritten.mem_longs hmem hlong)
    have hfirst' : first ∈ longs := by
      rw [hwritten.spellings, List.head?_append_of_ne_nil _ hne] at hfirst
      exact List.mem_of_mem_head? hfirst
    obtain ⟨hfirstValid, hfirstSide⟩ := hwritten.longs_valid first hfirst'
    rw [hfirst, ← longSpelling_optionKey hfirstValid, ← longSpelling_optionKey hvalid, hfirstSide,
      hside, ← hkey, heq]

theorem key_of_negated (h : d.WellFormed) (hnegated : d.negated) (hmem : spelling ∈ d.spellings)
    (hlong : startsLong spelling) : d.key = (optionKey spelling).1 := by
  apply (h.head?_iff hmem hlong).1
  obtain ⟨longs, short, hwritten⟩ := h
  obtain ⟨only, rfl⟩ := List.length_eq_one_iff.1 (hwritten.negated hnegated).1
  rw [hwritten.spellings, List.mem_singleton.1 (hwritten.mem_longs hmem hlong)]
  rfl

end Declaration.WellFormed

namespace OptionSpec

variable {boolean count : ValueType} {o : OptionSpec} {src : List (Bool × Declaration)}
  {spelling : String}

theorem MadeOf.isLongSpelling (h : MadeOf boolean count o src)
    (hwf : ∀ x ∈ src, x.2.WellFormed) (hmem : spelling ∈ o.allSpellings)
    (hlong : startsLong spelling) : isLongSpelling spelling := by
  obtain ⟨x, hx, hs⟩ := h.exists_of_mem hmem
  exact ((hwf x hx).negated_of_long hs hlong).1

theorem MadeOf.spellings_eq (h : MadeOf boolean count o src) {mandatory : Bool} {d : Declaration}
    (hmem : (mandatory, d) ∈ src) (hside : d.negated = false) : o.spellings = d.spellings := by
  cases h with
  | one =>
    obtain ⟨rfl, rfl⟩ := by simpa using hmem
    simp [ofDeclaration, hside]
  | @two mandatory₁ mandatory₂ d₁ d₂ hother hside₁ =>
    have hside₂ : d₂.negated = true := by simpa [hside₁] using hother.side
    obtain ⟨-, rfl⟩ | ⟨-, rfl⟩ := by simpa using hmem
    · simp [join, ofDeclaration, hside₁, hside₂]
    · simp [hside] at hside₂

/-- A spelling that turns an option on gives it the key exactly if it is the first one. -/
theorem MadeOf.head?_iff (h : MadeOf boolean count o src) (hwf : ∀ x ∈ src, x.2.WellFormed)
    (hmem : spelling ∈ o.spellings) (hlong : startsLong spelling) :
    o.spellings.head? = some spelling ↔ o.key = (optionKey spelling).1 := by
  obtain ⟨⟨mandatory, d⟩, hx, hside, hs⟩ := h.mem_spellings_iff.1 hmem
  rw [h.spellings_eq hx hside, ← h.key_eq _ hx]
  exact (hwf _ hx).head?_iff hs hlong

theorem MadeOf.key_of_mem_negatives (h : MadeOf boolean count o src)
    (hwf : ∀ x ∈ src, x.2.WellFormed) (hmem : spelling ∈ o.negatives)
    (hlong : startsLong spelling) : o.key = (optionKey spelling).1 := by
  obtain ⟨x, hx, hnegated, hs⟩ := h.mem_negatives_iff.1 hmem
  rw [← h.key_eq x hx]
  exact (hwf x hx).key_of_negated hnegated hs hlong

theorem MadeOf.isFlag_of_sides (h : MadeOf boolean count o src)
    (hwf : ∀ x ∈ src, x.2.WellFormed) (hon : o.spellings ≠ []) (hoff : o.negatives ≠ []) :
    o.isFlag := by
  have hflag := h.isSome_polarity hwf
  cases h with
  | @one mandatory d _ => cases hside : d.negated <;> simp [ofDeclaration, hside] at hon hoff
  | two => exact hflag.symm.trans rfl

end OptionSpec

/-! ## What a spelling stands for -/

namespace Usage

variable {text : String} {r r' : Registry} {u : Usage} {spelling key : String}

/-- The spelling stands for one side of the switch `key`: the table says so, and on every command
line its occurrences are of that key and carry that side. -/
structure Turns (u : Usage) (spelling key : String) (on : Bool) : Prop where
  switch : u.switches.get? spelling = some ⟨key, .none, some on⟩
  occurrence : ∀ tokens, (u.scan tokens).error = none → ∀ key' payload,
    .named key' spelling payload ∈ (u.scan tokens).occurrences →
      key' = key ∧ payload = .implied on

theorem turns_of_get? {on : Bool} (h : u.switches.get? spelling = some ⟨key, .none, some on⟩) :
    u.Turns spelling key on where
  switch := h
  occurrence := by
    intro tokens herror key' payload hmem
    obtain ⟨pieces, hpieces, hoccurrences⟩ := SwitchTable.exists_pieces herror
    rw [show (u.scan tokens).occurrences = _ from hoccurrences] at hmem
    obtain ⟨switch, hget, hkey, hcarries⟩ := hpieces.carries hmem
    obtain rfl := Option.some.inj (h.symm.trans hget)
    refine ⟨hkey.symm, ?_⟩
    cases payload with
    | implied side => exact congrArg Payload.implied hcarries.2
    | text => exact absurd rfl hcarries
    | deferred => exact absurd rfl hcarries

/-- What a spelling in the table says of the option that lists it. -/
theorem listed_of_get? (h : compile text r = .ok u r') {switch : Switch}
    (hget : u.switches.get? spelling = some switch) :
    ∃ o ∈ u.options, spelling ∈ o.allSpellings ∧ switch.key = o.key ∧
      switch = if spelling ∈ o.negatives then ⟨o.key, .none, some false⟩
        else ⟨o.key, o.arity, if o.arity = .required then none else some true⟩ := by
  obtain ⟨o, ho, hclaimed⟩ := SwitchTable.exists_of_get?_build (build_of_compile h) hget
  have hmem := OptionSpec.mem_allSpellings_of_mem_switches hclaimed
  rw [SwitchTable.get?_of_build (build_of_compile h) (keys_nodup_of_compile h) ho hmem] at hget
  exact ⟨o, ho, hmem, OptionSpec.key_of_mem_switches hclaimed, (Option.some.inj hget).symm⟩

/-- **The two polarities of a name are the two sides of one switch exactly if the affirmative one
is the first spelling of its option.** -/
theorem polarities_of_compile (h : compile text r = .ok u r') {name : String}
    (hno : ¬"no-".toList <+: name.toList) {on off : Switch}
    (hon : u.switches.get? ("--" ++ name) = some on)
    (hoff : u.switches.get? ("--no-" ++ name) = some off) :
    u.Turns ("--no-" ++ name) (underscored name.toList) false ∧
    ∃ o ∈ u.options, "--" ++ name ∈ o.spellings ∧ on.key = o.key ∧
      (o.spellings.head? = some ("--" ++ name) →
        u.Turns ("--" ++ name) (underscored name.toList) true) ∧
      (o.spellings.head? ≠ some ("--" ++ name) → on.key ≠ off.key) := by
  obtain ⟨outline, r₁, boolean, count, -, hwf, hdeclares⟩ := declares_of_compile h
  obtain ⟨o, ho, hlisted, hkey, hswitch⟩ := listed_of_get? h hon
  obtain ⟨o', ho', hlisted', hkey', hswitch'⟩ := listed_of_get? h hoff
  obtain ⟨src, hmade, hsrc⟩ := hdeclares.made ho
  obtain ⟨src', hmade', hsrc'⟩ := hdeclares.made ho'
  have hwf₁ : ∀ x ∈ src, x.2.WellFormed := fun x hx => hwf x (hsrc x hx)
  have hwf₂ : ∀ x ∈ src', x.2.WellFormed := fun x hx => hwf x (hsrc' x hx)
  have hlong : startsLong ("--" ++ name) := by simp [startsLong]
  have hlong' : startsLong ("--no-" ++ name) := by simp [startsLong]
  -- each spelling is on its own side
  have hside : "--" ++ name ∉ o.negatives := by
    rw [hmade.mem_negatives_iff_of_long hwf₁ hlisted hlong]
    simpa using hno
  have hside' : "--no-" ++ name ∈ o'.negatives := by
    rw [hmade'.mem_negatives_iff_of_long hwf₂ hlisted' hlong']
    exact ⟨name.toList, by simp⟩
  have hmem : "--" ++ name ∈ o.spellings := (List.mem_append.1 hlisted).resolve_right hside
  rw [if_neg hside] at hswitch
  rw [if_pos hside'] at hswitch'
  -- the negated one has the key of its name, the affirmative one that of the first spelling
  have hnegated : o'.key = underscored name.toList := by
    rw [hmade'.key_of_mem_negatives hwf₂ hside' hlong',
      optionKey_negated (hmade'.isLongSpelling hwf₂ hlisted' hlong')]
  have hfirst : o.spellings.head? = some ("--" ++ name) ↔ o.key = underscored name.toList := by
    rw [hmade.head?_iff hwf₁ hmem hlong,
      optionKey_affirmative (hmade.isLongSpelling hwf₁ hlisted hlong) hno]
  refine ⟨turns_of_get? ?_, o, ho, hmem, hkey, fun hhead => turns_of_get? ?_, fun hhead heq => ?_⟩
  · rw [hoff, hswitch', hnegated]
  · have hsame : o.key = o'.key := (hfirst.1 hhead).trans hnegated.symm
    obtain rfl := List.inj_on_of_nodup_map (keys_nodup_of_compile h) ho ho' hsame
    have hflag : o.isFlag := hmade.isFlag_of_sides hwf₁ (List.ne_nil_of_mem hmem)
      (List.ne_nil_of_mem hside')
    have harity : o.arity = .none := by simpa [OptionSpec.isFlag] using hflag
    rw [hon, hswitch, harity, hnegated]
    rfl
  · rw [hkey, hkey', hnegated] at heq
    exact hhead (hfirst.2 heq)

/-- Both polarities of the first of two names for one switch. -/
theorem polarities_ofFirst :
    ∃ u r', compile "[--color|--tint|-c] [--no-color]" Registry.standard = .ok u r' ∧
      u.Turns "--color" "color" true ∧ u.Turns "--no-color" "color" false := by
  obtain ⟨u, r', hcompile, hcheck⟩ :=
    exists_of_succeedsWith (compile "[--color|--tint|-c] [--no-color]" Registry.standard)
      (fun u _ => (u.switches.get? "--color").isSome && (u.switches.get? "--no-color").isSome &&
        u.options.all fun o => "--color" ∈ o.spellings → o.spellings.head? = some "--color")
      (by decide +kernel)
  simp only [Bool.and_eq_true, Option.isSome_iff_exists, List.all_eq_true, decide_eq_true_eq]
    at hcheck
  obtain ⟨⟨⟨on, hon⟩, ⟨off, hoff⟩⟩, hfirst⟩ := hcheck
  obtain ⟨hnegated, o, ho, hmem, -, haffirmative, -⟩ :=
    @polarities_of_compile _ _ _ _ hcompile "color" (by decide) on off hon hoff
  exact ⟨u, r', hcompile, haffirmative (hfirst o ho hmem), hnegated⟩

/-- A second name turns on the switch of the first one, and its negation turns off another. -/
theorem polarities_apart :
    ∃ u r', compile "[--alpha|--beta|--no-beta]" Registry.standard = .ok u r' ∧
      u.switches.get? "--beta" = some ⟨"alpha", .none, some true⟩ ∧
      u.switches.get? "--no-beta" = some ⟨"beta", .none, some false⟩ ∧
      (u.scan (Token.classifyAll ["--beta", "--no-beta"])).occurrences =
        [.named "alpha" "--beta" (.implied true), .named "beta" "--no-beta" (.implied false)] := by
  obtain ⟨u, r', hcompile, hcheck⟩ :=
    exists_of_succeedsWith (compile "[--alpha|--beta|--no-beta]" Registry.standard)
      (fun u _ => u.switches.get? "--beta" = some ⟨"alpha", .none, some true⟩ &&
        u.switches.get? "--no-beta" = some ⟨"beta", .none, some false⟩ &&
        (u.scan (Token.classifyAll ["--beta", "--no-beta"])).occurrences =
          [.named "alpha" "--beta" (.implied true), .named "beta" "--no-beta" (.implied false)])
      (by decide +kernel)
  simp only [Bool.and_eq_true, decide_eq_true_eq] at hcheck
  obtain ⟨⟨hon, hoff⟩, hoccurrences⟩ := hcheck
  exact ⟨u, r', hcompile, hon, hoff, hoccurrences⟩

end Usage

end Synopsis
