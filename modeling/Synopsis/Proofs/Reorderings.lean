import Synopsis.Proofs.Merging
import Synopsis.Proofs.Primitives

/-!
# Declaring options in another order

**Theorem (`OptionSpec.comesTo_reordered`).** In whatever order the mandatory and the optional
groups of a text are declared, they come to options or to none, and if they do, to the same ones in
another order, with the same table of spellings.

**Success.** Which declarations can be options together is told without their order
(`Declaration.Reconcilable`): a negated one does not repeat, and any two of one key are the two
sides of a switch. For one that is placed last, the option of its key was made of one declaration,
as no two can be the other side of a third. So it is paired.

**The options.** An option is made of all declarations of its key (`Declares.exists_perm`). These
are one, or two of which one is negated, and then it does not matter which of them comes first
(`MadeOf.eq_of_perm`).

**The table.** Options of distinct keys have a table if no two of them list one spelling, and each
spelling means what the option that lists it says last. Neither depends on the order of the options
(`SwitchTable.build_perm`).
-/

namespace Synopsis

/-! ## Tables of reordered options -/

namespace SwitchTable

variable {options options' : List OptionSpec} {table : SwitchTable} {spelling : String}

theorem get?_build_eq_some_iff (h : build options = .ok table)
    (hkeys : (options.map OptionSpec.key).Nodup) {switch : Switch} :
    table.get? spelling = some switch ↔ ∃ o ∈ options, spelling ∈ o.allSpellings ∧
      switch = if spelling ∈ o.negatives then ⟨o.key, .none, some false⟩
        else ⟨o.key, o.arity, if o.arity = .required then none else some true⟩ := by
  constructor
  · intro hget
    obtain ⟨o, ho, hmem⟩ := exists_of_get?_build h hget
    have hlisted := OptionSpec.mem_allSpellings_of_mem_switches hmem
    rw [get?_of_build h hkeys ho hlisted] at hget
    exact ⟨o, ho, hlisted, (Option.some.inj hget).symm⟩
  · rintro ⟨o, ho, hlisted, rfl⟩
    exact get?_of_build h hkeys ho hlisted

/-- **The table of options does not depend on their order.** -/
theorem build_perm (hkeys : (options.map OptionSpec.key).Nodup) (hperm : options.Perm options')
    (h : build options = .ok table) : build options' = .ok table := by
  have hkeys' : (options'.map OptionSpec.key).Nodup := (hperm.map _).nodup_iff.1 hkeys
  have hdisjoint := (exists_build_iff hkeys).1 ⟨table, h⟩
  have hsymm {o o' : OptionSpec} (hnone : ∀ s ∈ o.allSpellings, s ∉ o'.allSpellings) :
      ∀ s ∈ o'.allSpellings, s ∉ o.allSpellings := fun s hs' hs => hnone s hs hs'
  obtain ⟨table', h'⟩ := (exists_build_iff hkeys').2 ((hperm.pairwise_iff hsymm).1 hdisjoint)
  suffices heq : table = table' by rw [heq, h']
  refine Dict.ext fun spelling => ?_
  ext switch
  rw [get?_build_eq_some_iff h hkeys, get?_build_eq_some_iff h' hkeys']
  simp only [hperm.mem_iff]

end SwitchTable

/-! ## Declarations that can be options together -/

/-- No negated declaration repeats, and two of one key are the two sides of a switch. -/
structure Declaration.Reconcilable (ds : List Declaration) : Prop where
  single : ∀ d ∈ ds, d.negated → d.recurs = false
  sides : ds.Pairwise fun d d' => d.key = d'.key → d.OtherSide d'

theorem Declaration.Reconcilable.perm {ds ds' : List Declaration} (h : Reconcilable ds)
    (hperm : ds.Perm ds') : Reconcilable ds' := by
  refine ⟨fun d hd => h.single d (hperm.mem_iff.2 hd), ?_⟩
  refine (hperm.pairwise_iff fun {d d'} hside hkey => ?_).1 h.sides
  exact (hside hkey.symm).symm

/-- No two declarations are both the other side of a third and of each other. -/
theorem Declaration.OtherSide.not_third {d d' d'' : Declaration} (h : d.OtherSide d')
    (h' : d.OtherSide d'') : ¬d'.OtherSide d'' := by
  intro h''
  have hside := h.side
  rw [h'.side, h''.side] at hside
  simp at hside

namespace OptionSpec

variable {boolean count : ValueType} {o o' : OptionSpec} {options options' : List OptionSpec}
  {ds ds' src src' : List (Bool × Declaration)}

theorem MadeOf.reconcilable (h : MadeOf boolean count o src) :
    Declaration.Reconcilable (src.map (·.2)) := by
  cases h with
  | one hsingle => exact ⟨by simpa using hsingle, by simp⟩
  | two hother hside =>
    refine ⟨?_, by simpa using fun _ => hother⟩
    simpa using ⟨fun _ => hother.single, fun _ => hother.single'⟩

/-- The declarations of options of distinct keys can be options together. -/
theorem Declares.reconcilable (h : Declares boolean count ds options) :
    Declaration.Reconcilable (ds.map (·.2)) := by
  obtain ⟨hkeys, srcs, hsrcs, hperm⟩ := h
  suffices hflat : Declaration.Reconcilable (srcs.flatten.map (·.2)) from
    hflat.perm (hperm.map _)
  have hmade (src : List (Bool × Declaration)) (hsrc : src ∈ srcs) :
      Declaration.Reconcilable (src.map (·.2)) := by
    obtain ⟨o, -, hmade⟩ := exists_of_forall₂_right hsrcs hsrc
    exact hmade.reconcilable
  refine ⟨fun d hd => ?_, ?_⟩
  · obtain ⟨x, hx, rfl⟩ := List.mem_map.1 hd
    obtain ⟨src, hsrc, hx⟩ := List.mem_flatten.1 hx
    exact (hmade src hsrc).single _ (List.mem_map_of_mem hx)
  · rw [List.pairwise_map, List.pairwise_flatten]
    refine ⟨fun src hsrc => List.pairwise_map.1 (hmade src hsrc).sides, ?_⟩
    -- declarations of two options have different keys
    refine pairwise_of_forall₂ (fun o o' src src' hmade hmade' hne x hx y hy hkey => ?_) hsrcs
      (List.pairwise_map.1 hkeys)
    rw [hmade.key_eq x hx, hmade'.key_eq y hy] at hkey
    exact absurd hkey hne

theorem exists_pair_of_otherSide {d d' : Declaration} (h : d.OtherSide d')
    (mandatory mandatory' : Bool) :
    ∃ joined, (ofDeclaration d mandatory boolean count).pair
      (ofDeclaration d' mandatory' boolean count) = .ok joined := by
  have hpolarity := polarity_ofDeclaration d mandatory boolean count
  have hpolarity' := polarity_ofDeclaration d' mandatory' boolean count
  rw [h.flag] at hpolarity
  rw [h.flag'] at hpolarity'
  cases hside : d'.negated with
  | true =>
    rw [h.side, hside] at hpolarity
    rw [hside] at hpolarity'
    exact ⟨_, pair_ok_iff.2 (Or.inl ⟨hpolarity, hpolarity', h.single, rfl⟩)⟩
  | false =>
    rw [h.side, hside] at hpolarity
    rw [hside] at hpolarity'
    exact ⟨_, pair_ok_iff.2 (Or.inr ⟨hpolarity, hpolarity', h.single', rfl⟩)⟩

theorem declares_nil : Declares boolean count [] [] := ⟨by simp, [], .nil, by simp⟩

/-- Declarations come to options that are made of them. -/
theorem declares_of_foldlM (hwf : ∀ x ∈ ds, x.2.WellFormed)
    (h : ds.foldlM (declare boolean count) [] = .ok options) : Declares boolean count ds options := by
  rw [← List.nil_append ds]
  exact declares_foldlM hwf declares_nil h

theorem exists_declare {x : Bool × Declaration} (hds : Declares boolean count ds options)
    (h : Declaration.Reconcilable ((ds ++ [x]).map (·.2))) :
    ∃ options', declare boolean count options x = .ok options' := by
  have hsingle : x.2.negated → x.2.recurs = false := h.single x.2 (by simp)
  have hsides : ∀ y ∈ ds, y.2.key = x.2.key → y.2.OtherSide x.2 := by
    have hpairwise := h.sides
    rw [List.map_append, List.pairwise_append] at hpairwise
    exact fun y hy => hpairwise.2.2 y.2 (List.mem_map_of_mem hy) x.2 (by simp)
  by_cases hkey : x.2.key ∈ options.map key
  · obtain ⟨first, hfirst, hfirstKey⟩ := List.mem_map.1 hkey
    obtain ⟨before, after, rfl, hbefore, -⟩ := exists_split_of_nodup_map hds.1 hfirst
    obtain ⟨src, hmade, hsrc⟩ := hds.made hfirst
    have hother : ∀ y ∈ src, y.2.OtherSide x.2 := fun y hy =>
      hsides y (hsrc y hy) ((hmade.key_eq y hy).trans hfirstKey)
    have hpair : ∃ joined, first.pair (ofDeclaration x.2 x.1 boolean count) = .ok joined := by
      cases hmade with
      | @one mandatory d _ =>
        exact exists_pair_of_otherSide (hother (mandatory, d) (by simp)) mandatory x.1
      | @two mandatory mandatory' d d' hboth _ =>
        have hthird := hboth.not_third (hother (mandatory, d) (by simp))
        exact absurd (hother (mandatory', d') (by simp)) hthird
    obtain ⟨joined, hpair⟩ := hpair
    refine ⟨_, declare_ok_iff.2 ⟨hsingle, place_ok_iff.2 (Or.inr
      ⟨before, first, after, joined, rfl, fun hmem => ?_, hfirstKey, hpair, rfl⟩)⟩⟩
    obtain ⟨b, hb, hbKey⟩ := List.mem_map.1 hmem
    exact hbefore b hb (hbKey.trans hfirstKey.symm)
  · exact ⟨_, declare_ok_iff.2 ⟨hsingle, place_ok_iff.2 (Or.inl ⟨hkey, rfl⟩)⟩⟩

/-- **Declarations make options exactly if they can be options together.** -/
theorem exists_foldlM_declare_iff (hwf : ∀ x ∈ ds, x.2.WellFormed) :
    (∃ options, ds.foldlM (declare boolean count) [] = .ok options) ↔
      Declaration.Reconcilable (ds.map (·.2)) := by
  constructor
  · intro ⟨options, h⟩
    exact (declares_of_foldlM hwf h).reconcilable
  · intro h
    -- the last declaration finds what those before it made
    induction ds using List.reverseRecOn with
    | nil => exact ⟨[], rfl⟩
    | append_singleton ds x ih =>
      have hbefore : Declaration.Reconcilable (ds.map (·.2)) := by
        rw [List.map_append] at h
        exact ⟨fun d hd => h.single d (List.mem_append_left _ hd),
          (List.pairwise_append.1 h.sides).1⟩
      have hwf' : ∀ y ∈ ds, y.2.WellFormed := fun y hy => hwf y (List.mem_append_left _ hy)
      obtain ⟨options, hoptions⟩ := ih hwf' hbefore
      obtain ⟨options', hlast⟩ := exists_declare (declares_of_foldlM hwf' hoptions) h
      refine ⟨options', ?_⟩
      rw [List.foldlM_append, hoptions]
      simpa using hlast

/-! ## Options of reordered declarations -/

/-- An option is the same in whichever order its declarations come. -/
theorem MadeOf.eq_of_perm (h : MadeOf boolean count o src) (h' : MadeOf boolean count o' src')
    (hperm : src.Perm src') : o = o' := by
  cases h with
  | one =>
    cases h' with
    | one =>
      obtain ⟨rfl, rfl⟩ := by simpa using hperm
      rfl
    | two => exact absurd hperm.length_eq (by simp)
  | @two mandatory mandatory' d d' hother hside =>
    cases h' with
    | one => exact absurd hperm.length_eq (by simp)
    | @two mandatory₁ mandatory₁' d₁ d₁' hother₁ hside₁ =>
      have hnegated : d'.negated = true := by simpa [hside] using hother.side
      have hnegated₁ : d₁'.negated = true := by simpa [hside₁] using hother₁.side
      -- each is the one of its side
      have hfirst : (mandatory, d) ∈ [(mandatory₁, d₁), (mandatory₁', d₁')] :=
        hperm.mem_iff.1 (by simp)
      have hsecond : (mandatory', d') ∈ [(mandatory₁, d₁), (mandatory₁', d₁')] :=
        hperm.mem_iff.1 (by simp)
      rw [List.mem_pair] at hfirst hsecond
      have hfirst' : (mandatory, d) = (mandatory₁, d₁) := by
        refine hfirst.resolve_right fun heq => ?_
        rw [(Prod.mk.inj heq).2, hnegated₁] at hside
        cases hside
      have hsecond' : (mandatory', d') = (mandatory₁', d₁') := by
        refine hsecond.resolve_left fun heq => ?_
        rw [(Prod.mk.inj heq).2, hside₁] at hnegated
        cases hnegated
      obtain ⟨rfl, rfl⟩ := Prod.mk.inj hfirst'
      obtain ⟨rfl, rfl⟩ := Prod.mk.inj hsecond'
      rfl

theorem Declares.exists_perm (h : Declares boolean count ds options) (ho : o ∈ options) :
    ∃ src, MadeOf boolean count o src ∧ src.Perm (ds.filter (·.2.key = o.key)) := by
  obtain ⟨hkeys, srcs, hsrcs, hperm⟩ := h
  obtain ⟨before, after, rfl, hbefore, hafter⟩ := exists_split_of_nodup_map hkeys ho
  obtain ⟨srcs₁, rest, rfl, hsrcs₁, hrest⟩ := forall₂_append_left hsrcs
  obtain ⟨src, srcs₂, hmade, hsrcs₂, rfl⟩ := List.forall₂_cons_left_iff.1 hrest
  have hnone (others : List OptionSpec) (srcs : List (List (Bool × Declaration)))
      (hothers : ∀ b ∈ others, b.key ≠ o.key)
      (hsrcs : List.Forall₂ (MadeOf boolean count) others srcs) :
      srcs.flatten.filter (·.2.key = o.key) = [] := by
    refine List.filter_eq_nil_iff.2 fun x hx heq => ?_
    obtain ⟨src, hsrc, hx⟩ := List.mem_flatten.1 hx
    obtain ⟨b, hb, hmade⟩ := exists_of_forall₂_right hsrcs hsrc
    exact hothers b hb ((hmade.key_eq x hx).symm.trans (by simpa using heq))
  have hall : src.filter (·.2.key = o.key) = src :=
    List.filter_eq_self.2 fun x hx => by simpa using hmade.key_eq x hx
  refine ⟨src, hmade, ?_⟩
  have hfilter := hperm.filter (·.2.key = o.key)
  rwa [List.flatten_append, List.flatten_cons, List.filter_append, List.filter_append,
    hnone before srcs₁ hbefore hsrcs₁, hnone after srcs₂ hafter hsrcs₂, hall, List.nil_append,
    List.append_nil] at hfilter

/-- **Reordered declarations make the same options.** -/
theorem Declares.perm (h : Declares boolean count ds options)
    (h' : Declares boolean count ds' options') (hperm : ds.Perm ds') : options.Perm options' := by
  have hsubset {ds ds' : List (Bool × Declaration)} {options options' : List OptionSpec}
      (h : Declares boolean count ds options) (h' : Declares boolean count ds' options')
      (hperm : ds.Perm ds') (o : OptionSpec) (ho : o ∈ options) : o ∈ options' := by
    obtain ⟨src, hmade, hsrc⟩ := h.exists_perm ho
    obtain ⟨x, hx⟩ := List.exists_mem_of_ne_nil src hmade.ne_nil
    obtain ⟨hxds, hkey⟩ := List.mem_filter.1 (hsrc.mem_iff.1 hx)
    obtain ⟨o', ho', _, hmade', hx'⟩ := h'.placed (hperm.mem_iff.1 hxds)
    obtain ⟨src', hmade'', hsrc'⟩ := h'.exists_perm ho'
    have hkeys : o.key = o'.key := (hmade.key_eq x hx).symm.trans (hmade'.key_eq x hx')
    rw [← hkeys] at hsrc'
    rwa [hmade.eq_of_perm hmade'' (hsrc.trans ((hperm.filter _).trans hsrc'.symm))]
  refine (List.perm_ext_iff_of_nodup (List.Nodup.of_map _ h.1) (List.Nodup.of_map _ h'.1)).2
    fun o => ⟨hsubset h h' hperm o, hsubset h' h hperm.symm o⟩

theorem find?_key_perm (hkeys : (options.map key).Nodup) (hperm : options.Perm options')
    (k : String) : options.find? (·.key = k) = options'.find? (·.key = k) := by
  have hkeys' : (options'.map key).Nodup := (hperm.map _).nodup_iff.1 hkeys
  have hfound {options : List OptionSpec} (hkeys : (options.map key).Nodup) (o : OptionSpec) :
      options.find? (·.key = k) = some o ↔ o ∈ options ∧ o.key = k := by
    constructor
    · intro hfind
      exact ⟨List.mem_of_find?_eq_some hfind, by simpa using List.find?_some hfind⟩
    · rintro ⟨ho, rfl⟩
      obtain ⟨before, after, rfl, hbefore, -⟩ := exists_split_of_nodup_map hkeys ho
      rw [List.find?_append, List.find?_eq_none.2 (by simpa using hbefore)]
      simp
  ext o
  rw [hfound hkeys, hfound hkeys', hperm.mem_iff]

/-! ## Reconciling -/

/-- Declarations on a registry come to options with a table of their spellings, and leave a
registry. -/
structure ComesTo (mandatory optional : List Declaration) (r : Registry)
    (options : List OptionSpec) (table : SwitchTable) (r' : Registry) : Prop where
  reconciled : reconcile mandatory optional r = .ok options r'
  tabled : SwitchTable.build options = .ok table

section ComesTo

variable {mandatory mandatory' optional optional' : List Declaration} {r r' r'' : Registry}
  {table table' : SwitchTable}

theorem declared_perm (hmandatory : mandatory.Perm mandatory') (hoptional : optional.Perm optional') :
    (declared mandatory optional).Perm (declared mandatory' optional') :=
  (hmandatory.map _).append (hoptional.map _)

theorem wellFormed_perm (hwf : ∀ d ∈ mandatory ++ optional, d.WellFormed)
    (hmandatory : mandatory.Perm mandatory') (hoptional : optional.Perm optional') :
    ∀ d ∈ mandatory' ++ optional', d.WellFormed :=
  fun d hd => hwf d ((hmandatory.append hoptional).mem_iff.2 hd)

theorem ComesTo.reordered (hwf : ∀ d ∈ mandatory ++ optional, d.WellFormed)
    (hmandatory : mandatory.Perm mandatory') (hoptional : optional.Perm optional')
    (h : ComesTo mandatory optional r options table r') :
    ∃ options', options.Perm options' ∧ (options.map key).Nodup ∧
      ComesTo mandatory' optional' r options' table r' := by
  obtain ⟨boolean, count, r₁, hboolean, hcount, hoptions⟩ := reconcile_ok_iff.1 h.reconciled
  have hperm := declared_perm hmandatory hoptional
  have hwf' := wellFormed_perm hwf hmandatory hoptional
  have hdeclares := declares_of_ofDeclarations hwf hoptions
  have hreconcilable := hdeclares.reconcilable.perm (hperm.map _)
  obtain ⟨options', hoptions'⟩ : ∃ options',
      (declared mandatory' optional').foldlM (declare boolean count) [] = .ok options' :=
    (exists_foldlM_declare_iff (forall_mem_declared hwf')).2 hreconcilable
  have hsame := hdeclares.perm (declares_of_ofDeclarations hwf' hoptions') hperm
  exact ⟨options', hsame, hdeclares.1,
    reconcile_ok_iff.2 ⟨boolean, count, r₁, hboolean, hcount, hoptions'⟩,
    SwitchTable.build_perm hdeclares.1 hsame h.tabled⟩

theorem ComesTo.unique {options' : List OptionSpec}
    (h : ComesTo mandatory optional r options table r')
    (h' : ComesTo mandatory optional r options' table' r'') :
    options = options' ∧ table = table' ∧ r' = r'' := by
  obtain ⟨rfl, rfl⟩ := EStateM.Result.ok.inj (h.reconciled.symm.trans h'.reconciled)
  exact ⟨rfl, Except.ok.inj (h.tabled.symm.trans h'.tabled), rfl⟩

/-- **The order of declarations does not matter.** Declarations as groups of spellings make them
come to options with a table exactly if they do in another order of the mandatory ones and of the
optional ones. The table is then the same, and so is the option of every key; only the order of the
options differs. -/
theorem comesTo_reordered (hwf : ∀ d ∈ mandatory ++ optional, d.WellFormed)
    (hmandatory : mandatory.Perm mandatory') (hoptional : optional.Perm optional') :
    ((∃ options table r', ComesTo mandatory optional r options table r') ↔
      ∃ options table r', ComesTo mandatory' optional' r options table r') ∧
    ∀ options table r' options' table' r'', ComesTo mandatory optional r options table r' →
      ComesTo mandatory' optional' r options' table' r'' →
        table = table' ∧ r' = r'' ∧ options.Perm options' ∧
          ∀ k, options.find? (·.key = k) = options'.find? (·.key = k) := by
  refine ⟨⟨?_, ?_⟩, ?_⟩
  · rintro ⟨options, table, r', h⟩
    obtain ⟨options', -, -, h'⟩ := h.reordered hwf hmandatory hoptional
    exact ⟨options', table, r', h'⟩
  · rintro ⟨options', table, r', h'⟩
    obtain ⟨options, -, -, h⟩ := h'.reordered (wellFormed_perm hwf hmandatory hoptional)
      hmandatory.symm hoptional.symm
    exact ⟨options, table, r', h⟩
  · intro options table r' options' table' r'' h h'
    obtain ⟨options₁, hperm, hkeys, h₁⟩ := h.reordered hwf hmandatory hoptional
    obtain ⟨rfl, rfl, rfl⟩ := h₁.unique h'
    exact ⟨rfl, rfl, hperm, find?_key_perm hkeys hperm⟩

/-- A switch whose sides are declared apart, read and declared from the end. -/
theorem comesTo_sidesReversed :
    ∃ outline r options options' table r',
      Outline.read "--n=INT (--out|-o=STR) [--x] [-v]... [--no-x|-q]" Registry.standard =
        .ok outline r ∧
      options.map key = ["n", "out", "x", "v"] ∧ options.Perm options' ∧
      ComesTo outline.mandatory outline.optional r options table r' ∧
      ComesTo outline.mandatory.reverse outline.optional.reverse r options' table r' := by
  obtain ⟨u, r₂, hcompile, hkeys⟩ :=
    exists_of_succeedsWith
      (Usage.compile "--n=INT (--out|-o=STR) [--x] [-v]... [--no-x|-q]" Registry.standard)
      (fun u _ => u.options.map key = ["n", "out", "x", "v"]) (by decide +kernel)
  obtain ⟨outline, r, options, r', layout, table, hread, hoptions, -, htable, rfl⟩ :=
    Usage.compile_ok_iff.1 hcompile
  have hwf := (Outline.sound_of_read
    (Registry.reachable_standard.sound (Q := fun _ => True) fun _ _ _ _ _ => trivial) hread).1
  obtain ⟨hsuccess, hsame⟩ := comesTo_reordered (r := r) hwf
    (List.reverse_perm outline.mandatory).symm (List.reverse_perm outline.optional).symm
  have hcomes : ComesTo outline.mandatory outline.optional r options table r' := ⟨hoptions, htable⟩
  obtain ⟨options', table', r'', hcomes'⟩ := hsuccess.1 ⟨options, table, r', hcomes⟩
  obtain ⟨rfl, rfl, hperm, -⟩ := hsame _ _ _ _ _ _ hcomes hcomes'
  exact ⟨outline, r, options, options', table, r', hread, by simpa using hkeys, hperm, hcomes,
    hcomes'⟩

end ComesTo

end OptionSpec

end Synopsis
