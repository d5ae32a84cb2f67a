import Synopsis.Proofs.Regroupings
import Synopsis.Proofs.Rereadings

/-!
# Declaring the options of a usage again

The mandatory options of a usage come first (`mandatoryFirst_of_ofDeclarations`), so reading the
described options declares them in the order they stand in. Options have different keys, so what
one of them declares is placed after those before it, and each comes to what it comes to alone
(`foldlM_regrouped`). Where each option comes back alone, all of them come back without their notes
(`ofDeclarations_regrouped`).

For the converse, options of one table share no spelling, so an option that comes back is made of
declarations of its own group, and a group that declares both sides of a switch is that of a
separate one (`separate_of_ofDeclarations`).
-/

namespace Synopsis

namespace OptionSpec

variable {boolean count : ValueType} {o : OptionSpec} {options options' before : List OptionSpec}

/-! ## Mandatory options come first -/

/-- No mandatory option stands after one that is not. -/
def MandatoryFirst (options : List OptionSpec) : Prop :=
  options.Pairwise fun o o' => o'.mandatory → o.mandatory

theorem mandatory_of_pair {first second joined : OptionSpec}
    (h : first.pair second = .ok joined) :
    joined.mandatory = (first.mandatory || second.mandatory) := by
  rcases pair_ok_iff.1 h with ⟨-, -, -, rfl⟩ | ⟨-, -, -, rfl⟩
  · rfl
  · exact Bool.or_comm _ _

/-- Placing an option that is not mandatory makes no other one mandatory. -/
theorem mandatoryFirst_of_place (ho : o.mandatory = false) (hoptions : MandatoryFirst options)
    (h : o.place options = .ok options') : MandatoryFirst options' := by
  rcases place_ok_iff.1 h with ⟨-, rfl⟩ | ⟨before, first, after, joined, rfl, -, -, hpair, rfl⟩
  · refine List.pairwise_append.2 ⟨hoptions, List.pairwise_singleton _ _, fun x _ y hy => ?_⟩
    simp [List.mem_singleton.1 hy, ho]
  · have hjoined : joined.mandatory = first.mandatory := by
      rw [mandatory_of_pair hpair, ho, Bool.or_false]
    unfold MandatoryFirst at hoptions ⊢
    rw [List.pairwise_append, List.pairwise_cons] at hoptions ⊢
    simpa [hjoined] using hoptions

theorem mandatory_of_place (ho : o.mandatory) (hoptions : ∀ x ∈ options, x.mandatory)
    (h : o.place options = .ok options') : ∀ x ∈ options', x.mandatory := by
  rcases place_ok_iff.1 h with ⟨-, rfl⟩ | ⟨before, first, after, joined, rfl, -, -, hpair, rfl⟩
  · simpa [ho, or_imp, forall_and] using hoptions
  · have hjoined : joined.mandatory := by rw [mandatory_of_pair hpair, ho, Bool.or_true]
    simp_all [or_imp, forall_and]

/-- What every declaration keeps holds of the options in the end. -/
theorem of_foldlM_declare {P : List OptionSpec → Prop} {xs : List (Bool × Declaration)}
    (hstep : ∀ x ∈ xs, ∀ options options', P options → declare boolean count options x = .ok options' →
      P options') (hoptions : P options) (h : xs.foldlM (declare boolean count) options = .ok options') :
    P options' := by
  induction xs generalizing options with
  | nil =>
    obtain rfl := by simpa using h
    exact hoptions
  | cons x xs ih =>
    rw [List.foldlM_cons, failing_bind_ok_iff] at h
    obtain ⟨options₁, hx, hrest⟩ := h
    rw [List.forall_mem_cons] at hstep
    exact ih hstep.2 (hstep.1 _ _ hoptions hx) hrest

/-- **The mandatory options of a text come first.** -/
theorem mandatoryFirst_of_ofDeclarations {mandatory optional : List Declaration}
    (h : ofDeclarations mandatory optional boolean count = .ok options) :
    MandatoryFirst options := by
  rw [ofDeclarations, List.foldlM_append, failing_bind_ok_iff] at h
  obtain ⟨options₁, hmandatory, hoptional⟩ := h
  have hall : ∀ o ∈ options₁, o.mandatory := by
    refine of_foldlM_declare (P := fun options => ∀ o ∈ options, o.mandatory) ?_ (by simp) hmandatory
    intro x hx options options' hoptions hdeclare
    obtain ⟨d, -, rfl⟩ := List.mem_map.1 hx
    exact mandatory_of_place rfl hoptions (declare_ok_iff.1 hdeclare).2
  have hfirst : MandatoryFirst options₁ :=
    List.pairwise_of_forall_mem_list fun o ho _ _ _ => hall o ho
  refine of_foldlM_declare ?_ hfirst hoptional
  intro x hx options options' hoptions hdeclare
  obtain ⟨d, -, rfl⟩ := List.mem_map.1 hx
  exact mandatoryFirst_of_place rfl hoptions (declare_ok_iff.1 hdeclare).2

theorem filter_append_filter (h : MandatoryFirst options) :
    options.filter mandatory ++ options.filter (!·.mandatory) = options := by
  induction options with
  | nil => rfl
  | cons o options ih =>
    obtain ⟨hfirst, hrest⟩ := List.pairwise_cons.1 h
    cases ho : o.mandatory with
    | true => simpa [ho] using ih hrest
    | false =>
      have hnone : ∀ o' ∈ options, o'.mandatory = false := by
        intro o' ho'
        by_contra hmandatory
        simp [hfirst o' ho' (by simpa using hmandatory)] at ho
      have hfilter : options.filter mandatory = [] := by
        simpa [List.filter_eq_nil_iff] using hnone
      have hfilter' : options.filter (!·.mandatory) = options := by
        simpa [List.filter_eq_self] using hnone
      simp [ho, hfilter, hfilter']

/-! ## Options are placed apart -/

theorem place_append (hkey : o.key ∉ before.map key) (h : o.place options = .ok options') :
    o.place (before ++ options) = .ok (before ++ options') := by
  induction before with
  | nil => exact h
  | cons first before ih =>
    rw [List.map_cons, List.mem_cons, not_or] at hkey
    rw [List.cons_append, place, if_neg (Ne.symm hkey.1), ih hkey.2]
    rfl

theorem foldlM_declare_append {xs : List (Bool × Declaration)}
    (hkeys : ∀ x ∈ xs, x.2.key ∉ before.map key)
    (h : xs.foldlM (declare boolean count) options = .ok options') :
    xs.foldlM (declare boolean count) (before ++ options) = .ok (before ++ options') := by
  induction xs generalizing options with
  | nil =>
    obtain rfl := by simpa using h
    rfl
  | cons x xs ih =>
    rw [List.forall_mem_cons] at hkeys
    rw [List.foldlM_cons, failing_bind_ok_iff] at h ⊢
    obtain ⟨options₁, hx, hrest⟩ := h
    obtain ⟨hrecurs, hplace⟩ := declare_ok_iff.1 hx
    exact ⟨_, declare_ok_iff.2 ⟨hrecurs, place_append hkeys.1 hplace⟩, ih hkeys.2 hrest⟩

/-- **Described options come to what each comes to alone.** -/
theorem foldlM_regrouped {made : OptionSpec → OptionSpec} (hmade : ∀ o, (made o).key = o.key)
    (hkeys : ((before ++ options).map key).Nodup)
    (h : ∀ o ∈ options, Rebuilds boolean count o (made o)) :
    (options.flatMap fun o => o.regrouped.map (o.mandatory, ·)).foldlM (declare boolean count)
      before = .ok (before ++ options.map made) := by
  induction options generalizing before with
  | nil => simp [pure, Except.pure]
  | cons o options ih =>
    rw [List.forall_mem_cons] at h
    have hnew : o.key ∉ before.map key := by
      rw [List.map_append, List.map_cons, List.nodup_append] at hkeys
      intro hmem
      exact hkeys.2.2 _ hmem _ (by simp) rfl
    have hnews : ∀ x ∈ o.regrouped.map (o.mandatory, ·), x.2.key ∉ before.map key := by
      intro x hx
      obtain ⟨d, hd, rfl⟩ := List.mem_map.1 hx
      rwa [h.1.key d hd]
    have hone := foldlM_declare_append hnews h.1.made
    rw [List.append_nil] at hone
    have hrest := @ih (before ++ [made o]) (by simpa [hmade] using hkeys) h.2
    rw [List.append_assoc] at hrest
    rw [List.flatMap_cons, List.foldlM_append, hone]
    exact hrest

/-- **The options of a usage come back without their notes**, where each does. -/
theorem ofDeclarations_regrouped (hkeys : (options.map key).Nodup) (hfirst : MandatoryFirst options)
    (h : ∀ o ∈ options, Rebuilds boolean count o o.bare) :
    ofDeclarations ((options.filter mandatory).flatMap regrouped)
      ((options.filter (!·.mandatory)).flatMap regrouped) boolean count =
        .ok (options.map bare) := by
  have hsplit : (options.flatMap fun o => o.regrouped.map (o.mandatory, ·)) =
      ((options.filter mandatory).flatMap regrouped).map (true, ·) ++
        ((options.filter (!·.mandatory)).flatMap regrouped).map (false, ·) := by
    conv_lhs => rw [← filter_append_filter hfirst]
    rw [List.flatMap_append, List.map_flatMap, List.map_flatMap]
    congr 1
    · refine List.flatMap_congr fun o ho => ?_
      rw [(List.mem_filter.1 ho).2]
    · refine List.flatMap_congr fun o ho => ?_
      rw [show o.mandatory = false by simpa using (List.mem_filter.1 ho).2]
  rw [ofDeclarations, ← hsplit]
  exact foldlM_regrouped (fun _ => rfl) hkeys h

/-- Further declarations that are not mandatory are placed after the others. -/
theorem ofDeclarations_append {mandatory optional more : List Declaration}
    (h : ofDeclarations mandatory optional boolean count = .ok options) :
    ofDeclarations mandatory (optional ++ more) boolean count =
      (more.map (false, ·)).foldlM (declare boolean count) options := by
  unfold ofDeclarations at h ⊢
  rw [List.map_append, ← List.append_assoc, List.foldlM_append, h]
  rfl

/-! ## Options of a text -/

section Made

variable {src : List (Bool × Declaration)} {r : Registry}

theorem MadeOf.of_mem_allSpellings (h : MadeOf boolean count o src) {spelling : String}
    (hs : spelling ∈ o.allSpellings) : ∃ x ∈ src, spelling ∈ x.2.spellings := by
  cases h with
  | @one mandatory d _ =>
    rw [allSpellings_ofDeclaration] at hs
    exact ⟨_, List.mem_singleton_self _, hs⟩
  | @two mandatory mandatory' d d' hother hside =>
    have hside' : d'.negated = true := by simpa [hside] using hother.side
    simp only [allSpellings, join, ofDeclaration, hside, hside', List.mem_append] at hs
    rcases hs with (hs | hs) | hs
    · exact ⟨(mandatory, d), by simp, hs⟩
    · simp at hs
    · exact ⟨(mandatory', d'), by simp, hs⟩

theorem MadeOf.taken_eq (h : MadeOf boolean count o src) :
    ∃ x ∈ src, o.taken = x.2.value ∧ o.metavar = x.2.metavar := by
  cases h with
  | @one mandatory d _ =>
    exact ⟨_, List.mem_singleton_self _, taken_ofDeclaration d mandatory, rfl⟩
  | @two mandatory mandatory' d d' _ _ =>
    exact ⟨(mandatory, d), by simp, taken_ofDeclaration d mandatory, rfl⟩

theorem MadeOf.describable (h : MadeOf boolean count o src) (hwf : ∀ x ∈ src, x.2.WellFormed)
    (hreads : ∀ x ∈ src, x.2.ReadsOn r) : o.Describable r := by
  refine ⟨⟨?_, fun spelling hs => ?_⟩, fun numbered => ?_⟩
  · obtain ⟨x, hx⟩ := List.exists_mem_of_ne_nil src h.ne_nil
    obtain ⟨longs, short, hwritten⟩ := hwf x hx
    obtain ⟨spelling, hhead, -⟩ := hwritten.key
    have hmem := h.mem_allSpellings hx (List.mem_of_mem_head? hhead)
    exact List.ne_nil_of_mem (List.mem_eraseDups.2 hmem)
  · obtain ⟨x, hx, hmem⟩ := h.of_mem_allSpellings (List.mem_eraseDups.1 hs)
    obtain ⟨longs, short, hwritten⟩ := hwf x hx
    rw [hwritten.spellings] at hmem
    rcases List.mem_append.1 hmem with hlong | hshort
    · exact Or.inl (hwritten.longs_valid spelling hlong).1
    · exact Or.inr (hwritten.short_valid spelling (by simpa using hshort))
  · obtain ⟨x, hx, htaken, hmetavar⟩ := h.taken_eq
    rw [htaken, hmetavar]
    exact hreads x hx numbered

/-- **An option of a text comes back** where it is separate. -/
theorem MadeOf.rebuilds (h : MadeOf boolean count o src) (hwf : ∀ x ∈ src, x.2.WellFormed)
    (hreads : ∀ x ∈ src, x.2.ReadsOn r) (hseparate : o.Separate) :
    o.shared.Admits o.written ∧ Rebuilds boolean count o o.bare := by
  have hmetavar {x : Bool × Declaration} (hx : x ∈ src) (hflag : x.2.value.isFlag) :
      x.2.metavar = none := by
    have hread := hreads x hx []
    rw [TakenValue.eq_flag hflag] at hread
    generalize x.2.metavar = metavar at hread
    cases hread
    rfl
  cases h with
  | @one mandatory d hrecurs =>
    exact rebuilds_one (hwf (mandatory, d) (by simp)) mandatory hrecurs
  | @two mandatory mandatory' d d' hother hside =>
    refine rebuilds_two (hwf (mandatory, d) (by simp)) (hwf (mandatory', d') (by simp)) hother hside
      ?_ rfl hseparate
    have hd := hmetavar (x := (mandatory, d)) (by simp) hother.flag
    have hd' := hmetavar (x := (mandatory', d')) (by simp) hother.flag'
    exact hd'.trans hd.symm

theorem MadeOf.key_of_regrouped (h : MadeOf boolean count o src)
    (hwf : ∀ x ∈ src, x.2.WellFormed) : ∀ d ∈ o.regrouped, d.key = o.key := by
  cases h with
  | @one mandatory d hrecurs =>
    exact (rebuilds_one (hwf (mandatory, d) (by simp)) mandatory hrecurs).2.key
  | @two mandatory mandatory' d d' hother hside =>
    have hside' : d'.negated = true := by simpa [hside] using hother.side
    have hd : d.WellFormed := hwf (mandatory, d) (by simp)
    have hd' : d'.WellFormed := hwf (mandatory', d') (by simp)
    obtain ⟨longs, short, hwritten⟩ := hd
    obtain ⟨longs', short', hwritten'⟩ := hd'
    obtain ⟨text, rfl⟩ := List.length_eq_one_iff.1 (hwritten'.negated hside').1
    have htext : (optionKey text).2 = true :=
      (hwritten'.longs_valid text (by simp)).2.trans hside'
    have hsides : ∀ long ∈ longs, (optionKey long).2 = false :=
      fun long hlong => (hwritten.longs_valid long hlong).2.trans hside
    have hnodup : (longs ++ [text]).Nodup := by
      have hlongs := hwritten.filter_long ▸ hwritten.distinct.filter startsLong
      refine List.nodup_append.2 ⟨hlongs, List.nodup_singleton text, ?_⟩
      rintro long hlong _ hmem rfl
      rw [List.mem_singleton.1 hmem] at hlong
      simp [hsides text hlong] at htext
    generalize ho : join (ofDeclaration d mandatory boolean count)
      (ofDeclaration d' mandatory' boolean count) = o
    have hkey : o.key = d.key := by
      rw [← ho]
      rfl
    have hlongs : o.written.filter startsLong = longs ++ [text] := by
      rw [filter_long_written hwritten hwritten', eraseDups_of_nodup hnodup] <;>
        simp [← ho, join, ofDeclaration, hside, hside']
    have htext' : (optionKey text).1 = o.key := by
      rw [hkey, hother.key, hwritten'.key_eq rfl]
    rw [regrouped]
    cases longs with
    | nil =>
      rw [Shared.declares_of_cons hlongs rfl (Shared.addLong_negative htext []),
        List.forall_mem_singleton, Declaration.key_withShort]
      exact htext'
    | cons first longs =>
      rw [List.forall_mem_cons] at hsides
      rw [Shared.declares_of_cons hlongs rfl (Shared.foldl_addLong_sides hsides.1 hsides.2 htext),
        List.forall_mem_cons, List.forall_mem_singleton]
      refine ⟨?_, htext'⟩
      rw [Declaration.key_withShort, hkey, hwritten.key_eq rfl]
      rfl

theorem MadeOf.sides (h : MadeOf boolean count o src) (hboth : o.polarity = some .both) :
    ∃ x ∈ src, ∃ y ∈ src, x.2.negated = false ∧ y.2.negated = true ∧
      o.spellings = x.2.spellings ∧ o.negatives = y.2.spellings := by
  cases h with
  | @one mandatory d _ =>
    rw [polarity_ofDeclaration] at hboth
    split at hboth
    · cases hboth
    · split at hboth <;> cases hboth
  | @two mandatory mandatory' d d' hother hside =>
    have hside' : d'.negated = true := by simpa [hside] using hother.side
    refine ⟨(mandatory, d), by simp, (mandatory', d'), by simp, hside, hside', ?_, ?_⟩ <;>
      simp [join, ofDeclaration, hside, hside']

end Made

/-- What described options come to is made of what they declare. -/
theorem made_of_regrouped (hvalid : ∀ o ∈ options, ∀ spelling ∈ o.written, IsSpelling spelling)
    (hadmits : ∀ o ∈ options, o.shared.Admits o.written)
    (h : ofDeclarations ((options.filter mandatory).flatMap regrouped)
      ((options.filter (!·.mandatory)).flatMap regrouped) boolean count = .ok options') :
    (options'.map key).Nodup ∧ ∀ o' ∈ options', ∃ src, MadeOf boolean count o' src ∧
      ∀ x ∈ src, x.2.WellFormed ∧ ∃ o ∈ options, x.2 ∈ o.regrouped := by
  have hregrouped : ∀ d ∈ (options.filter mandatory).flatMap regrouped ++
      (options.filter (!·.mandatory)).flatMap regrouped,
      d.WellFormed ∧ ∃ o ∈ options, d ∈ o.regrouped := by
    intro d hd
    simp only [List.mem_append, List.mem_flatMap, List.mem_filter] at hd
    rcases hd with ⟨o, ⟨ho, -⟩, hd⟩ | ⟨o, ⟨ho, -⟩, hd⟩ <;>
      exact ⟨(Shared.wellFormed_of_declares (hvalid o ho) (hadmits o ho) d hd).2, o, ho, hd⟩
  have hdeclares := declares_of_ofDeclarations (fun d hd => (hregrouped d hd).1) h
  refine ⟨hdeclares.1, fun o' ho' => ?_⟩
  obtain ⟨src, hmade, hsrc⟩ := hdeclares.made ho'
  exact ⟨src, hmade, fun x hx => forall_mem_declared hregrouped x (hsrc x hx)⟩

/-- **Options that come back are separate.** -/
theorem separate_of_ofDeclarations {table : SwitchTable}
    (htable : SwitchTable.build options = .ok table) (hkeys : (options.map key).Nodup)
    (hvalid : ∀ o ∈ options, ∀ spelling ∈ o.written, IsSpelling spelling)
    (hadmits : ∀ o ∈ options, o.shared.Admits o.written)
    (h : ofDeclarations ((options.filter mandatory).flatMap regrouped)
      ((options.filter (!·.mandatory)).flatMap regrouped) boolean count =
        .ok (options.map bare)) : ∀ o ∈ options, o.Separate := by
  obtain ⟨-, hmade⟩ := made_of_regrouped hvalid hadmits h
  intro o ho hboth
  obtain ⟨src, hmade, hsrc⟩ := hmade o.bare (List.mem_map_of_mem ho)
  -- a declaration that the option was made of is one of its own group
  have hown : ∀ x ∈ src, x.2 ∈ o.regrouped := by
    intro x hx
    obtain ⟨⟨longs, short, hwritten⟩, o', ho', hmem⟩ := hsrc x hx
    obtain ⟨spelling, hhead, -⟩ := hwritten.key
    have hspelling := List.mem_of_mem_head? hhead
    have hleft : spelling ∈ o.allSpellings := hmade.mem_allSpellings hx hspelling
    have hright : spelling ∈ o'.written :=
      Shared.mem_of_declares (hvalid o' ho') (hadmits o' ho') x.2 hmem spelling hspelling
    have hkey := SwitchTable.key_eq_of_build htable ho ho' hleft (List.mem_eraseDups.1 hright)
    rwa [List.inj_on_of_nodup_map hkeys ho ho' hkey]
  obtain ⟨x, hx, y, hy, hside, hside', hs, hs'⟩ := hmade.sides hboth
  exact separate_of_regrouped (hvalid o ho) (hadmits o ho) (hown x hx) (hown y hy) hside hside'
    hs hs' hboth

/-- What described options come to has their keys and their spellings, where whatever an option
declares has its key. -/
theorem sources_of_ofDeclarations
    (hvalid : ∀ o ∈ options, ∀ spelling ∈ o.written, IsSpelling spelling)
    (hadmits : ∀ o ∈ options, o.shared.Admits o.written)
    (hown : ∀ o ∈ options, ∀ d ∈ o.regrouped, d.key = o.key)
    (h : ofDeclarations ((options.filter mandatory).flatMap regrouped)
      ((options.filter (!·.mandatory)).flatMap regrouped) boolean count = .ok options') :
    (options'.map key).Nodup ∧ ∀ o' ∈ options', o'.key ∈ options.map key ∧
      ∀ spelling ∈ o'.allSpellings, ∃ o ∈ options, spelling ∈ o.allSpellings := by
  obtain ⟨hkeys, hmade⟩ := made_of_regrouped hvalid hadmits h
  refine ⟨hkeys, fun o' ho' => ?_⟩
  obtain ⟨src, hmade, hsrc⟩ := hmade o' ho'
  constructor
  · obtain ⟨x, hx⟩ := List.exists_mem_of_ne_nil src hmade.ne_nil
    obtain ⟨-, o, ho, hd⟩ := hsrc x hx
    rw [← hmade.key_eq x hx, hown o ho x.2 hd]
    exact List.mem_map_of_mem ho
  · intro spelling hs
    obtain ⟨x, hx, hmem⟩ := hmade.of_mem_allSpellings hs
    obtain ⟨-, o, ho, hd⟩ := hsrc x hx
    have hwritten := Shared.mem_of_declares (hvalid o ho) (hadmits o ho) x.2 hd spelling hmem
    exact ⟨o, ho, List.mem_eraseDups.1 hwritten⟩

end OptionSpec

end Synopsis
