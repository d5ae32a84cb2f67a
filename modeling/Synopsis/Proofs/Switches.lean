import Synopsis.Proofs.Compiled
import Synopsis.Registry.Standard

/-!
# What a spelling means

**A spelling belongs to one option and one of its sides** (`Usage.switches_of_compile`), unless it is
a short one that both sides of a switch list. The table only compares keys, so it does not refuse
such a one, and the claim of the negated side replaces the other.

The table is built by claims, the last of which holds, and all claims of a spelling are for one
key. Keys are distinct, so they are claims of one option; and what the sides of an option may share
is told by the declarations it is made of.
-/

namespace Synopsis

namespace SwitchTable

theorem claim_ok_iff {table table' : SwitchTable} {entry : String × Switch} :
    table.claim entry = .ok table' ↔
      (∀ held, table.get? entry.1 = some held → held.key = entry.2.key) ∧
        table' = table.insert entry.1 entry.2 := by
  obtain ⟨spelling, switch⟩ := entry
  unfold claim
  cases hheld : table.get? spelling with
  | none => simp [hheld, @eq_comm _ table']
  | some held =>
    by_cases hkey : held.key = switch.key <;> simp [hheld, hkey, @eq_comm _ table']

/-- The last claim of a spelling holds, and all its claims are for one key. -/
theorem claims_of_foldlM {entries : List (String × Switch)} {table table' : SwitchTable}
    (h : entries.foldlM claim table = .ok table') :
    (∀ spelling, table'.get? spelling =
        ((entries.filter (·.1 = spelling)).getLast?.map (·.2)).or (table.get? spelling)) ∧
      (∀ entry ∈ entries, ∀ held, table.get? entry.1 = some held → held.key = entry.2.key) ∧
      ∀ entry ∈ entries, ∀ entry' ∈ entries, entry.1 = entry'.1 → entry.2.key = entry'.2.key := by
  induction entries generalizing table with
  | nil =>
    obtain rfl := by simpa using h
    exact ⟨fun _ => rfl, by simp, by simp⟩
  | cons entry entries ih =>
    rw [List.foldlM_cons, failing_bind_ok_iff] at h
    obtain ⟨table₁, hclaim, hrest⟩ := h
    obtain ⟨hheld, rfl⟩ := claim_ok_iff.1 hclaim
    obtain ⟨hget, hlater, hall⟩ := ih hrest
    -- the entry is what the later ones of its spelling find
    have hsame (later : String × Switch) (hmem : later ∈ entries) (heq : entry.1 = later.1) :
        entry.2.key = later.2.key := by
      apply hlater later hmem
      rw [Dict.get?_insert, if_pos heq]
    refine ⟨fun spelling => ?_, ?_, ?_⟩
    · rw [hget, Dict.get?_insert]
      by_cases heq : entry.1 = spelling
      · rw [if_pos heq, List.filter_cons_of_pos (by simpa using heq), List.getLast?_cons]
        cases (entries.filter (·.1 = spelling)).getLast? <;> rfl
      · rw [if_neg heq, List.filter_cons_of_neg (by simpa using heq)]
    · intro later hmem held hfound
      rcases List.mem_cons.1 hmem with rfl | hmem
      · exact hheld held hfound
      · by_cases heq : entry.1 = later.1
        · rw [← hsame later hmem heq]
          exact hheld held (heq ▸ hfound)
        · apply hlater later hmem
          rw [Dict.get?_insert, if_neg heq, hfound]
    · intro x hx y hy heq
      rcases List.mem_cons.1 hx with rfl | hx' <;> rcases List.mem_cons.1 hy with rfl | hy'
      · rfl
      · exact hsame y hy' heq
      · exact (hsame x hx' heq.symm).symm
      · exact hall x hx' y hy' heq

end SwitchTable

namespace OptionSpec

variable {o : OptionSpec} {spelling : String} {switch : Switch}

theorem mem_switches : (spelling, switch) ∈ o.switches ↔
    spelling ∈ o.spellings ∧
        switch = ⟨o.key, o.arity, if o.arity = .required then none else some true⟩ ∨
      spelling ∈ o.negatives ∧ switch = ⟨o.key, .none, some false⟩ := by
  simp [switches, @eq_comm _ switch]

theorem key_of_mem_switches (h : (spelling, switch) ∈ o.switches) : switch.key = o.key := by
  rcases mem_switches.1 h with ⟨-, rfl⟩ | ⟨-, rfl⟩ <;> rfl

theorem mem_allSpellings_of_mem_switches (h : (spelling, switch) ∈ o.switches) :
    spelling ∈ o.allSpellings := by
  rcases mem_switches.1 h with ⟨hmem, -⟩ | ⟨hmem, -⟩
  · exact List.mem_append_left _ hmem
  · exact List.mem_append_right _ hmem

theorem exists_mem_switches (h : spelling ∈ o.allSpellings) :
    ∃ switch, (spelling, switch) ∈ o.switches := by
  rcases List.mem_append.1 h with h | h
  · exact ⟨_, mem_switches.2 (Or.inl ⟨h, rfl⟩)⟩
  · exact ⟨_, mem_switches.2 (Or.inr ⟨h, rfl⟩)⟩

theorem getLast?_filter_eq (spellings : List String) (spelling : String) :
    (spellings.filter (· = spelling)).getLast? =
      if spelling ∈ spellings then some spelling else none := by
  rw [List.filter_eq, List.getLast?_replicate]
  by_cases hmem : spelling ∈ spellings
  · rw [if_pos hmem, if_neg fun hzero => List.count_eq_zero.1 hzero hmem]
  · rw [if_neg hmem, if_pos (List.count_eq_zero.2 hmem)]

/-- What an option itself claims for a spelling last: its negated side, if that lists it. -/
theorem getLast?_switches (h : spelling ∈ o.allSpellings) :
    (o.switches.filter (·.1 = spelling)).getLast?.map (·.2) =
      some (if spelling ∈ o.negatives then ⟨o.key, .none, some false⟩
        else ⟨o.key, o.arity, if o.arity = .required then none else some true⟩) := by
  simp only [switches, List.filter_append, List.filter_map, Function.comp_def, List.getLast?_append,
    List.getLast?_map, getLast?_filter_eq]
  by_cases hnegated : spelling ∈ o.negatives
  · simp [hnegated]
  · have hmem : spelling ∈ o.spellings := (List.mem_append.1 h).resolve_right hnegated
    simp [hnegated, hmem]

end OptionSpec

namespace SwitchTable

open OptionSpec

variable {options : List OptionSpec} {table : SwitchTable} {spelling : String}

theorem key_eq_of_build (h : build options = .ok table) {o o' : OptionSpec} (ho : o ∈ options)
    (ho' : o' ∈ options) (hs : spelling ∈ o.allSpellings) (hs' : spelling ∈ o'.allSpellings) :
    o.key = o'.key := by
  obtain ⟨-, -, hall⟩ := claims_of_foldlM h
  obtain ⟨switch, hmem⟩ := exists_mem_switches hs
  obtain ⟨switch', hmem'⟩ := exists_mem_switches hs'
  rw [← key_of_mem_switches hmem, ← key_of_mem_switches hmem']
  apply hall _ (List.mem_flatMap.2 ⟨o, ho, hmem⟩) _ (List.mem_flatMap.2 ⟨o', ho', hmem'⟩) rfl

theorem exists_of_get?_build (h : build options = .ok table) {switch : Switch}
    (hget : table.get? spelling = some switch) :
    ∃ o ∈ options, (spelling, switch) ∈ o.switches := by
  obtain ⟨hlast, -, -⟩ := claims_of_foldlM h
  rw [hlast, Dict.get?_empty, Option.or_none, Option.map_eq_some_iff] at hget
  obtain ⟨⟨spelling', _⟩, hentry, rfl⟩ := hget
  obtain ⟨hmem, hspelling⟩ := List.mem_filter.1 (List.mem_of_getLast? hentry)
  obtain rfl : spelling' = spelling := by simpa using hspelling
  exact List.mem_flatMap.1 hmem

theorem disjoint_of_build (h : build options = .ok table) (hkeys : (options.map key).Nodup) :
    options.Pairwise fun o o' => ∀ spelling ∈ o.allSpellings, spelling ∉ o'.allSpellings := by
  refine (List.pairwise_map.1 hkeys).imp_of_mem fun ho ho' hne spelling hs hs' => ?_
  exact hne (key_eq_of_build h ho ho' hs hs')

/-- **What the table says of a spelling** is what the option that lists it says last. -/
theorem get?_of_build (h : build options = .ok table) (hkeys : (options.map key).Nodup)
    {o : OptionSpec} (ho : o ∈ options) (hs : spelling ∈ o.allSpellings) :
    table.get? spelling =
      some (if spelling ∈ o.negatives then ⟨o.key, .none, some false⟩
        else ⟨o.key, o.arity, if o.arity = .required then none else some true⟩) := by
  obtain ⟨hget, -, -⟩ := claims_of_foldlM h
  -- no other option lists the spelling
  have hnone (o' : OptionSpec) (ho' : o' ∈ options) (hne : o'.key ≠ o.key) :
      o'.switches.filter (·.1 = spelling) = [] := by
    refine List.filter_eq_nil_iff.2 fun entry hentry heq => hne ?_
    obtain ⟨spelling', switch⟩ := entry
    obtain rfl : spelling' = spelling := by simpa using heq
    exact key_eq_of_build h ho' ho (mem_allSpellings_of_mem_switches hentry) hs
  have hfilter : (options.flatMap switches).filter (·.1 = spelling) =
      o.switches.filter (·.1 = spelling) := by
    obtain ⟨before, after, rfl, hbeforeKey, hafterKey⟩ := exists_split_of_nodup_map hkeys ho
    have hbefore : (before.flatMap switches).filter (·.1 = spelling) = [] := by
      rw [List.filter_flatMap, List.flatMap_eq_nil_iff]
      exact fun o' ho' => hnone o' (by simp [ho']) (hbeforeKey o' ho')
    have hafter : (after.flatMap switches).filter (·.1 = spelling) = [] := by
      rw [List.filter_flatMap, List.flatMap_eq_nil_iff]
      exact fun o' ho' => hnone o' (by simp [ho']) (hafterKey o' ho')
    rw [List.flatMap_append, List.flatMap_cons, List.filter_append, List.filter_append, hbefore,
      hafter, List.nil_append, List.append_nil]
  rw [hget, hfilter, getLast?_switches hs]
  rfl

end SwitchTable

/-! ## What the sides of an option share -/

/-- Each side of an option lists a spelling once, and only a short one stands on both sides. -/
structure OptionSpec.Sided (o : OptionSpec) : Prop where
  spellings : o.spellings.Nodup
  negatives : o.negatives.Nodup
  both : ∀ spelling ∈ o.spellings, spelling ∈ o.negatives →
    isShortSpelling spelling ∧ o.polarity = some .both

/-- The declarations share a short spelling at most, as the two sides of a switch. -/
def Declaration.Apart (d d' : Declaration) : Prop :=
  ∀ spelling ∈ d.spellings, spelling ∈ d'.spellings → isShortSpelling spelling ∧ d.OtherSide d'

theorem Declaration.OtherSide.symm {d d' : Declaration} (h : d.OtherSide d') : d'.OtherSide d :=
  ⟨h.key.symm, by simp [h.side], h.flag', h.flag, h.single', h.single⟩

theorem Declaration.Apart.symm {d d' : Declaration} (h : d.Apart d') : d'.Apart d := by
  intro spelling hmem hmem'
  obtain ⟨hshort, hother⟩ := h spelling hmem' hmem
  exact ⟨hshort, hother.symm⟩

theorem Declaration.OtherSide.apart {d d' : Declaration} (h : d.OtherSide d') (hd : d.WellFormed)
    (hd' : d'.WellFormed) : d.Apart d' := by
  obtain ⟨longs, short, hwritten⟩ := hd
  obtain ⟨longs', short', hwritten'⟩ := hd'
  intro spelling hmem hmem'
  refine ⟨?_, h⟩
  rw [hwritten.spellings] at hmem
  rw [hwritten'.spellings] at hmem'
  rcases List.mem_append.1 hmem with hlong | hshort
  · rcases List.mem_append.1 hmem' with hlong' | hshort'
    · have hside := (hwritten.longs_valid _ hlong).2.symm.trans (hwritten'.longs_valid _ hlong').2
      simp [h.side] at hside
    · exact hwritten'.short_valid _ (by simpa using hshort')
  · exact hwritten.short_valid _ (by simpa using hshort)

namespace OptionSpec

variable {boolean count : ValueType} {o : OptionSpec} {src : List (Bool × Declaration)}

theorem MadeOf.mem_allSpellings (h : MadeOf boolean count o src) {x : Bool × Declaration}
    (hx : x ∈ src) {spelling : String} (hs : spelling ∈ x.2.spellings) :
    spelling ∈ o.allSpellings := by
  cases h with
  | @one mandatory d _ =>
    obtain rfl := List.mem_singleton.1 hx
    cases hside : d.negated <;> simpa [allSpellings, ofDeclaration, hside] using hs
  | @two mandatory mandatory' d d' hother hside =>
    have hside' : d'.negated = true := by simpa [hside] using hother.side
    simp only [allSpellings, join, ofDeclaration, hside, hside', List.mem_append]
    rcases List.mem_cons.1 hx with rfl | hx
    · exact Or.inl (Or.inl hs)
    · obtain rfl := List.mem_singleton.1 hx
      exact Or.inr hs

theorem MadeOf.sided (h : MadeOf boolean count o src) (hwf : ∀ x ∈ src, x.2.WellFormed) :
    o.Sided := by
  cases h with
  | @one mandatory d _ =>
    obtain ⟨longs, short, hwritten⟩ := hwf _ (List.mem_singleton_self _)
    cases hside : d.negated
    · exact ⟨by simpa [ofDeclaration, hside] using hwritten.distinct, by simp [ofDeclaration, hside],
        by simp [ofDeclaration, hside]⟩
    · exact ⟨by simp [ofDeclaration, hside], by simpa [ofDeclaration, hside] using hwritten.distinct,
        by simp [ofDeclaration, hside]⟩
  | @two mandatory mandatory' d d' hother hside =>
    have hside' : d'.negated = true := by simpa [hside] using hother.side
    have hd := hwf (mandatory, d) (by simp)
    have hd' := hwf (mandatory', d') (by simp)
    have hspellings : (join (ofDeclaration d mandatory boolean count)
        (ofDeclaration d' mandatory' boolean count)).spellings = d.spellings := by
      simp [join, ofDeclaration, hside, hside']
    have hnegatives : (join (ofDeclaration d mandatory boolean count)
        (ofDeclaration d' mandatory' boolean count)).negatives = d'.spellings := by
      simp [join, ofDeclaration, hside']
    refine ⟨?_, ?_, fun spelling hmem hmem' => ?_⟩
    · obtain ⟨longs, short, hwritten⟩ := hd
      exact hspellings ▸ hwritten.distinct
    · obtain ⟨longs, short, hwritten⟩ := hd'
      exact hnegatives ▸ hwritten.distinct
    · rw [hspellings] at hmem
      rw [hnegatives] at hmem'
      exact ⟨(hother.apart hd hd' spelling hmem hmem').1, rfl⟩

/-- The declarations of an option share no spelling, but for a short one of both sides. -/
theorem MadeOf.pairwise_apart (h : MadeOf boolean count o src)
    (hwf : ∀ x ∈ src, x.2.WellFormed) : src.Pairwise fun x y => x.2.Apart y.2 := by
  cases h with
  | one => exact List.pairwise_singleton _ _
  | @two mandatory mandatory' d d' hother hside =>
    refine List.pairwise_pair.2 ?_
    exact hother.apart (hwf (mandatory, d) (by simp)) (hwf (mandatory', d') (by simp))

theorem pairwise_of_forall₂ {α β : Type} {R : α → β → Prop} {S : α → α → Prop} {T : β → β → Prop}
    {as : List α} {bs : List β} (hT : ∀ a a' b b', R a b → R a' b' → S a a' → T b b')
    (h : List.Forall₂ R as bs) (hS : as.Pairwise S) : bs.Pairwise T := by
  induction h with
  | nil => exact .nil
  | cons hab hrest ih =>
    obtain ⟨hfirst, hS⟩ := List.pairwise_cons.1 hS
    refine List.pairwise_cons.2 ⟨fun b' hb' => ?_, ih hS⟩
    obtain ⟨a', ha', hab'⟩ := exists_of_forall₂_right hrest hb'
    exact hT _ _ _ _ hab hab' (hfirst a' ha')

/-- **No two declarations of options in one table share a spelling**, but for a short one that the
two sides of a switch both list. -/
theorem Declares.pairwise_apart {ds : List (Bool × Declaration)} {options : List OptionSpec}
    {table : SwitchTable} (h : Declares boolean count ds options)
    (hwf : ∀ x ∈ ds, x.2.WellFormed) (htable : SwitchTable.build options = .ok table) :
    ds.Pairwise fun x y => x.2.Apart y.2 := by
  obtain ⟨hkeys, srcs, hsrcs, hperm⟩ := h
  have hwf' (src : List (Bool × Declaration)) (hsrc : src ∈ srcs) : ∀ x ∈ src, x.2.WellFormed :=
    fun x hx => hwf x (hperm.subset (List.mem_flatten.2 ⟨src, hsrc, hx⟩))
  refine hperm.pairwise (List.pairwise_flatten.2 ⟨fun src hsrc => ?_, ?_⟩)
    (fun {x y} (hxy : x.2.Apart y.2) => hxy.symm)
  · obtain ⟨o, -, hmade⟩ := exists_of_forall₂_right hsrcs hsrc
    exact hmade.pairwise_apart (hwf' src hsrc)
  · refine pairwise_of_forall₂ ?_ hsrcs (SwitchTable.disjoint_of_build htable hkeys)
    intro o o' src src' hmade hmade' hdisjoint x hx y hy spelling hs hs'
    exact absurd (hmade'.mem_allSpellings hy hs') (hdisjoint spelling (hmade.mem_allSpellings hx hs))

end OptionSpec

namespace Usage

variable {text : String} {r r' : Registry} {u : Usage}

theorem build_of_compile (h : compile text r = .ok u r') :
    SwitchTable.build u.options = .ok u.switches := by
  obtain ⟨outline, r₁, options, r₂, layout, switches, -, -, -, htable, rfl⟩ := compile_ok_iff.1 h
  exact htable

/-- **A spelling belongs to one option and one of its sides**, and means what that side says. Only
a short one may stand on both sides of a switch. Declarations that share any other spelling are not
compiled. -/
theorem switches_of_compile (h : compile text r = .ok u r') :
    u.options.Pairwise (fun o o' => ∀ spelling ∈ o.allSpellings, spelling ∉ o'.allSpellings) ∧
    (∀ o ∈ u.options, o.Sided ∧
      (∀ spelling ∈ o.negatives,
        u.switches.get? spelling = some ⟨o.key, .none, some false⟩) ∧
      ∀ spelling ∈ o.spellings, spelling ∉ o.negatives →
        u.switches.get? spelling =
          some ⟨o.key, o.arity, if o.arity = .required then none else some true⟩) ∧
    ∀ outline r₁, Outline.read text r = .ok outline r₁ →
      (outline.mandatory ++ outline.optional).Pairwise Declaration.Apart := by
  obtain ⟨outline, r₁, boolean, count, hread, hwf, hdeclares⟩ := declares_of_compile h
  have htable := build_of_compile h
  have hkeys := keys_nodup_of_compile h
  refine ⟨SwitchTable.disjoint_of_build htable hkeys, fun o ho => ⟨?_, ?_, ?_⟩, ?_⟩
  · obtain ⟨src, hmade, hsrc⟩ := hdeclares.made ho
    exact hmade.sided fun x hx => hwf x (hsrc x hx)
  · intro spelling hmem
    rw [SwitchTable.get?_of_build htable hkeys ho (List.mem_append_right _ hmem), if_pos hmem]
  · intro spelling hmem hnegated
    rw [SwitchTable.get?_of_build htable hkeys ho (List.mem_append_left _ hmem), if_neg hnegated]
  · intro outline' r₁' hread'
    obtain ⟨rfl, rfl⟩ := by simpa using hread.symm.trans hread'
    have hapart := hdeclares.pairwise_apart hwf htable
    have hdeclared : outline.mandatory ++ outline.optional =
        (OptionSpec.declared outline.mandatory outline.optional).map (·.2) := by
      simp [OptionSpec.declared, Function.comp_def]
    rw [hdeclared]
    exact List.pairwise_map.2 hapart

/-- A switch with a short spelling of its own on each side. -/
theorem switches_twoSided :
    ∃ u r', compile "[--x|-a] [--no-x|-b]" Registry.standard = .ok u r' ∧
      ∃ o ∈ u.options, u.switches.get? "-a" = some ⟨o.key, o.arity, some true⟩ ∧
        u.switches.get? "-b" = some ⟨o.key, .none, some false⟩ := by
  obtain ⟨u, r', hcompile, hsatisfied⟩ :=
    exists_of_succeedsWith (compile "[--x|-a] [--no-x|-b]" Registry.standard)
      (fun u _ => u.options.any fun o => "-a" ∈ o.spellings && "-a" ∉ o.negatives &&
        "-b" ∈ o.negatives && o.arity = .none)
      (by decide +kernel)
  obtain ⟨o, ho, hcheck⟩ := List.any_eq_true.1 hsatisfied
  obtain ⟨⟨⟨ha, ha'⟩, hb⟩, harity⟩ := by simpa using hcheck
  obtain ⟨-, hnegatives, hspellings⟩ := (switches_of_compile hcompile).2.1 o ho
  refine ⟨u, r', hcompile, o, ho, ?_, hnegatives "-b" hb⟩
  rw [hspellings "-a" ha ha', harity]
  rfl

/-- A short spelling on both sides of a switch is not refused: one side of it is lost. -/
theorem short_onBothSides :
    ∃ u r', compile "[--x|-a] [--no-x|-a]" Registry.standard = .ok u r' ∧
      ∃ o ∈ u.options, "-a" ∈ o.spellings ∧ "-a" ∈ o.negatives ∧
        u.switches.get? "-a" = some ⟨o.key, .none, some false⟩ := by
  obtain ⟨u, r', hcompile, hsatisfied⟩ :=
    exists_of_succeedsWith (compile "[--x|-a] [--no-x|-a]" Registry.standard)
      (fun u _ => u.options.any fun o => "-a" ∈ o.spellings && "-a" ∈ o.negatives &&
        u.switches.get? "-a" = some ⟨o.key, .none, some false⟩)
      (by decide +kernel)
  obtain ⟨o, ho, hcheck⟩ := List.any_eq_true.1 hsatisfied
  obtain ⟨⟨haffirmative, hnegative⟩, hswitch⟩ := by simpa using hcheck
  exact ⟨u, r', hcompile, o, ho, haffirmative, hnegative, hswitch⟩

end Usage

end Synopsis
