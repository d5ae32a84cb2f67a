import Synopsis.OptionSpec.Reconcile
import Synopsis.Proofs.Declarations

/-!
# What options are made of

Reconciling makes an option of one declaration, or of the two sides of a switch
(`OptionSpec.MadeOf`). `Declares` is what it keeps while it goes through the declarations: keys are
distinct, every option is made of declarations and every declaration has its place in an option.

**Theorem (`declares_of_reconcile`).** The options of a text declare what its groups declare.
-/

namespace Synopsis

theorem forall₂_append_left {α β : Type} {R : α → β → Prop} {as as' : List α} {bs : List β}
    (h : List.Forall₂ R (as ++ as') bs) :
    ∃ bs₁ bs₂, bs = bs₁ ++ bs₂ ∧ List.Forall₂ R as bs₁ ∧ List.Forall₂ R as' bs₂ := by
  induction as generalizing bs with
  | nil => exact ⟨[], bs, rfl, .nil, h⟩
  | cons a as ih =>
    obtain ⟨b, bs, hb, hbs, rfl⟩ := List.forall₂_cons_left_iff.1 h
    obtain ⟨bs₁, bs₂, rfl, h₁, h₂⟩ := ih hbs
    exact ⟨b :: bs₁, bs₂, rfl, .cons hb h₁, h₂⟩

theorem exists_of_forall₂_left {α β : Type} {R : α → β → Prop} {as : List α} {bs : List β}
    (h : List.Forall₂ R as bs) {a : α} (ha : a ∈ as) : ∃ b ∈ bs, R a b := by
  induction h with
  | nil => simp at ha
  | cons hab hrest ih =>
    rcases List.mem_cons.1 ha with rfl | ha
    · exact ⟨_, by simp, hab⟩
    · obtain ⟨b, hb, hab⟩ := ih ha
      exact ⟨b, by simp [hb], hab⟩

theorem exists_of_forall₂_right {α β : Type} {R : α → β → Prop} {as : List α} {bs : List β}
    (h : List.Forall₂ R as bs) {b : β} (hb : b ∈ bs) : ∃ a ∈ as, R a b :=
  exists_of_forall₂_left (List.Forall₂.flip h) hb

/-- Where keys are distinct, those before and after an element differ from its key. -/
theorem exists_split_of_nodup_map {α β : Type} {f : α → β} {as : List α} (h : (as.map f).Nodup)
    {a : α} (ha : a ∈ as) :
    ∃ before after, as = before ++ a :: after ∧ (∀ b ∈ before, f b ≠ f a) ∧
      ∀ b ∈ after, f b ≠ f a := by
  obtain ⟨before, after, rfl⟩ := List.append_of_mem ha
  rw [List.map_append, List.map_cons, List.nodup_middle, List.nodup_cons, List.mem_append,
    not_or] at h
  obtain ⟨⟨hbefore, hafter⟩, -⟩ := h
  refine ⟨before, after, rfl, fun b hb heq => ?_, fun b hb heq => ?_⟩
  · exact hbefore (heq ▸ List.mem_map_of_mem hb)
  · exact hafter (heq ▸ List.mem_map_of_mem hb)

/-- The two declarations are the two sides of a switch that does not repeat. -/
structure Declaration.OtherSide (d d' : Declaration) : Prop where
  key : d.key = d'.key
  side : d.negated = !d'.negated
  flag : d.value.isFlag
  flag' : d'.value.isFlag
  single : d.recurs = false
  single' : d'.recurs = false

namespace OptionSpec

/-- The option is that of one declaration, or of an affirmative and a negated one. A declaration
comes with whether it is mandatory. -/
inductive MadeOf (boolean count : ValueType) : OptionSpec → List (Bool × Declaration) → Prop
  | one {mandatory : Bool} {d : Declaration} (h : d.negated → d.recurs = false) :
      MadeOf boolean count (ofDeclaration d mandatory boolean count) [(mandatory, d)]
  | two {mandatory mandatory' : Bool} {d d' : Declaration} (h : d.OtherSide d')
      (hside : d.negated = false) :
      MadeOf boolean count
        (join (ofDeclaration d mandatory boolean count) (ofDeclaration d' mandatory' boolean count))
        [(mandatory, d), (mandatory', d')]

section OfDeclaration

variable (d : Declaration) (mandatory : Bool) (boolean count : ValueType)

@[simp] theorem key_ofDeclaration : (ofDeclaration d mandatory boolean count).key = d.key := rfl

@[simp] theorem recurs_ofDeclaration :
    (ofDeclaration d mandatory boolean count).recurs = d.recurs := rfl

@[simp] theorem mandatory_ofDeclaration :
    (ofDeclaration d mandatory boolean count).mandatory = mandatory := rfl

theorem polarity_ofDeclaration :
    (ofDeclaration d mandatory boolean count).polarity =
      if d.negated then some .negative else if d.value.isFlag then some .affirmative else none := by
  simp only [ofDeclaration]
  cases d.value <;> rfl

end OfDeclaration

variable {boolean count : ValueType}

theorem pair_ok_iff {first second joined : OptionSpec} :
    first.pair second = .ok joined ↔
      (first.polarity = some .affirmative ∧ second.polarity = some .negative ∧
        first.recurs = false ∧ joined = join first second) ∨
      (first.polarity = some .negative ∧ second.polarity = some .affirmative ∧
        second.recurs = false ∧ joined = join second first) := by
  unfold pair
  split
  · next hfirst hsecond =>
    cases hrecurs : first.recurs <;>
      simp [pair.joined, hfirst, hsecond, hrecurs, @eq_comm _ joined]
  · next hfirst hsecond =>
    cases hrecurs : second.recurs <;>
      simp [pair.joined, hfirst, hsecond, hrecurs, @eq_comm _ joined]
  · next haffirmative hnegative =>
    simp only [reduceCtorEq, false_iff, not_or]
    exact ⟨fun h => haffirmative h.1 h.2.1, fun h => hnegative h.1 h.2.1⟩

/-- An option is placed at the end, or together with the one that has its key. -/
theorem place_ok_iff {o : OptionSpec} {options options' : List OptionSpec} :
    o.place options = .ok options' ↔
      (o.key ∉ options.map key ∧ options' = options ++ [o]) ∨
      ∃ before first after joined, options = before ++ first :: after ∧
        o.key ∉ before.map key ∧ first.key = o.key ∧ first.pair o = .ok joined ∧
        options' = before ++ joined :: after := by
  induction options generalizing options' with
  | nil => simp [place, eq_comm]
  | cons first rest ih =>
    by_cases hkey : first.key = o.key
    · simp only [place, hkey, if_true, failing_bind_ok_iff, failing_pure_ok_iff]
      constructor
      · rintro ⟨joined, hjoined, rfl⟩
        exact Or.inr ⟨[], first, rest, joined, rfl, by simp, hkey, hjoined, rfl⟩
      · rintro (⟨hnew, -⟩ | ⟨before, found, after, joined, hoptions, hbefore, hfound, hjoined, rfl⟩)
        · simp [hkey] at hnew
        · cases before with
          | nil =>
            obtain ⟨rfl, rfl⟩ := by simpa using hoptions
            exact ⟨joined, hjoined, rfl⟩
          | cons b before =>
            obtain ⟨rfl, -⟩ := by simpa using hoptions
            simp [hkey] at hbefore
    · simp only [place, hkey, if_false, failing_bind_ok_iff, failing_pure_ok_iff, ih]
      constructor
      · rintro ⟨placed, ⟨hnew, rfl⟩ | ⟨before, found, after, joined, rfl, hbefore, hfound, hjoined,
          rfl⟩, rfl⟩
        · exact Or.inl ⟨by simpa [Ne.symm hkey] using hnew, rfl⟩
        · exact Or.inr ⟨first :: before, found, after, joined, rfl,
            by simpa [Ne.symm hkey] using hbefore, hfound, hjoined, rfl⟩
      · rintro (⟨hnew, rfl⟩ | ⟨before, found, after, joined, hoptions, hbefore, hfound, hjoined, rfl⟩)
        · exact ⟨_, Or.inl ⟨fun hmem => hnew (by simp_all), rfl⟩, rfl⟩
        · cases before with
          | nil =>
            obtain ⟨rfl, rfl⟩ := by simpa using hoptions
            exact absurd hfound hkey
          | cons b before =>
            obtain ⟨rfl, rfl⟩ := by simpa using hoptions
            exact ⟨_, Or.inr ⟨before, found, after, joined, rfl, fun hmem => hbefore (by simp_all),
              hfound, hjoined, rfl⟩, rfl⟩

theorem declare_ok_iff {options options' : List OptionSpec} {x : Bool × Declaration} :
    declare boolean count options x = .ok options' ↔
      (x.2.negated → x.2.recurs = false) ∧
        (ofDeclaration x.2 x.1 boolean count).place options = .ok options' := by
  obtain ⟨mandatory, d⟩ := x
  cases hnegated : d.negated <;> cases hrecurs : d.recurs <;>
    simp [declare, hnegated, hrecurs]

namespace MadeOf

variable {o : OptionSpec} {src : List (Bool × Declaration)}

theorem key_eq (h : MadeOf boolean count o src) : ∀ x ∈ src, x.2.key = o.key := by
  cases h with
  | one h => simp
  | two h hside => simpa [join] using h.key.symm

theorem ne_nil (h : MadeOf boolean count o src) : src ≠ [] := by
  cases h <;> simp

theorem of_polarity {polarity : Polarity} (h : MadeOf boolean count o src)
    (hpolarity : o.polarity = some polarity) (hone : polarity ≠ .both) :
    ∃ mandatory d, o = ofDeclaration d mandatory boolean count ∧ src = [(mandatory, d)] ∧
      (d.negated → d.recurs = false) := by
  cases h with
  | one h => exact ⟨_, _, rfl, rfl, h⟩
  | two h hside =>
    simp only [join, Option.some.injEq] at hpolarity
    exact absurd hpolarity.symm hone

end MadeOf

/-- The options are those that the declarations make: keys are distinct, and each declaration has
its place in one option. -/
def Declares (boolean count : ValueType) (ds : List (Bool × Declaration))
    (options : List OptionSpec) : Prop :=
  (options.map key).Nodup ∧ ∃ srcs, List.Forall₂ (MadeOf boolean count) options srcs ∧
    srcs.flatten.Perm ds

/-- An affirmative and a negated option of one key make a switch with two sides. -/
theorem otherSide_of_polarity {d d' : Declaration} {mandatory mandatory' : Bool}
    (hkey : d.key = d'.key) (hwf : d'.WellFormed) (hrecurs : d.recurs = false)
    (hrecurs' : d'.negated → d'.recurs = false)
    (h : (ofDeclaration d mandatory boolean count).polarity = some .affirmative)
    (h' : (ofDeclaration d' mandatory' boolean count).polarity = some .negative) :
    d.OtherSide d' ∧ d.negated = false := by
  rw [polarity_ofDeclaration] at h h'
  cases hside : d.negated <;> cases hside' : d'.negated
  · cases hflag' : d'.value.isFlag <;> simp [hside', hflag'] at h'
  · obtain ⟨longs, short, hwritten⟩ := hwf
    have hflag : d.value.isFlag := by
      by_contra hflag
      simp [hside, hflag] at h
    exact ⟨⟨hkey, by simp [hside, hside'], hflag, (hwritten.negated hside').2, hrecurs,
      hrecurs' hside'⟩, rfl⟩
  · simp [hside] at h
  · simp [hside] at h

theorem declares_declare {ds : List (Bool × Declaration)} {options options' : List OptionSpec}
    {x : Bool × Declaration} (hwf : ∀ y ∈ ds ++ [x], y.2.WellFormed)
    (hds : Declares boolean count ds options) (h : declare boolean count options x = .ok options') :
    Declares boolean count (ds ++ [x]) options' := by
  obtain ⟨hkeys, srcs, hsrcs, hperm⟩ := hds
  obtain ⟨hrecurs, hplace⟩ := declare_ok_iff.1 h
  rcases place_ok_iff.1 hplace with ⟨hnew, rfl⟩ |
    ⟨before, first, after, joined, rfl, hbefore, hkey, hpair, rfl⟩
  · refine ⟨?_, srcs ++ [[x]], ?_, ?_⟩
    · rw [List.map_append, List.nodup_append]
      refine ⟨hkeys, by simp, ?_⟩
      rintro k hk k' hk' rfl
      obtain rfl : k = (ofDeclaration x.2 x.1 boolean count).key := by simpa using hk'
      exact hnew hk
    · exact List.rel_append hsrcs (.cons (.one hrecurs) .nil)
    · simpa using hperm.append_right [x]
  · obtain ⟨srcs₁, rest, rfl, hsrcs₁, hrest⟩ := forall₂_append_left hsrcs
    obtain ⟨src, srcs₂, hsrc, hsrcs₂, rfl⟩ := List.forall₂_cons_left_iff.1 hrest
    -- the option found is that of one declaration, and `x` is its other side
    have hjoined : ∃ src', MadeOf boolean count joined src' ∧ src'.Perm (src ++ [x]) ∧
        joined.key = first.key := by
      rcases pair_ok_iff.1 hpair with ⟨haffirmative, hnegative, hsingle, rfl⟩ |
        ⟨hnegative, haffirmative, hsingle, rfl⟩
      · obtain ⟨mandatory, d, rfl, rfl, -⟩ := hsrc.of_polarity haffirmative (by decide)
        obtain ⟨hother, hside⟩ := otherSide_of_polarity hkey (hwf x (by simp)) hsingle hrecurs
          haffirmative hnegative
        exact ⟨_, .two hother hside, List.Perm.refl _, rfl⟩
      · obtain ⟨mandatory, d, rfl, rfl, hrecurs'⟩ := hsrc.of_polarity hnegative (by decide)
        have hwf' : d.WellFormed := hwf (mandatory, d) <|
          List.mem_append_left _ <| hperm.subset <| by simp
        obtain ⟨hother, hside⟩ := otherSide_of_polarity hkey.symm hwf' hsingle hrecurs'
          haffirmative hnegative
        exact ⟨_, .two hother hside, List.Perm.swap _ _ _, hkey.symm⟩
    obtain ⟨src', hmade, hperm', hkey'⟩ := hjoined
    refine ⟨by simpa [hkey'] using hkeys, srcs₁ ++ src' :: srcs₂, ?_, ?_⟩
    · exact List.rel_append hsrcs₁ (.cons hmade hsrcs₂)
    · have hmove : (src ++ [x] ++ srcs₂.flatten).Perm (src ++ srcs₂.flatten ++ [x]) := by
        rw [List.append_assoc, List.append_assoc]
        exact List.perm_append_comm.append_left src
      calc (srcs₁ ++ src' :: srcs₂).flatten
        _ = srcs₁.flatten ++ (src' ++ srcs₂.flatten) := by simp
        List.Perm _ (srcs₁.flatten ++ (src ++ [x] ++ srcs₂.flatten)) :=
          (hperm'.append_right _).append_left _
        List.Perm _ (srcs₁.flatten ++ (src ++ srcs₂.flatten ++ [x])) := hmove.append_left _
        _ = (srcs₁ ++ src :: srcs₂).flatten ++ [x] := by simp
        List.Perm _ (ds ++ [x]) := hperm.append_right [x]

theorem declares_foldlM {ds ds' : List (Bool × Declaration)} {options options' : List OptionSpec}
    (hwf : ∀ y ∈ ds ++ ds', y.2.WellFormed) (hds : Declares boolean count ds options)
    (h : ds'.foldlM (declare boolean count) options = .ok options') :
    Declares boolean count (ds ++ ds') options' := by
  induction ds' generalizing ds options with
  | nil =>
    obtain rfl := by simpa using h
    simpa using hds
  | cons x ds' ih =>
    rw [List.foldlM_cons, failing_bind_ok_iff] at h
    obtain ⟨options₁, hx, hrest⟩ := h
    have hds₁ := declares_declare (fun y hy => hwf y (by simp_all; tauto)) hds hx
    simpa using ih (by simpa using hwf) hds₁ hrest

/-! ## Reconciling -/

theorem resolveType_ok_iff {name : String} {r r' : Registry} {t : ValueType} :
    resolveType name r = .ok t r' ↔ Registry.resolve name r = .ok t r' := by
  unfold resolveType
  cases Registry.resolve name r <;> simp

theorem reconcile_ok_iff {mandatory optional : List Declaration} {r r' : Registry}
    {options : List OptionSpec} :
    reconcile mandatory optional r = .ok options r' ↔
      ∃ boolean count r₁, Registry.resolve ValueType.booleanName r = .ok boolean r₁ ∧
        Registry.resolve ValueType.countName r₁ = .ok count r' ∧
        ofDeclarations mandatory optional boolean count = .ok options := by
  simp only [reconcile, keeping_bind_ok_iff, resolveType_ok_iff]
  constructor
  · rintro ⟨boolean, r₁, hboolean, count, r₂, hcount, h⟩
    cases hoptions : ofDeclarations mandatory optional boolean count <;> simp [hoptions] at h
    obtain ⟨rfl, rfl⟩ := h
    exact ⟨boolean, count, r₁, hboolean, hcount, hoptions⟩
  · rintro ⟨boolean, count, r₁, hboolean, hcount, hoptions⟩
    exact ⟨boolean, r₁, hboolean, count, r', hcount, by simp [hoptions]⟩

/-- All declarations of a text with whether they are mandatory, in the order they are placed. -/
def declared (mandatory optional : List Declaration) : List (Bool × Declaration) :=
  mandatory.map (true, ·) ++ optional.map (false, ·)

theorem forall_mem_declared {P : Declaration → Prop} {mandatory optional : List Declaration}
    (h : ∀ d ∈ mandatory ++ optional, P d) : ∀ x ∈ declared mandatory optional, P x.2 := by
  rintro ⟨m, d⟩ hd
  simp only [declared, List.mem_append, List.mem_map, Prod.mk.injEq] at hd
  rcases hd with ⟨d', hd', -, rfl⟩ | ⟨d', hd', -, rfl⟩
  · exact h d' (List.mem_append_left _ hd')
  · exact h d' (List.mem_append_right _ hd')

/-- **The options of a text declare what its groups declare.** -/
theorem declares_of_ofDeclarations {mandatory optional : List Declaration}
    {options : List OptionSpec} (hwf : ∀ d ∈ mandatory ++ optional, d.WellFormed)
    (h : ofDeclarations mandatory optional boolean count = .ok options) :
    Declares boolean count (declared mandatory optional) options := by
  have hnone : Declares boolean count [] [] := ⟨by simp, [], .nil, by simp⟩
  have hall : ∀ x ∈ [] ++ declared mandatory optional, x.2.WellFormed :=
    forall_mem_declared hwf
  simpa using declares_foldlM hall hnone h

namespace Declares

variable {ds : List (Bool × Declaration)} {options : List OptionSpec}

theorem made (h : Declares boolean count ds options) {o : OptionSpec} (ho : o ∈ options) :
    ∃ src, MadeOf boolean count o src ∧ ∀ x ∈ src, x ∈ ds := by
  obtain ⟨-, srcs, hsrcs, hperm⟩ := h
  obtain ⟨src, hsrc, hmade⟩ := exists_of_forall₂_left hsrcs ho
  exact ⟨src, hmade, fun x hx => hperm.subset (List.mem_flatten.2 ⟨src, hsrc, hx⟩)⟩

theorem placed (h : Declares boolean count ds options) {x : Bool × Declaration} (hx : x ∈ ds) :
    ∃ o ∈ options, ∃ src, MadeOf boolean count o src ∧ x ∈ src := by
  obtain ⟨-, srcs, hsrcs, hperm⟩ := h
  obtain ⟨src, hsrc, hmem⟩ := List.mem_flatten.1 (hperm.symm.subset hx)
  obtain ⟨o, ho, hmade⟩ := exists_of_forall₂_right hsrcs hsrc
  exact ⟨o, ho, src, hmade, hmem⟩

theorem eq_nil (h : Declares boolean count ds options) (hoptions : options = []) : ds = [] := by
  obtain ⟨-, srcs, hsrcs, hperm⟩ := h
  rw [hoptions, List.forall₂_nil_left_iff] at hsrcs
  rw [hsrcs] at hperm
  exact hperm.symm.eq_nil

end Declares

end OptionSpec

end Synopsis
