import Synopsis.Proofs.Compiled
import Synopsis.Proofs.Layouts
import Synopsis.Registry.Standard

/-!
# Arranging values is expanding terms

**Theorem (`arrange_iff_expansion`).** Values can be arranged exactly when some expansion of the
terms is as long as they are many. There is only one such expansion, and each value goes to the
parameter that stands in its place there.

Several depths may take the same number of values: nothing but segments may lie between them, or a
list that is left empty. What they spell is then the same (`spells_eq`), which is why choosing the
greatest depth is right.
-/

namespace Synopsis

/-! ## What a depth spells -/

/-- How many values a parameter takes when the parameters up to `depth` are filled and a list takes
`copies`. -/
def Parameter.share (p : Parameter) (depth copies : Nat) : Nat :=
  if p.depth ≤ depth then if p.recurs then copies else 1 else 0

/-- The number of each parameter as often as it takes a value. -/
def spell (depth copies : Nat) (ps : List Parameter) : List Nat :=
  ps.flatMap fun p => List.replicate (p.share depth copies) p.index

theorem spell_congr {depth depth' copies copies' : Nat} {ps : List Parameter}
    (h : ∀ p ∈ ps, p.share depth copies = p.share depth' copies') :
    spell depth copies ps = spell depth' copies' ps := by
  induction ps with
  | nil => rfl
  | cons p ps ih =>
    have hp := h p (by simp)
    have hps := ih fun q hq => h q (by simp [hq])
    unfold spell at hps ⊢
    rw [List.flatMap_cons, List.flatMap_cons, hp, hps]

/-- With at most one list, one number tells all that a list may take. -/
theorem spells_iff {depth : Nat} {ps : List Parameter} {e : List Nat}
    (hone : ps.Pairwise fun p q => p.recurs → q.recurs = false) :
    Spells depth ps e ↔
      ∃ copies, (∀ p ∈ ps, p.recurs → p.depth ≤ depth → p.minimum ≤ copies) ∧
        e = spell depth copies ps := by
  induction ps generalizing e with
  | nil => simp [Spells, spell]
  | cons p ps ih =>
    obtain ⟨hp, hps⟩ := List.pairwise_cons.1 hone
    simp only [Spells, ih hps]
    constructor
    · rintro ⟨n, _, hn, ⟨copies, hcopies, rfl⟩, rfl⟩
      by_cases hlist : p.recurs = true ∧ p.depth ≤ depth
      · obtain ⟨hrecurs, hdepth⟩ := hlist
        have hn' : p.minimum ≤ n := by simpa [Parameter.Takes, hrecurs, hdepth] using hn
        have hspell : spell depth copies ps = spell depth n ps :=
          spell_congr fun q hq => by simp [Parameter.share, hp q hq hrecurs]
        refine ⟨n, ?_, by simp [spell, Parameter.share, hrecurs, hdepth] at hspell ⊢; exact hspell⟩
        intro q hq hq'
        rcases List.mem_cons.1 hq with rfl | hq
        · exact fun _ => hn'
        · simp [hp q hq hrecurs] at hq'
      · refine ⟨copies, ?_, ?_⟩
        · intro q hq hq' hdepth
          rcases List.mem_cons.1 hq with rfl | hq
          · exact absurd ⟨hq', hdepth⟩ hlist
          · exact hcopies q hq hq' hdepth
        · have hshare : n = p.share depth copies := by
            unfold Parameter.Takes at hn
            unfold Parameter.share
            split_ifs at hn ⊢ <;> simp_all
          rw [hshare]
          rfl
    · rintro ⟨copies, hcopies, rfl⟩
      refine ⟨p.share depth copies, _, ?_, ⟨copies, ?_, rfl⟩, rfl⟩
      · have hp' := hcopies p (by simp)
        unfold Parameter.Takes Parameter.share
        split_ifs <;> simp_all
      · exact fun q hq => hcopies q (by simp [hq])

theorem length_spell (depth copies : Nat) (ps : List Parameter) :
    (spell depth copies ps).length =
      (ps.filter fun p => p.depth ≤ depth && !p.recurs).length +
        (ps.filter fun p => p.depth ≤ depth && p.recurs).length * copies := by
  induction ps with
  | nil => simp [spell]
  | cons p ps ih =>
    have hcons : (spell depth copies (p :: ps)).length =
        p.share depth copies + (spell depth copies ps).length := by
      simp [spell]
    rw [hcons, ih]
    by_cases hdepth : p.depth ≤ depth <;> cases hrecurs : p.recurs <;>
      simp [Parameter.share, hdepth, hrecurs, Nat.add_mul] <;> omega

/-- Where no list is filled, what is spelled is the other parameters. -/
theorem spell_eq_map {depth copies : Nat} {ps : List Parameter}
    (h : ∀ p ∈ ps, p.recurs → depth < p.depth ∨ copies = 0) :
    spell depth copies ps =
      (ps.filter fun p => p.depth ≤ depth && !p.recurs).map Parameter.index := by
  induction ps with
  | nil => rfl
  | cons p ps ih =>
    have hps := ih fun q hq => h q (by simp [hq])
    have hp := h p (by simp)
    unfold spell at hps ⊢
    rw [List.flatMap_cons, hps]
    by_cases hdepth : p.depth ≤ depth <;> cases hrecurs : p.recurs
    · simp [Parameter.share, hdepth, hrecurs]
    · simp [Parameter.share, hdepth, hrecurs, (hp hrecurs).resolve_left (Nat.not_lt.2 hdepth)]
    · simp [Parameter.share, hdepth, hrecurs]
    · simp [Parameter.share, hdepth, hrecurs]

/-! ## Branches -/

namespace Layout

variable {l : Layout} {ts : List Term}

theorem fixed_mono (l : Layout) {d d' : Nat} (h : d ≤ d') : l.fixed d ≤ l.fixed d' := by
  refine (List.monotone_filter_right l.parameters fun p hp => ?_).length_le
  simp only [Bool.and_eq_true, decide_eq_true_eq] at hp ⊢
  exact ⟨Nat.le_trans hp.1 h, hp.2⟩

/-- A branch is closed as long as the list lies deeper. It is open from the depth of the list on,
and then no parameter lies deeper. -/
theorem branch_cases (hl : l.Fits ts) (d : Nat) :
    (l.branch d = .exactly (l.fixed d) ∧ ∀ p ∈ l.parameters, p.recurs → d < p.depth) ∨
    (∃ list ∈ l.parameters, list.recurs ∧ (∀ p ∈ l.parameters, p.recurs → p = list) ∧
      (∀ p ∈ l.parameters, p.depth ≤ d) ∧
      ∀ d', d ≤ d' → l.branch d' = .atLeast (l.fixed d' + list.minimum)) := by
  cases hlist : l.list? with
  | none =>
    refine Or.inl ⟨by simp [branch, hlist], fun p hp hrecurs => ?_⟩
    have := List.find?_eq_none.1 hlist p hp
    simp [hrecurs] at this
  | some list =>
    have hmem : list ∈ l.parameters := List.mem_of_find?_eq_some hlist
    have hrecurs : list.recurs = true := by simpa using List.find?_some hlist
    have honly (p : Parameter) (hp : p ∈ l.parameters) (hp' : p.recurs) : p = list := by
      have hsymm : Std.Symm fun p q : Parameter => p.recurs → q.recurs = false :=
        ⟨fun p q hpq hq => by
          by_contra hp
          simp [hpq (by simpa using hp)] at hq⟩
      by_contra hne
      simp [hl.one_list.forall hp hmem hne hp'] at hrecurs
    by_cases hdepth : list.depth ≤ d
    · refine Or.inr ⟨list, hmem, hrecurs, honly, fun p hp => ?_, fun d' hd => ?_⟩
      · have := hl.depth_le p hp
        have := hl.list_deepest list hmem hrecurs
        omega
      · simp [branch, hlist, Nat.le_trans hdepth hd]
    · refine Or.inl ⟨by simp [branch, hlist, hdepth], fun p hp hp' => ?_⟩
      rw [honly p hp hp']
      exact Nat.lt_of_not_le hdepth

theorem length_spell_of_deeper {d : Nat} (copies : Nat)
    (h : ∀ p ∈ l.parameters, p.recurs → d < p.depth) :
    (spell d copies l.parameters).length = l.fixed d := by
  rw [spell_eq_map fun p hp hrecurs => Or.inl (h p hp hrecurs), List.length_map]
  rfl

theorem length_spell_of_list (hl : l.Fits ts) {d : Nat} (copies : Nat) {list : Parameter}
    (hmem : list ∈ l.parameters) (hrecurs : list.recurs)
    (hd : ∀ p ∈ l.parameters, p.depth ≤ d) :
    (spell d copies l.parameters).length = l.fixed d + copies := by
  have hlist : list ∈ l.parameters.filter fun p => p.depth ≤ d && p.recurs := by
    simp [hmem, hrecurs, hd list hmem]
  have hall : ∀ p ∈ l.parameters.filter fun p => p.depth ≤ d && p.recurs, p.recurs := by
    simp
  have hone := hl.one_list.filter fun p => p.depth ≤ d && p.recurs
  have hlength : (l.parameters.filter fun p => p.depth ≤ d && p.recurs).length = 1 := by
    generalize l.parameters.filter (fun p => p.depth ≤ d && p.recurs) = lists at hlist hall hone
    match lists with
    | [] => simp at hlist
    | [_] => rfl
    | p :: q :: _ =>
      have hq := (List.pairwise_cons.1 hone).1 q (by simp) (hall p (by simp))
      simp [hall q (by simp)] at hq
  rw [length_spell, hlength, Nat.one_mul]
  rfl

/-- **A branch admits as many values as its depth can spell.** -/
theorem admits_iff (hl : l.Fits ts) (d n : Nat) :
    (l.branch d).admits n ↔ ∃ e, Spells d l.parameters e ∧ e.length = n := by
  simp only [spells_iff hl.one_list]
  rcases branch_cases hl d with ⟨hbranch, hdeeper⟩ | ⟨list, hmem, hrecurs, honly, hdepth, hbranch⟩
  · rw [hbranch]
    simp only [Branch.admits, decide_eq_true_eq]
    constructor
    · rintro rfl
      refine ⟨_, ⟨0, fun p hp hrecurs hdepth => ?_, rfl⟩, length_spell_of_deeper 0 hdeeper⟩
      exact absurd hdepth (Nat.not_le.2 (hdeeper p hp hrecurs))
    · rintro ⟨_, ⟨copies, -, rfl⟩, rfl⟩
      exact length_spell_of_deeper copies hdeeper
  · rw [hbranch d (Nat.le_refl d)]
    simp only [Branch.admits, decide_eq_true_eq]
    constructor
    · intro hn
      refine ⟨_, ⟨n - l.fixed d, fun p hp hrecurs _ => ?_, rfl⟩, ?_⟩
      · rw [honly p hp hrecurs]
        omega
      · rw [length_spell_of_list hl _ hmem hrecurs hdepth]
        omega
    · rintro ⟨_, ⟨copies, hcopies, rfl⟩, rfl⟩
      have := hcopies list hmem hrecurs (hdepth list hmem)
      rw [length_spell_of_list hl _ hmem hrecurs hdepth]
      omega

/-! ## The depth that a count selects -/

theorem depthFor_le (l : Layout) (count d : Nat) : l.depthFor count d ≤ d := by
  induction d with
  | zero => exact Nat.le_refl 0
  | succ d ih =>
    rw [depthFor]
    split
    · exact Nat.le_refl _
    · exact Nat.le_succ_of_le ih

theorem minimum_depthFor (l : Layout) {count d d' : Nat} (hd : d' ≤ d)
    (h : (l.branch d').minimum ≤ count) :
    d' ≤ l.depthFor count d ∧ (l.branch (l.depthFor count d)).minimum ≤ count := by
  induction d with
  | zero =>
    obtain rfl := Nat.le_zero.1 hd
    exact ⟨Nat.le_refl 0, h⟩
  | succ d ih =>
    rw [depthFor]
    split
    · next hd' => exact ⟨hd, hd'⟩
    · next hd' =>
      rcases Nat.eq_or_lt_of_le hd with rfl | hlt
      · exact absurd h hd'
      · exact ih (Nat.le_of_lt_succ hlt)

theorem minimum_le_of_admits {b : Branch} {n : Nat} (h : b.admits n) : b.minimum ≤ n := by
  cases b <;> simp [Branch.admits] at h <;> simp [Branch.minimum, h]

theorem fixed_le_minimum (l : Layout) (d : Nat) : l.fixed d ≤ (l.branch d).minimum := by
  unfold branch
  split
  · split
    · exact Nat.le_add_right _ _
    · exact Nat.le_refl _
  · exact Nat.le_refl _

theorem filter_eq_of_fixed_eq {d d' : Nat} (hd : d ≤ d') (h : l.fixed d = l.fixed d') :
    (l.parameters.filter fun p => p.depth ≤ d && !p.recurs) =
      l.parameters.filter fun p => p.depth ≤ d' && !p.recurs := by
  refine (List.monotone_filter_right l.parameters fun p hp => ?_).eq_of_length h
  simp only [Bool.and_eq_true, decide_eq_true_eq] at hp ⊢
  exact ⟨Nat.le_trans hp.1 hd, hp.2⟩

/-- **Whatever a depth spells, the depth that its length selects spells too.** That depth takes as
many values, one for each of its parameters and what is left for the list. -/
theorem spells_eq (hl : l.Fits ts) {d : Nat} {e : List Nat} (hd : d ≤ l.deepest)
    (he : Spells d l.parameters e) :
    (l.branch (l.depthFor e.length l.deepest)).admits e.length ∧
      l.fixed (l.depthFor e.length l.deepest) ≤ e.length ∧
      e = spell (l.depthFor e.length l.deepest)
        (e.length - l.fixed (l.depthFor e.length l.deepest)) l.parameters := by
  have hadmits : (l.branch d).admits e.length := (admits_iff hl d _).2 ⟨e, he, rfl⟩
  obtain ⟨hle, hminimum⟩ := minimum_depthFor l hd (minimum_le_of_admits hadmits)
  obtain ⟨copies, -, hspell⟩ := (spells_iff hl.one_list).1 he
  generalize l.depthFor e.length l.deepest = depth at hle hminimum ⊢
  have hfixed : l.fixed depth ≤ e.length := Nat.le_trans (fixed_le_minimum l depth) hminimum
  rcases branch_cases hl d with ⟨-, hdeeper⟩ | ⟨list, hmem, hrecurs, -, hall, hbranch⟩
  · -- no list up to `d`: the selected depth has no further parameters and leaves a list empty
    have hlength : e.length = l.fixed d := by
      rw [hspell]
      exact length_spell_of_deeper copies hdeeper
    have heq : l.fixed d = l.fixed depth := by
      have := l.fixed_mono hle
      omega
    refine ⟨?_, hfixed, ?_⟩
    · have := fixed_le_minimum l depth
      cases hb : l.branch depth <;> rw [hb] at hminimum this <;>
        simp [Branch.admits, Branch.minimum] at hminimum this ⊢ <;> omega
    · have hleft : e.length - l.fixed depth = 0 := by omega
      rw [hleft, hspell, spell_eq_map fun p hp hp' => Or.inl (hdeeper p hp hp'),
        filter_eq_of_fixed_eq hle heq, spell_eq_map fun p hp hp' => Or.inr rfl]
  · -- the list lies within `d`: no parameter lies deeper, so both depths have all of them
    have hspell' : e = spell depth copies l.parameters := by
      rw [hspell]
      refine spell_congr fun p hp => ?_
      simp [Parameter.share, hall p hp, Nat.le_trans (hall p hp) hle]
    have hlength : e.length = l.fixed depth + copies := by
      rw [hspell']
      exact length_spell_of_list hl copies hmem hrecurs fun p hp => Nat.le_trans (hall p hp) hle
    refine ⟨?_, hfixed, ?_⟩
    · rw [hbranch depth hle] at hminimum ⊢
      simpa [Branch.admits, Branch.minimum] using hminimum
    · rw [show e.length - l.fixed depth = copies by omega]
      exact hspell'

/-! ## Dealing -/

end Layout

namespace Slot

variable {α : Type}

/-- The values of a slot. -/
def values : Slot α → List α
  | single value => [value]
  | list dealt => dealt

@[simp] theorem values_single (value : α) : (single value).values = [value] := rfl

@[simp] theorem values_list (dealt : List α) : (list dealt).values = dealt := rfl

end Slot

namespace Layout

variable {α : Type}

/-- The slots deal `values` to the parameters of the expansion `e`. -/
structure Assigns (l : Layout) (e : List Nat) (values : List α) (slots : List (Parameter × Slot α)) :
    Prop where
  /-- Each value goes to the parameter that stands in its place in the expansion. -/
  owners : slots.flatMap (fun s => List.replicate s.2.values.length s.1.index) = e
  /-- The values are dealt in order, and all of them. -/
  all : slots.flatMap (fun s => s.2.values) = values
  /-- The parameters come in order, each at most once. -/
  ordered : slots.Pairwise fun s s' => s.1.index < s'.1.index
  /-- A list has a slot that is not empty, any other parameter one value. -/
  shaped : ∀ s ∈ slots, s.1 ∈ l.parameters ∧
    if s.1.recurs then ∃ vs, vs ≠ [] ∧ s.2 = .list vs else ∃ v, s.2 = .single v
  /-- The parameters that have a slot are those of the expansion. -/
  covered : ∀ p ∈ l.parameters, p ∈ slots.map (·.1) ↔ p.index ∈ e

/-! ### Dealing -/

section Deal

variable {copies : Nat} {p : Parameter} {ps : List Parameter} {values : List α}

theorem deal_cons_single (hrecurs : p.recurs = false) (value : α) :
    deal copies (p :: ps) (value :: values) = (p, .single value) :: deal copies ps values := by
  simp [deal, hrecurs]

theorem deal_cons_none (hrecurs : p.recurs) : deal 0 (p :: ps) values = deal 0 ps values := by
  simp [deal, hrecurs]

theorem deal_cons_list (hrecurs : p.recurs) (hpos : 0 < copies) (hle : copies ≤ values.length) :
    deal copies (p :: ps) values =
      (p, .list (values.take copies)) :: deal copies ps (values.drop copies) := by
  simp only [deal, hrecurs, if_true]
  split
  · next hnil =>
    have htake : (values.take copies).length = copies := List.length_take_of_le hle
    rw [hnil, List.length_nil] at htake
    omega
  · rfl

/-- The slots of lists hold `copies` values, those of other parameters one. -/
def DealtShape (copies : Nat) (s : Parameter × Slot α) : Prop :=
  if s.1.recurs then ∃ vs, vs.length = copies ∧ s.2 = .list vs else ∃ v, s.2 = .single v

theorem dealtShape_list {dealt : List α} (hrecurs : p.recurs) (hlength : dealt.length = copies) :
    DealtShape copies (p, .list dealt) := by
  rw [DealtShape, if_pos hrecurs]
  exact ⟨dealt, hlength, rfl⟩

theorem dealtShape_single (hrecurs : p.recurs = false) (value : α) :
    DealtShape copies (p, .single value) := by
  rw [DealtShape, if_neg (by simp [hrecurs])]
  exact ⟨value, rfl⟩

theorem DealtShape.length_values {s : Parameter × Slot α} (h : DealtShape copies s) :
    s.2.values.length = if s.1.recurs then copies else 1 := by
  unfold DealtShape at h
  split at h
  · next hrecurs =>
    obtain ⟨vs, rfl, hslot⟩ := h
    simp [hslot, hrecurs]
  · next hrecurs =>
    obtain ⟨v, hslot⟩ := h
    simp [hslot, hrecurs]

/-- A slot is filled, unless it is a list's and there are no copies. -/
theorem DealtShape.filled {s : Parameter × Slot α} (h : DealtShape copies s)
    (hcopies : s.1.recurs = false ∨ 0 < copies) :
    if s.1.recurs then ∃ vs, vs ≠ [] ∧ s.2 = .list vs else ∃ v, s.2 = .single v := by
  unfold DealtShape at h
  split at h
  · next hrecurs =>
    obtain ⟨vs, rfl, hslot⟩ := h
    rw [if_pos hrecurs]
    refine ⟨vs, ?_, hslot⟩
    rintro rfl
    simp [hrecurs] at hcopies
  · next hrecurs =>
    rw [if_neg hrecurs]
    exact h

/-- What is dealt to parameters that are all filled, `copies` values to a list: a slot for each
that takes a value. -/
theorem deal_spec
    (h : values.length =
      (ps.flatMap fun p => List.replicate (if p.recurs then copies else 1) p.index).length) :
    (deal copies ps values).map (·.1) = ps.filter (fun p => !p.recurs || 0 < copies) ∧
      (deal copies ps values).flatMap (fun s => s.2.values) = values ∧
      ∀ s ∈ deal copies ps values, DealtShape copies s := by
  induction ps generalizing values with
  | nil =>
    obtain rfl : values = [] := by simpa using h
    simp [deal]
  | cons p ps ih =>
    rw [List.flatMap_cons, List.length_append, List.length_replicate] at h
    cases hrecurs : p.recurs
    · -- a single value
      rw [hrecurs, if_neg (by decide)] at h
      obtain _ | ⟨value, values⟩ := values
      · rw [List.length_nil] at h
        omega
      obtain ⟨hparameters, hvalues, hshape⟩ := @ih values (by rw [List.length_cons] at h; omega)
      rw [deal_cons_single hrecurs]
      exact ⟨by simp [hrecurs, hparameters], by simp [hvalues],
        List.forall_mem_cons.2 ⟨dealtShape_single hrecurs value, hshape⟩⟩
    · rw [hrecurs, if_pos rfl] at h
      rcases Nat.eq_zero_or_pos copies with rfl | hpos
      · -- a list that is left empty
        obtain ⟨hparameters, hvalues, hshape⟩ := @ih values (by omega)
        rw [deal_cons_none hrecurs]
        exact ⟨by simp [hrecurs, hparameters], hvalues, hshape⟩
      · obtain ⟨hparameters, hvalues, hshape⟩ :=
          @ih (values.drop copies) (by rw [List.length_drop]; omega)
        have hle : copies ≤ values.length := by omega
        rw [deal_cons_list hrecurs hpos hle]
        exact ⟨by simp [hpos, hparameters], by simp [hvalues], List.forall_mem_cons.2
          ⟨dealtShape_list hrecurs (List.length_take_of_le hle), hshape⟩⟩

/-- A parameter without a slot is a list that takes nothing. -/
theorem owners_filter (copies : Nat) (ps : List Parameter) :
    ((ps.filter fun p => !p.recurs || 0 < copies).flatMap fun p =>
        List.replicate (if p.recurs then copies else 1) p.index) =
      ps.flatMap fun p => List.replicate (if p.recurs then copies else 1) p.index := by
  induction ps with
  | nil => rfl
  | cons p ps ih =>
    rcases Nat.eq_zero_or_pos copies with rfl | hpos <;> cases hrecurs : p.recurs <;>
      simp_all

end Deal

/-! ## Arranging -/

variable {l : Layout} {ts : List Term}

theorem minimum_mono (hl : l.Fits ts) {d d' : Nat} (h : d ≤ d') :
    (l.branch d).minimum ≤ (l.branch d').minimum := by
  rcases branch_cases hl d with ⟨hbranch, -⟩ | ⟨list, -, -, -, -, hbranch⟩
  · rw [hbranch]
    exact Nat.le_trans (l.fixed_mono h) (fixed_le_minimum l d')
  · rw [hbranch d (Nat.le_refl d), hbranch d' h]
    exact Nat.add_le_add_right (l.fixed_mono h) _

theorem le_longest_of_admits (hl : l.Fits ts) {d n m : Nat} (hd : d ≤ l.deepest)
    (h : (l.branch d).admits n) (hm : l.longest = some m) : n ≤ m := by
  rcases branch_cases hl d with ⟨hbranch, -⟩ | ⟨list, -, -, -, -, hbranch⟩
  · rw [hbranch] at h
    have hn : n = l.fixed d := by simpa [Branch.admits] using h
    have hfixed := fixed_le_minimum l l.deepest
    have := l.fixed_mono hd
    have hm' : (l.branch l.deepest).minimum = m := by
      unfold longest at hm
      split at hm
      · next hb =>
        rw [hb]
        simpa [Branch.minimum] using hm
      · simp at hm
    omega
  · simp [longest, hbranch _ hd] at hm

theorem arrange_ok_iff (hl : l.Fits ts) {values : List α} {slots : List (Parameter × Slot α)} :
    l.arrange values = .ok slots ↔
      (l.branch (l.depthFor values.length l.deepest)).admits values.length ∧
        slots = deal (values.length - l.fixed (l.depthFor values.length l.deepest))
          (l.parameters.filter (·.depth ≤ l.depthFor values.length l.deepest)) values := by
  have hdepth := l.depthFor_le values.length l.deepest
  have hselect : arrange.select l values values.length = .ok slots ↔
      (l.branch (l.depthFor values.length l.deepest)).admits values.length ∧
        slots = deal (values.length - l.fixed (l.depthFor values.length l.deepest))
          (l.parameters.filter (·.depth ≤ l.depthFor values.length l.deepest)) values := by
    simp only [arrange.select]
    split
    · next hadmits => simp [hadmits, eq_comm]
    · next hadmits => simp [hadmits]
  by_cases hadmits : (l.branch (l.depthFor values.length l.deepest)).admits values.length
  · have hshort : ¬values.length < l.shortest := Nat.not_lt.2 <|
      Nat.le_trans (minimum_mono hl (Nat.zero_le _)) (minimum_le_of_admits hadmits)
    have hlong (m : Nat) (hm : l.longest = some m) : ¬m < values.length :=
      Nat.not_lt.2 (le_longest_of_admits hl hdepth hadmits hm)
    simp only [arrange, if_neg hshort]
    split
    · next m hm => rw [if_neg (hlong m hm), hselect]
    · exact hselect
  · simp only [hadmits, Bool.false_eq_true, false_and, iff_false] at hselect ⊢
    cases hlong : l.longest <;> simp only [arrange, hlong] <;> split_ifs <;> simp [hselect]

theorem index_mem_spell_iff (hl : l.Fits ts) {depth copies : Nat} {p : Parameter}
    (hp : p ∈ l.parameters) :
    p.index ∈ spell depth copies l.parameters ↔ p.share depth copies ≠ 0 := by
  simp only [spell, List.mem_flatMap, List.mem_replicate]
  constructor
  · rintro ⟨q, hq, hshare, hindex⟩
    rwa [hl.index_injective hp hq hindex]
  · exact fun hshare => ⟨p, hp, hshare, rfl⟩

theorem spell_eq_flatMap_filter (depth copies : Nat) (ps : List Parameter) :
    spell depth copies ps = (ps.filter (·.depth ≤ depth)).flatMap fun p =>
      List.replicate (if p.recurs then copies else 1) p.index := by
  induction ps with
  | nil => rfl
  | cons p ps ih =>
    unfold spell at ih ⊢
    rw [List.flatMap_cons, ih]
    by_cases hdepth : p.depth ≤ depth <;> simp [Parameter.share, hdepth]

/-- What is dealt to the parameters up to a depth is an assignment of what the depth spells. -/
theorem assigns_deal (hl : l.Fits ts) {depth copies : Nat} {values : List α}
    (h : values.length = (spell depth copies l.parameters).length) :
    l.Assigns (spell depth copies l.parameters) values
      (deal copies (l.parameters.filter (·.depth ≤ depth)) values) := by
  rw [spell_eq_flatMap_filter] at h
  obtain ⟨hparameters, hvalues, hshape⟩ := deal_spec h
  generalize deal copies (l.parameters.filter (·.depth ≤ depth)) values = slots at *
  have hmem (p : Parameter) : p ∈ slots.map (·.1) ↔
      p ∈ l.parameters ∧ p.depth ≤ depth ∧ (p.recurs = false ∨ 0 < copies) := by
    rw [hparameters]
    simp [and_comm, and_left_comm]
  refine ⟨?_, hvalues, ?_, ?_, ?_⟩
  · have howners : slots.flatMap (fun s => List.replicate s.2.values.length s.1.index) =
        (slots.map (·.1)).flatMap fun p =>
          List.replicate (if p.recurs then copies else 1) p.index := by
      rw [List.flatMap_map]
      refine List.flatMap_congr fun s hs => ?_
      rw [(hshape s hs).length_values]
    rw [howners, hparameters, spell_eq_flatMap_filter, owners_filter]
  · have hsublist : (slots.map (·.1)).Sublist l.parameters := by
      rw [hparameters]
      exact List.filter_sublist.trans List.filter_sublist
    have hordered : (slots.map (·.1)).Pairwise fun p q => p.index < q.index :=
      hl.pairwise_index.sublist hsublist
    rw [List.pairwise_map] at hordered
    exact hordered
  · intro s hs
    obtain ⟨hp, -, hcopies⟩ := (hmem s.1).1 (List.mem_map.2 ⟨s, hs, rfl⟩)
    exact ⟨hp, (hshape s hs).filled hcopies⟩
  · intro p hp
    rw [hmem p, index_mem_spell_iff hl hp]
    by_cases hdepth : p.depth ≤ depth <;> cases hrecurs : p.recurs <;>
      simp [Parameter.share, hp, hdepth, hrecurs, Nat.pos_iff_ne_zero]

/-- Arranged values are assigned to what the selected depth spells. The depth takes no more values
than there are, and each of its parameters that takes one value has it. -/
theorem arrange_sound (hl : l.Fits ts) {values : List α} {slots : List (Parameter × Slot α)}
    (h : l.arrange values = .ok slots) :
    l.fixed (l.depthFor values.length l.deepest) ≤ values.length ∧
      l.Assigns (spell (l.depthFor values.length l.deepest)
        (values.length - l.fixed (l.depthFor values.length l.deepest)) l.parameters) values slots ∧
      ∀ p ∈ l.parameters, p.depth ≤ l.depthFor values.length l.deepest → p.recurs = false →
        p ∈ slots.map (·.1) := by
  obtain ⟨hadmits, rfl⟩ := (arrange_ok_iff hl).1 h
  obtain ⟨e, he, hlength⟩ := (admits_iff hl _ _).1 hadmits
  obtain ⟨-, hfixed, hspell⟩ := spells_eq hl (depthFor_le _ _ _) he
  rw [hlength] at hfixed hspell
  have hassigns := @assigns_deal _ _ _ hl _ _ values (hspell ▸ hlength.symm)
  refine ⟨hfixed, hassigns, fun p hp hdepth hrecurs => ?_⟩
  rw [hassigns.covered p hp, index_mem_spell_iff hl hp]
  simp [Parameter.share, hdepth, hrecurs]

end Layout

namespace Usage

variable {text : String} {r r' : Registry} {u : Usage}

theorem level_of_compile (h : compile text r = .ok u r') : Level false u.terms := by
  obtain ⟨k, k', hreads⟩ := terms_of_compile h
  exact hreads.level

theorem fits_of_compile (h : compile text r = .ok u r') : u.layout.Fits u.terms := by
  obtain ⟨outline, r₁, options, r₂, layout, switches, -, -, hlayout, -, rfl⟩ := compile_ok_iff.1 h
  exact Layout.fits_of_ofTerms (level_of_compile h) hlayout

theorem expandsAll_iff (h : compile text r = .ok u r') {e : List Nat} :
    Term.ExpandsAll u.terms 0 e ↔
      ∃ d, d ≤ u.layout.deepest ∧ Spells d u.layout.parameters e := by
  have hfits := fits_of_compile h
  rw [(level_of_compile h).expandsAll_iff_spells hfits.numbered, hfits.deepest]
  simp

/-- **Arranging values is expanding terms.** Values can be arranged exactly when some expansion of
the terms has their number. There is only one such expansion, and arranging assigns the values to
it. The depth that is selected takes no more values than there are, and none of its parameters goes
without its value. -/
theorem arrange_iff_expansion (h : compile text r = .ok u r') {α : Type} (values : List α) :
    u.layout.parameters.map Parameter.index = List.range (Term.widthOf u.terms) ∧
    ((∃ slots, u.layout.arrange values = .ok slots) ↔
      ∃ e, Term.ExpandsAll u.terms 0 e ∧ e.length = values.length) ∧
    (∀ e e', Term.ExpandsAll u.terms 0 e → Term.ExpandsAll u.terms 0 e' →
      e.length = values.length → e'.length = values.length → e = e') ∧
    ∀ slots, u.layout.arrange values = .ok slots →
      (∀ e, Term.ExpandsAll u.terms 0 e → e.length = values.length →
        u.layout.Assigns e values slots) ∧
      u.layout.fixed (u.layout.depthFor values.length u.layout.deepest) ≤ values.length ∧
      ∀ p ∈ u.layout.parameters, p.depth ≤ u.layout.depthFor values.length u.layout.deepest →
        p.recurs = false → p ∈ slots.map (·.1) := by
  have hl := fits_of_compile h
  -- every expansion of this length is what the selected depth spells
  have hspell (e : List Nat) (he : Term.ExpandsAll u.terms 0 e) (hlength : e.length = values.length) :
      (u.layout.branch (u.layout.depthFor values.length u.layout.deepest)).admits values.length ∧
        e = spell (u.layout.depthFor values.length u.layout.deepest)
          (values.length - u.layout.fixed (u.layout.depthFor values.length u.layout.deepest))
          u.layout.parameters := by
    obtain ⟨d, hd, he⟩ := (expandsAll_iff h).1 he
    obtain ⟨hadmits, -, heq⟩ := Layout.spells_eq hl hd he
    rw [hlength] at hadmits heq
    exact ⟨hadmits, heq⟩
  refine ⟨?_, ⟨?_, ?_⟩, ?_, ?_⟩
  · have hlength : u.layout.parameters.length = Term.widthOf u.terms := by
      rw [length_of_numbered hl.numbered, (level_of_compile h).length_leavesOf]
    rw [map_index_of_numbered hl.numbered, hlength, List.range_eq_range']
  · rintro ⟨slots, hslots⟩
    obtain ⟨hadmits, -⟩ := (Layout.arrange_ok_iff hl).1 hslots
    obtain ⟨e, he, hlength⟩ := (Layout.admits_iff hl _ _).1 hadmits
    exact ⟨e, (expandsAll_iff h).2 ⟨_, Layout.depthFor_le _ _ _, he⟩, hlength⟩
  · rintro ⟨e, he, hlength⟩
    exact ⟨_, (Layout.arrange_ok_iff hl).2 ⟨(hspell e he hlength).1, rfl⟩⟩
  · intro e e' he he' hlength hlength'
    rw [(hspell e he hlength).2, (hspell e' he' hlength').2]
  · intro slots hslots
    obtain ⟨hfixed, hassigns, hnone⟩ := Layout.arrange_sound hl hslots
    refine ⟨fun e he hlength => ?_, hfixed, hnone⟩
    rw [(hspell e he hlength).2]
    exact hassigns

/-- A list inside a segment. -/
theorem arrange_listInSegment :
    ∃ u r', compile "INT [STR...]" Registry.standard = .ok u r' ∧
      (∃ slots, u.layout.arrange ["1", "a", "b"] = .ok slots) ∧
      ∃ e, Term.ExpandsAll u.terms 0 e ∧ e.length = 3 := by
  obtain ⟨u, r', hcompile, harranged⟩ :=
    exists_of_succeedsWith (compile "INT [STR...]" Registry.standard)
      (fun u _ => (u.layout.arrange ["1", "a", "b"]).isOk) (by decide +kernel)
  have hslots := failing_isOk_iff.1 harranged
  exact ⟨u, r', hcompile, hslots, (arrange_iff_expansion hcompile _).2.1.1 hslots⟩

end Usage

end Synopsis
