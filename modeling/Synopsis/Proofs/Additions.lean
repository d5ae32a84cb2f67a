import Synopsis.Proofs.Switches
import Synopsis.Proofs.Tails

/-!
# Adding the options of another usage

**Theorem (`Usage.conservative_of_addOptions`).** Adding options to a usage reinterprets no command
line that the usage accepts: the scan is the same, and the invocation comes to an environment that
differs under the keys of the added options at most, or fails because one of them is missing. No
expression may be on the command line, since it could refer to what an added option is bound to.

A spelling that the usage has means the same in the merged table, and a scan that succeeds looks up
no other. So the added options do not occur. They are bound to their defaults, which are values and
not texts to be read, so they do not claim the file topic either. What the other parameters are
bound to is settled as before.
-/

namespace Synopsis

/-! ## A larger table -/

namespace SwitchTable

/-- The table has the other one's spellings, with the same meaning. -/
def Includes (table' table : SwitchTable) : Prop :=
  ∀ spelling switch, table.get? spelling = some switch → table'.get? spelling = some switch

variable {table table' : SwitchTable} {token : Token} {tailStart : Option Nat} {index : Nat}

theorem ReadsLong.mono {long : List Char} {use : SwitchUse} (hle : table'.Includes table)
    (h : table.ReadsLong long use) : table'.ReadsLong long use := by
  cases h with
  | bare hname hswitch => exact .bare hname (hle _ _ hswitch)
  | attached hname hswitch harity => exact .attached hname (hle _ _ hswitch) harity

theorem ReadsStack.mono {cs : List Char} {uses : List SwitchUse} (hle : table'.Includes table)
    (h : table.ReadsStack cs uses) : table'.ReadsStack cs uses := by
  induction h with
  | done => exact .done
  | flag hc hswitch harity _ ih => exact .flag hc (hle _ _ hswitch) harity ih
  | bare hc hswitch harity hvalue => exact .bare hc (hle _ _ hswitch) harity hvalue
  | attached hc hswitch harity hvalue => exact .attached hc (hle _ _ hswitch) harity hvalue

theorem ReadsUses.mono {uses : List SwitchUse} (hle : table'.Includes table)
    (h : table.ReadsUses token uses) : table'.ReadsUses token uses := by
  cases h with
  | long hname htext huse => exact .long hname htext (huse.mono hle)
  | stack hname htext hc huses => exact .stack hname htext hc (huses.mono hle)

/-- **A larger table reads alike** what a table reads. -/
theorem ReadsPieces.mono {tokens : List Token} {pieces : List Piece} (hle : table'.Includes table)
    (h : table.ReadsPieces tailStart index tokens pieces) :
    table'.ReadsPieces tailStart index tokens pieces := by
  induction h with
  | done => exact .done
  | option huses hvalue _ ih => exact .option (huses.mono hle) hvalue ih
  | optionWithValue huses hvalue _ ih => exact .optionWithValue (huses.mono hle) hvalue ih
  | positional htoken hindex _ ih => exact .positional htoken hindex ih
  | tail htoken hindex => exact .tail htoken hindex

/-- Options added under other keys leave the meaning of every spelling. -/
theorem includes_of_build_append {options added : List OptionSpec}
    (h : build options = .ok table) (h' : build (options ++ added) = .ok table')
    (hfresh : ∀ o ∈ added, o.key ∉ options.map OptionSpec.key) : table'.Includes table := by
  intro spelling switch hget
  unfold build at h h'
  rw [List.flatMap_append, List.foldlM_append, h] at h'
  replace h' : (added.flatMap OptionSpec.switches).foldlM claim table = .ok table' := h'
  obtain ⟨hlast, hheld, -⟩ := claims_of_foldlM h'
  obtain ⟨o, ho, hmem⟩ := exists_of_get?_build h hget
  -- an added option that claimed it would have the key of `o`
  have hnone : (added.flatMap OptionSpec.switches).filter (·.1 = spelling) = [] := by
    refine List.filter_eq_nil_iff.2 fun entry hentry heq => ?_
    obtain ⟨o', ho', hmem'⟩ := List.mem_flatMap.1 hentry
    obtain rfl : entry.1 = spelling := by simpa using heq
    have hkey := hheld entry hentry switch hget
    rw [OptionSpec.key_of_mem_switches hmem, OptionSpec.key_of_mem_switches hmem'] at hkey
    exact hfresh o' ho' (hkey ▸ List.mem_map_of_mem ho)
  rw [hlast, hnone]
  exact hget

end SwitchTable

/-! ## Options that do not occur -/

/-- A default that is a value and not a text to be read. -/
def OptionSpec.Unread (o : OptionSpec) : Prop := ∀ text, o.default ≠ some (.raw text)

/-- The complaint that the option is missing. -/
inductive OptionSpec.Missing (o : OptionSpec) : InvokeError → Prop
  | option : Missing o (.bind (.missingOption o.primary))
  | choice : Missing o (.bind (.missingChoice o.primary (o.negatives.head?.getD "")))

theorem OptionSpec.MadeOf.unread {boolean count : ValueType} {o : OptionSpec}
    {src : List (Bool × Declaration)} (h : MadeOf boolean count o src) : o.Unread := by
  intro text
  cases h with
  | one =>
    simp only [ofDeclaration, implicitDefault]
    split <;> simp
  | two => simp [join]

theorem filterMapM_append {m : Type → Type} [Monad m] [LawfulMonad m] {α β : Type}
    (f : α → m (Option β)) (as as' : List α) :
    (as ++ as').filterMapM f = do
      let bs ← as.filterMapM f
      let bs' ← as'.filterMapM f
      return bs ++ bs' := by
  induction as with
  | nil => simp
  | cons a as ih =>
    simp only [List.cons_append, List.filterMapM_cons, ih, bind_assoc]
    refine bind_congr fun b => ?_
    cases b <;> simp

namespace Invocation

variable {g : Gathered} {o : OptionSpec} {c : Option String}

/-- A binding that stands for no occurrence. -/
structure Defaulted (keys : List String) (b : Binding) : Prop where
  key : b.key ∈ keys
  explicit : b.explicit = false
  ready : b.IsReady

/-- An option that does not occur is bound to what reads no text, is not bound, or is missing. -/
theorem settleOption_of_absent (hnone : g.occurrences o.key = []) (ho : o.Unread) :
    (∃ b : Option Binding, settleOption Dict.empty g o c = .ok (b, c) ∧
        ∀ b' ∈ b, Defaulted [o.key] b') ∨
      ∃ e, o.Missing e ∧ settleOption Dict.empty g o c = .error e := by
  simp only [settleOption, hnone, settleAbsent, Dict.get?_empty, Option.none_or]
  cases hdefault : o.default with
  | some d =>
    cases d with
    | raw text => exact absurd hdefault (ho text)
    | value v =>
      refine Or.inl ⟨_, rfl, ?_⟩
      rintro _ ⟨⟩
      exact ⟨List.mem_singleton_self _, rfl, ⟨_, rfl⟩⟩
  | none =>
    dsimp only
    split_ifs
    · exact Or.inr ⟨_, .choice, rfl⟩
    · refine Or.inl ⟨_, rfl, ?_⟩
      rintro _ ⟨⟩
      exact ⟨List.mem_singleton_self _, rfl, ⟨_, rfl⟩⟩
    · exact Or.inr ⟨_, .option, rfl⟩
    · exact Or.inl ⟨none, rfl, by simp⟩

/-- Options that do not occur are bound without claiming anything, or one of them is missing. -/
theorem settleOptions_of_absent {added : List OptionSpec}
    (hnone : ∀ o ∈ added, g.occurrences o.key = []) (hunread : ∀ o ∈ added, o.Unread) :
    (∃ bs, added.filterMapM (settleOption Dict.empty g) c = .ok (bs, c) ∧
        ∀ b ∈ bs, Defaulted (added.map OptionSpec.key) b) ∨
      ∃ o ∈ added, ∃ e, o.Missing e ∧
        added.filterMapM (settleOption Dict.empty g) c = .error e := by
  induction added with
  | nil => exact Or.inl ⟨[], rfl, by simp⟩
  | cons o added ih =>
    rw [List.forall_mem_cons] at hnone hunread
    rw [List.filterMapM_cons]
    rcases settleOption_of_absent hnone.1 hunread.1 with ⟨b, hb, hfirst⟩ | ⟨e, hmissing, he⟩
    · rcases ih hnone.2 hunread.2 with ⟨bs, hbs, hall⟩ | ⟨o', ho', e, hmissing, he⟩
      · have hrest : ∀ b ∈ bs, Defaulted ((o :: added).map OptionSpec.key) b := fun b hb =>
          ⟨List.mem_cons_of_mem _ (hall b hb).key, (hall b hb).explicit, (hall b hb).ready⟩
        cases b with
        | none => exact Or.inl ⟨bs, losing_bind_ok_iff.2 ⟨none, c, hb, hbs⟩, hrest⟩
        | some b =>
          refine Or.inl ⟨b :: bs, losing_bind_ok_iff.2 ⟨some b, c, hb, ?_⟩, ?_⟩
          · exact losing_bind_ok_iff.2 ⟨bs, c, hbs, rfl⟩
          · have hdefaulted := hfirst b rfl
            refine List.forall_mem_cons.2 ⟨⟨?_, hdefaulted.explicit, hdefaulted.ready⟩, hrest⟩
            rw [List.mem_singleton.1 hdefaulted.key]
            exact List.mem_cons_self
      · refine Or.inr ⟨o', List.mem_cons_of_mem _ ho', e, hmissing, ?_⟩
        refine losing_bind_error_iff.2 (Or.inr ⟨b, c, hb, ?_⟩)
        cases b with
        | none => exact he
        | some b => exact losing_bind_error_iff.2 (Or.inl he)
    · exact Or.inr ⟨o, List.mem_cons_self, e, hmissing, losing_bind_error_iff.2 (Or.inl he)⟩

/-! ## Settling without defaults of the host -/

theorem settleDefaults_empty (ps : List Parameter) :
    ps.filterMapM (settleDefault Dict.empty) c = .ok ([], c) := by
  induction ps with
  | nil => rfl
  | cons p ps ih =>
    rw [List.filterMapM_cons]
    exact losing_bind_ok_iff.2 ⟨none, c, rfl, ih⟩

theorem settle_empty_ok_iff {u : Usage} {bindings : List Binding} {c' : Option String} :
    settle u Dict.empty g c = .ok (bindings, c') ↔
      ∃ options c₁ arranged positionals,
        u.options.filterMapM (settleOption Dict.empty g) c = .ok (options, c₁) ∧
        u.layout.arrange g.positionals = .ok arranged ∧
        (arranged.mapM fun (p, slot) => settlePositional p slot) c₁ = .ok (positionals, c') ∧
        bindings = options ++ positionals := by
  rw [settle_ok_iff]
  constructor
  · rintro ⟨-, options, c₁, arranged, positionals, c₂, defaulted, hoptions, harrange, hpositionals,
      hdefaulted, rfl⟩
    rw [settleDefaults_empty] at hdefaulted
    obtain ⟨rfl, rfl⟩ := by simpa using hdefaulted
    exact ⟨options, c₁, arranged, positionals, hoptions, harrange, hpositionals, List.append_nil _⟩
  · rintro ⟨options, c₁, arranged, positionals, hoptions, harrange, hpositionals, rfl⟩
    exact ⟨rfl, options, c₁, arranged, positionals, c', [], hoptions, harrange, hpositionals,
      settleDefaults_empty _, (List.append_nil _).symm⟩

theorem settle_error_of_options {u : Usage} {e : InvokeError}
    (h : u.options.filterMapM (settleOption Dict.empty g) c = .error e) :
    settle u Dict.empty g c = .error e := by
  have hstray : (Dict.empty : Dict DefaultValue).keys.find? (isStray u) = none := rfl
  simp only [settle, hstray]
  exact losing_bind_error_iff.2 (Or.inl h)

end Invocation

/-! ## The usage with more options -/

namespace Usage

/-- The usage `m` is `u` with options added that are not among its own. -/
structure Extends (m u : Usage) (added : List OptionSpec) : Prop where
  options : m.options = u.options ++ added
  layout : m.layout = u.layout
  switches : m.switches.Includes u.switches
  fresh : ∀ o ∈ added, o.key ∉ u.options.map OptionSpec.key
  optionKeys : ∀ o ∈ added, IsOptionKey o.key
  unread : ∀ o ∈ added, o.Unread

theorem appendOptions_ok {options added options' : List OptionSpec}
    (h : appendOptions options added = .ok options') :
    options' = options ++ added ∧ ∀ o ∈ added, o.key ∉ options.map OptionSpec.key := by
  induction added generalizing options with
  | nil =>
    obtain rfl : options = options' := by simpa [appendOptions] using h
    simp
  | cons o added ih =>
    rw [appendOptions] at h
    split_ifs at h with htaken
    obtain ⟨rfl, hfresh⟩ := ih h
    refine ⟨by simp, List.forall_mem_cons.2 ⟨?_, fun o' ho' hmem => hfresh o' ho' ?_⟩⟩
    · intro hmem
      obtain ⟨first, hfirst, hkey⟩ := List.mem_map.1 hmem
      exact htaken (List.any_eq_true.2 ⟨first, hfirst, by simpa using hkey⟩)
    · rw [List.map_append]
      exact List.mem_append_left _ hmem

variable {text text' : String} {r r₁ r' r₁' : Registry} {u p m : Usage} {added : List OptionSpec}

theorem addOptions_ok_iff {other : Usage} {origin : Origin} :
    u.addOptions other origin = .ok m ↔ ∃ options switches,
      appendOptions u.options (other.options.map fun o => { o with origin }) = .ok options ∧
      SwitchTable.build options = .ok switches ∧ m = { u with options, switches } := by
  simp only [addOptions, tableOf, failing_bind_ok_iff, failing_mapError_ok_iff,
    failing_pure_ok_iff, exists_and_left]

theorem extends_of_addOptions {origin : Origin} (hu : compile text r = .ok u r₁)
    (hp : compile text' r' = .ok p r₁') (hm : u.addOptions p origin = .ok m) :
    m.Extends u (p.options.map fun o => { o with origin }) := by
  obtain ⟨options, switches, hoptions, htable, rfl⟩ := addOptions_ok_iff.1 hm
  obtain ⟨rfl, hfresh⟩ := appendOptions_ok hoptions
  obtain ⟨outline, r₂, boolean, count, -, -, hdeclares⟩ := declares_of_compile hp
  refine ⟨rfl, rfl, ?_, hfresh, ?_, ?_⟩
  · exact SwitchTable.includes_of_build_append (build_of_compile hu) htable hfresh
  · refine List.forall_mem_map.2 fun o ho => ?_
    have hkey : IsOptionKey o.key := isOptionKey_of_compile hp ho
    exact hkey
  · refine List.forall_mem_map.2 fun o ho => ?_
    obtain ⟨src, hmade, -⟩ := hdeclares.made ho
    exact hmade.unread

namespace Extends

variable {tokens : List Token} {g g' : Gathered}

/-- **No command line is reinterpreted.** -/
theorem scan_eq (h : m.Extends u added) (herror : (u.scan tokens).error = none) :
    m.scan tokens = u.scan tokens := by
  obtain ⟨pieces, hpieces, hoccurrences⟩ := SwitchTable.exists_pieces herror
  have hscan : u.scan tokens = ⟨pieces.flatMap Piece.occurrences, none⟩ :=
    SwitchTable.scanFrom_iff.2 ⟨pieces, hpieces, rfl⟩
  have hpieces' : m.switches.ReadsPieces m.layout.tailStart 0 tokens pieces := by
    rw [h.layout]
    exact hpieces.mono h.switches
  rw [hscan]
  exact SwitchTable.scanFrom_iff.2 ⟨pieces, hpieces', rfl⟩

theorem option?_eq (h : m.Extends u added) {key : String} {o : OptionSpec}
    (ho : u.option? key = some o) : m.option? key = some o := by
  unfold option? at ho ⊢
  rw [h.options, List.find?_append, ho]
  rfl

/-- What one usage gathers the larger one does, and only for the options of the first. -/
theorem add_eq (h : m.Extends u added) {occurrence : Occurrence}
    (hadd : g.add u occurrence = .ok g')
    (hnamed : ∀ entry ∈ g.named, entry.1 ∈ u.options.map OptionSpec.key) :
    g.add m occurrence = .ok g' ∧ ∀ entry ∈ g'.named, entry.1 ∈ u.options.map OptionSpec.key := by
  cases occurrence with
  | named key spelling payload =>
    unfold Gathered.add at hadd ⊢
    cases hoption : u.option? key with
    | none => simp [hoption] at hadd
    | some o =>
      simp only [hoption] at hadd
      simp only [h.option?_eq hoption]
      refine ⟨hadd, ?_⟩
      split_ifs at hadd
      obtain rfl := Except.ok.inj hadd
      intro entry hentry
      rcases List.mem_append.1 hentry with hentry | hentry
      · exact hnamed entry hentry
      · rw [List.mem_singleton.1 hentry]
        have hkey : o.key = key := by simpa using List.find?_some hoption
        exact List.mem_map.2 ⟨o, List.mem_of_find?_eq_some hoption, hkey⟩
  | positional index payload =>
    refine ⟨hadd, ?_⟩
    simp only [Gathered.add] at hadd
    split_ifs at hadd
    obtain rfl := Except.ok.inj hadd
    exact hnamed
  | tail tokens =>
    refine ⟨hadd, ?_⟩
    obtain rfl := Except.ok.inj hadd
    exact hnamed

theorem fed (h : m.Extends u added) {occurrences : List Occurrence} {inv : Invocation}
    (hfed : occurrences.foldlM Invocation.feed { usage := u, gathered := some g } = .ok inv)
    (hnamed : ∀ entry ∈ g.named, entry.1 ∈ u.options.map OptionSpec.key) :
    ∃ g', inv = { usage := u, gathered := some g' } ∧
      occurrences.foldlM Invocation.feed { usage := m, gathered := some g } =
        .ok { usage := m, gathered := some g' } ∧
      ∀ entry ∈ g'.named, entry.1 ∈ u.options.map OptionSpec.key := by
  induction occurrences generalizing g with
  | nil =>
    obtain rfl := by simpa using hfed
    exact ⟨g, rfl, rfl, hnamed⟩
  | cons occurrence occurrences ih =>
    rw [List.foldlM_cons, failing_bind_ok_iff] at hfed
    obtain ⟨inv₁, hfirst, hrest⟩ := hfed
    obtain ⟨_, g₁, ⟨⟩, hadd, rfl⟩ := Invocation.feed_ok_iff.1 hfirst
    obtain ⟨hadd', hnamed₁⟩ := h.add_eq hadd hnamed
    obtain ⟨g', rfl, hrest', hnamed'⟩ := ih hrest hnamed₁
    refine ⟨g', rfl, ?_, hnamed'⟩
    rw [List.foldlM_cons, failing_bind_ok_iff]
    exact ⟨_, Invocation.feed_ok_iff.2 ⟨g, g₁, rfl, hadd', rfl⟩, hrest'⟩

theorem occurrences_eq_nil (h : m.Extends u added)
    (hnamed : ∀ entry ∈ g.named, entry.1 ∈ u.options.map OptionSpec.key) :
    ∀ o ∈ added, g.occurrences o.key = [] := by
  intro o ho
  rw [Gathered.occurrences, List.map_eq_nil_iff, List.filter_eq_nil_iff]
  intro entry hentry hkey
  have hkey' : entry.1 = o.key := by simpa using hkey
  exact h.fresh o ho (hkey' ▸ hnamed entry hentry)

open Invocation in
/-- **Added options are settled beside the others**, or one of them is missing. -/
theorem settle (h : m.Extends u added) (habsent : ∀ o ∈ added, g.occurrences o.key = [])
    {bindings : List Binding} {claimed : Option String}
    (hsettle : settle u Dict.empty g none = .ok (bindings, claimed)) :
    (∃ options bs positionals, bindings = options ++ positionals ∧
        Invocation.settle m Dict.empty g none = .ok (options ++ bs ++ positionals, claimed) ∧
        ∀ b ∈ bs, Defaulted (added.map OptionSpec.key) b) ∨
      ∃ o ∈ added, ∃ e, o.Missing e ∧ Invocation.settle m Dict.empty g none = .error e := by
  obtain ⟨options, c₁, arranged, positionals, hoptions, harrange, hpositionals, rfl⟩ :=
    settle_empty_ok_iff.1 hsettle
  have happend := filterMapM_append (settleOption Dict.empty g) u.options added
  rw [← h.options] at happend
  rcases settleOptions_of_absent (c := c₁) habsent h.unread with
    ⟨bs, hbs, hdefaulted⟩ | ⟨o, ho, e, hmissing, he⟩
  · refine Or.inl ⟨options, bs, positionals, rfl, ?_, hdefaulted⟩
    refine settle_empty_ok_iff.2
      ⟨options ++ bs, c₁, arranged, positionals, ?_, ?_, hpositionals, rfl⟩
    · rw [happend, losing_bind_ok_iff]
      exact ⟨options, c₁, hoptions, losing_bind_ok_iff.2 ⟨bs, c₁, hbs, rfl⟩⟩
    · rw [h.layout]
      exact harrange
  · refine Or.inr ⟨o, ho, e, hmissing, settle_error_of_options ?_⟩
    rw [happend, losing_bind_error_iff]
    exact Or.inr ⟨options, c₁, hoptions, losing_bind_error_iff.2 (Or.inl he)⟩

end Extends

end Usage

/-! ## What further bindings leave -/

namespace Invocation

theorem get?_foldl_enterReady_of_ne {bs : List Binding} {key : String}
    (hbs : ∀ b ∈ bs, b.key ≠ key) (d : Dict Value) :
    (bs.foldl enterReady d).get? key = d.get? key := by
  induction bs generalizing d with
  | nil => rfl
  | cons b bs ih =>
    rw [List.forall_mem_cons] at hbs
    rw [List.foldl_cons, ih hbs.2]
    unfold enterReady
    split
    · rw [Dict.get?_insert, if_neg hbs.1]
    · rfl

theorem get?_foldl_enterReady_congr (bs : List Binding) {key : String} {d d' : Dict Value}
    (hd : d.get? key = d'.get? key) :
    (bs.foldl enterReady d).get? key = (bs.foldl enterReady d').get? key := by
  induction bs generalizing d d' with
  | nil => exact hd
  | cons b bs ih =>
    rw [List.foldl_cons, List.foldl_cons]
    apply ih
    unfold enterReady
    split
    · rw [Dict.get?_insert, Dict.get?_insert, hd]
    · exact hd

theorem get?_direct_append {first bs last : List Binding} {tail : Option (List Token)}
    {key : String} (hbs : ∀ b ∈ bs, b.key ≠ key) :
    (direct (first ++ bs ++ last) tail).get? key = (direct (first ++ last) tail).get? key := by
  have hfold : ((first ++ bs ++ last).foldl enterReady Dict.empty).get? key =
      ((first ++ last).foldl enterReady Dict.empty).get? key := by
    rw [List.foldl_append, List.foldl_append, List.foldl_append]
    exact get?_foldl_enterReady_congr last (get?_foldl_enterReady_of_ne hbs _)
  rw [direct_eq, direct_eq]
  cases tail with
  | none => exact hfold
  | some tokens => rw [Dict.get?_insert, Dict.get?_insert, hfold]

theorem filter_explicit_append {first bs last : List Binding} {keys : List String}
    (hbs : ∀ b ∈ bs, Defaulted keys b) :
    (first ++ bs ++ last).filter (·.explicit) = (first ++ last).filter (·.explicit) := by
  have hnone : bs.filter (·.explicit) = [] := by
    refine List.filter_eq_nil_iff.2 fun b hb => ?_
    simp [(hbs b hb).explicit]
  rw [List.filter_append, List.filter_append, List.filter_append, hnone, List.append_nil]

end Invocation

namespace Usage

variable {text text' : String} {r r₁ r' r₁' : Registry} {u p m : Usage} {added : List OptionSpec}
  {tokens : List Token} {evaluator : Evaluator} {e : Environment}

theorem Extends.outcome (h : m.Extends u added) (hu : u.Keyed) (hl : u.layout.Aliased)
    {g : Gathered} (habsent : ∀ o ∈ added, g.occurrences o.key = [])
    (hnamed : ∀ key, ∀ payload ∈ g.occurrences key, payload.Plain)
    (hpositionals : ∀ payload ∈ g.positionals, payload.Plain)
    (henv : (Invocation.outcome { usage := u } g evaluator).result = .ok e) :
    (∃ e', (Invocation.outcome { usage := m } g evaluator).result = .ok e' ∧
        ∀ key, (∀ o ∈ added, o.key ≠ key) →
          e'.get? key = e.get? key ∧ e'.isExplicit key = e.isExplicit key) ∨
      ∃ o ∈ added, ∃ e, o.Missing e ∧
        (Invocation.outcome { usage := m } g evaluator).result = .error e := by
  obtain ⟨bindings, claimed, s, explicit, hsettle, -⟩ := Invocation.resolved_of_outcome henv
  replace hsettle : Invocation.settle u Dict.empty g none = .ok (bindings, claimed) := hsettle
  have hready : ∀ b ∈ bindings, b.IsReady := by
    obtain ⟨arranged, options, positionals, defaulted, hsettled, rfl⟩ :=
      Invocation.settled_of_settle hsettle
    exact hsettled.isReady hu hnamed hpositionals
  rw [@Invocation.outcome_of_isReady { usage := u } _ _ _ hsettle hready] at henv
  obtain rfl := Except.ok.inj henv
  rcases h.settle habsent hsettle with
    ⟨options, bs, positionals, rfl, hsettle', hbs⟩ | ⟨o, ho, e, hmissing, he⟩
  · have hready' : ∀ b ∈ options ++ bs ++ positionals, b.IsReady := by
      intro b hb
      rw [List.append_assoc, List.mem_append, List.mem_append] at hb
      rcases hb with hb | hb | hb
      · exact hready b (List.mem_append_left _ hb)
      · exact (hbs b hb).ready
      · exact hready b (List.mem_append_right _ hb)
    rw [@Invocation.outcome_of_isReady { usage := m } _ _ _ hsettle' hready',
      Invocation.filter_explicit_append hbs]
    refine Or.inl ⟨_, rfl, fun key hkey => ?_⟩
    have hother (key : String) (hkey : ∀ o ∈ added, o.key ≠ key) : ∀ b ∈ bs, b.key ≠ key := by
      intro b hb heq
      obtain ⟨o, ho, hoption⟩ := List.mem_map.1 (hbs b hb).key
      exact hkey o ho (hoption.trans heq)
    show (Invocation.publish m.layout _ _).get? key = _ ∧
      (Invocation.publish m.layout _ _).isExplicit key = _
    rw [h.layout]
    refine Invocation.publish_agree hl (fun p _ => ?_) (fun p _ => Iff.rfl) ?_ Iff.rfl
    · refine Invocation.get?_direct_append (hother _ fun o ho => ?_)
      exact (h.optionKeys o ho).ne_positionalKey p.index
    · exact Invocation.get?_direct_append (hother key hkey)
  · refine Or.inr ⟨o, ho, e, hmissing, ?_⟩
    simp [Invocation.outcome, he]

/-- **Adding options is a conservative extension.** Where a command line without expressions invokes
a usage, it is scanned alike with the options of another usage added. It then comes to an
environment that agrees, in values and in marks, under every key that is not of an added option, or
to the complaint that one of the added options is missing. -/
theorem conservative_of_addOptions {origin : Origin} (hu : compile text r = .ok u r₁)
    (hp : compile text' r' = .ok p r₁') (hm : u.addOptions p origin = .ok m)
    (htokens : ∀ token ∈ tokens, token.kind ≠ .positionalExpression ∧ token.kind ≠ .namedExpression)
    (henv : (u.invoke tokens evaluator).result = .ok e) :
    m.scan tokens = u.scan tokens ∧
    ((∃ e', (m.invoke tokens evaluator).result = .ok e' ∧
        ∀ key, (∀ o ∈ p.options, o.key ≠ key) →
          e'.get? key = e.get? key ∧ e'.isExplicit key = e.isExplicit key) ∨
      ∃ o ∈ p.options,
        (m.invoke tokens evaluator).result = .error (.bind (.missingOption o.primary)) ∨
        (m.invoke tokens evaluator).result =
          .error (.bind (.missingChoice o.primary (o.negatives.head?.getD "")))) := by
  have hextends := extends_of_addOptions hu hp hm
  obtain ⟨herror, g, hfed⟩ := fed_of_invoke henv
  have hscan := hextends.scan_eq herror
  rw [invoke_eq_of_fed hfed herror] at henv
  obtain ⟨g', hinv, hfed', hnamed⟩ := hextends.fed hfed (by simp)
  obtain rfl : g = g' := by simpa using hinv
  have hplain : ∀ occurrence ∈ (u.scan tokens).occurrences, occurrence.Plain := by
    obtain ⟨pieces, hpieces, hoccurrences⟩ := SwitchTable.exists_pieces herror
    rw [show (u.scan tokens).occurrences = _ from hoccurrences]
    refine hpieces.plain_of_tokens fun token htoken => ?_
    rw [Token.payload, if_neg (by simpa using htokens token htoken)]
    trivial
  obtain ⟨hoccurrences, hpositionals⟩ := (after_of_fed hfed).plain hplain
  rw [← hscan] at hfed' herror
  refine ⟨hscan, ?_⟩
  rw [invoke_eq_of_fed hfed' herror]
  rcases hextends.outcome (keyed_of_compile hu) (aliased_of_compile hu)
      (hextends.occurrences_eq_nil hnamed) hoccurrences hpositionals henv with
    ⟨e', he', hagree⟩ | ⟨_, hadded, complaint, hmissing, he⟩
  · refine Or.inl ⟨e', he', fun key hkey => hagree key ?_⟩
    exact List.forall_mem_map.2 hkey
  · obtain ⟨o, ho, rfl⟩ := List.mem_map.1 hadded
    refine Or.inr ⟨o, ho, ?_⟩
    cases hmissing with
    | option => exact Or.inl he
    | choice => exact Or.inr he

/-- A stack of short options, where a platform option is added and not supplied. -/
theorem conservative_stack :
    ∃ u r₁ p r₁' m e e', compile "[-a] [--level|-l[=INT]] STR..." Registry.standard = .ok u r₁ ∧
      compile "[--color=STR] [--verbose|-v]" Registry.standard = .ok p r₁' ∧
      u.addOptions p (.platform "host") = .ok m ∧
      (u.invoke [⟨.name, "-al"⟩, ⟨.positionalValue, "x"⟩] Evaluator.unsupported).result = .ok e ∧
      (m.invoke [⟨.name, "-al"⟩, ⟨.positionalValue, "x"⟩] Evaluator.unsupported).result = .ok e' ∧
      ∀ key, (∀ o ∈ p.options, o.key ≠ key) →
        e'.get? key = e.get? key ∧ e'.isExplicit key = e.isExplicit key := by
  obtain ⟨u, r₁, hu, hcheck⟩ :=
    exists_of_succeedsWith (compile "[-a] [--level|-l[=INT]] STR..." Registry.standard)
      (fun u _ => succeedsWith (compile "[--color=STR] [--verbose|-v]" Registry.standard) fun p _ =>
        (u.addOptions p (.platform "host")).toOption.any fun m =>
          (u.invoke [⟨.name, "-al"⟩, ⟨.positionalValue, "x"⟩] Evaluator.unsupported).result.isOk &&
          (m.invoke [⟨.name, "-al"⟩, ⟨.positionalValue, "x"⟩] Evaluator.unsupported).result.isOk)
      (by decide +kernel)
  obtain ⟨p, r₁', hp, hcheck⟩ := exists_of_succeedsWith _ _ hcheck
  simp only [failing_any_toOption_iff, Bool.and_eq_true, failing_isOk_iff] at hcheck
  obtain ⟨m, hm, ⟨e, he⟩, e', he'⟩ := hcheck
  obtain ⟨-, hagrees | ⟨o, -, hmissing | hmissing⟩⟩ :=
    conservative_of_addOptions hu hp hm (by decide) he
  · obtain ⟨e', he', hagree⟩ := hagrees
    exact ⟨u, r₁, p, r₁', m, e, e', hu, hp, hm, he, he', hagree⟩
  · simp [hmissing] at he'
  · simp [hmissing] at he'

end Usage

end Synopsis
