import Synopsis.Proofs.Requests

/-!
# Names are read by their longest registered ending

A name that is not registered is taken apart, one segment after another, until what is left stands
for a type. What is left may be registered, but may also be a name that was taken apart before, as
the registry keeps what it has synthesized.

**Theorem (`Registry.resolves_longestEnding`).** That makes no difference. The name of a type is
resolved exactly if some ending of it was registered, to a type that goes back to the primitive of
the longest such ending, through all endings of the name that are longer (`ValueType.Descends`). If
none was, the error has the whole name, and the call might as well not have been made.

The invariant (`Registry.Chained`) only looks one segment ahead: what stands under the name of a type
is a primitive that was registered there, or is derived from what stands under the rest of the name.
What is derived is no primitive, so a name that is derived was not registered, and the first
primitive on the way down stands under the longest ending that was.
-/

namespace Synopsis

/-! ## Endings of names -/

/-- An upper case letter, and what follows it before the next one. -/
def IsSegment (cs : List Char) : Prop := ∃ c ds, cs = c :: ds ∧ c.isUpper ∧ ∀ d ∈ ds, ¬d.isUpper

/-- The name ends in `ending`, from an upper case letter on. -/
def IsEnding (ending name : String) : Prop :=
  ending.toList <:+ name.toList ∧ ending.toList.head?.any Char.isUpper

instance (ending name : String) : Decidable (IsEnding ending name) :=
  inferInstanceAs (Decidable (_ ∧ _))

/-- No ending that starts at an upper case letter starts among other characters. -/
theorem suffix_of_suffix_append {cs ds es : List Char} (hds : ∀ d ∈ ds, ¬d.isUpper)
    (hupper : cs.head?.any Char.isUpper) (h : cs <:+ ds ++ es) : cs <:+ es := by
  induction ds with
  | nil => exact h
  | cons d ds ih =>
    rw [List.forall_mem_cons] at hds
    rw [List.cons_append, List.suffix_cons_iff] at h
    rcases h with rfl | h
    · exact absurd (by simpa using hupper) hds.1
    · exact ih hds.2 h

theorem isEnding_append_iff {lead rest ending : String} (hlead : IsSegment lead.toList) :
    IsEnding ending (lead ++ rest) ↔ ending = lead ++ rest ∨ IsEnding ending rest := by
  obtain ⟨c, ds, hsegment, hc, hds⟩ := hlead
  unfold IsEnding
  rw [String.toList_append, hsegment]
  constructor
  · intro ⟨hsuffix, hupper⟩
    rw [List.cons_append, List.suffix_cons_iff] at hsuffix
    rcases hsuffix with hwhole | hsuffix
    · refine Or.inl (String.toList_injective ?_)
      rw [hwhole, String.toList_append, hsegment, List.cons_append]
    · exact Or.inr ⟨suffix_of_suffix_append hds hupper hsuffix, hupper⟩
  · intro h
    rcases h with rfl | ⟨hsuffix, hupper⟩
    · rw [String.toList_append, hsegment]
      exact ⟨List.suffix_rfl, by simpa using hc⟩
    · exact ⟨hsuffix.trans (List.suffix_append _ _), hupper⟩

theorem isEnding_self {name : String} (h : isTypeName name) : IsEnding name name := by
  obtain ⟨c, cs, hname, hupper, -⟩ := Registry.head_of_isTypeName h
  exact ⟨List.suffix_rfl, by simpa [hname] using hupper⟩

theorem IsEnding.length_le {ending name : String} (h : IsEnding ending name) :
    ending.length ≤ name.length := by
  rw [← String.length_toList, ← String.length_toList]
  exact h.1.length_le

/-- A segment starts where the text does, and goes on to the next upper case letter. -/
theorem nameSegments_eq_cons {cs segment : List Char} {rest : List (List Char)}
    (h : nameSegments cs = segment :: rest) :
    ∃ c ds, segment = c :: ds ∧ cs.head? = some c ∧ ∀ d ∈ ds, ¬d.isUpper := by
  induction cs generalizing segment rest with
  | nil => simp [nameSegments] at h
  | cons c cs ih =>
    rw [nameSegments] at h
    cases hsegments : nameSegments cs with
    | nil =>
      rw [hsegments] at h
      obtain ⟨rfl, -⟩ := List.cons.inj h
      exact ⟨c, [], rfl, rfl, by simp⟩
    | cons first others =>
      obtain ⟨d, ds, rfl, -, hds⟩ := ih hsegments
      simp only [hsegments] at h
      by_cases hd : d.isUpper
      · rw [if_pos (by simpa using hd)] at h
        obtain ⟨rfl, -⟩ := List.cons.inj h
        exact ⟨c, [], rfl, rfl, by simp⟩
      · rw [if_neg (by simpa using hd)] at h
        obtain ⟨rfl, -⟩ := List.cons.inj h
        exact ⟨c, d :: ds, rfl, rfl, List.forall_mem_cons.2 ⟨hd, hds⟩⟩

theorem isSegment_of_nameSegments {name : String} {segment : List Char} {rest : List (List Char)}
    (h : nameSegments name.toList = segment :: rest) (hname : isTypeName name) :
    IsSegment segment := by
  obtain ⟨c, ds, rfl, hhead, hds⟩ := nameSegments_eq_cons h
  obtain ⟨c', cs, hcs, hupper, -⟩ := Registry.head_of_isTypeName hname
  rw [hcs] at hhead
  obtain rfl : c' = c := by simpa using hhead
  exact ⟨c', ds, rfl, hupper, hds⟩

/-! ## Chains of derived types -/

/-- The type goes back to the primitive `p` of the ending of its name, through a derived type for
every segment that comes before. -/
inductive ValueType.Descends (p : Primitive) (ending : String) : String → ValueType → Prop
  | found : Descends p ending ending (.primitive p)
  | derived {lead rest : String} {base : ValueType} (hlead : IsSegment lead.toList)
      (hrest : isTypeName rest) (h : Descends p ending rest base) :
      Descends p ending (lead ++ rest) (.derived (lead ++ rest) lead base)

theorem ValueType.Descends.canonicalName_eq {p : Primitive} {ending name : String} {t : ValueType}
    (h : t.Descends p ending name) : t.canonicalName = p.name := by
  induction h with
  | found => rfl
  | derived _ _ _ ih => exact ih

namespace Registry

/-- The type is a primitive, or derived from what stands under the rest of the name. -/
inductive Reads (r : Registry) : String → ValueType → Prop
  | primitive {name : String} {p : Primitive} : Reads r name (.primitive p)
  | derived {lead rest : String} {base : ValueType} (hlead : IsSegment lead.toList)
      (hrest : isTypeName rest) (hbase : r.get? rest = some base) :
      Reads r (lead ++ rest) (.derived (lead ++ rest) lead base)

/-- The primitives stand under the names that they were registered under, and every type that stands
under the name of a type is read off that name. -/
structure Chained (R : String → Primitive → Prop) (r : Registry) : Prop where
  orderly : r.Orderly
  primitives : ∀ name p, r.get? name = some (.primitive p) ↔ R name p
  reads : ∀ name t, isTypeName name → r.get? name = some t → r.Reads name t

section Chained

variable {R : String → Primitive → Prop} {r r' : Registry} {name : String} {t : ValueType}
  {p : Primitive}

theorem Reads.later (h : r.Reads name t) (hlater : Later r r') : r'.Reads name t := by
  cases h with
  | primitive => exact .primitive
  | derived hlead hrest hbase => exact .derived hlead hrest (hlater.get? _ _ hbase)

namespace Chained

/-! ## Steps -/

theorem keep (h : r.Chained R) (ht : ∀ p, t ≠ .primitive p)
    (hreads : isTypeName t.name → r.Reads t.name t) : (r.keep t).2.Chained R := by
  have hlater := (grows_keep r t).later
  refine ⟨h.orderly.keep t, fun name p => ?_, fun name found hname hfound => ?_⟩
  · rw [← h.primitives]
    constructor
    · intro hget
      rcases get?_keep h.orderly.closed hget with hold | ⟨heq, -⟩
      · exact hold
      · exact absurd heq.symm (ht p)
    · exact hlater.get? _ _
  · rcases get?_keep h.orderly.closed hfound with hold | ⟨rfl, rfl⟩
    · exact (h.reads _ _ hname hold).later hlater
    · exact (hreads hname).later hlater

theorem keep_other (h : r.Chained R) (ht : ∀ p, t ≠ .primitive p) (hname : ¬isTypeName t.name) :
    (r.keep t).2.Chained R :=
  h.keep ht fun hvalid => absurd hvalid hname

theorem register (h : r.Chained R) (hp : r.register p = .ok r') :
    r'.Chained fun name q => R name q ∨ q = p ∧ name ∈ p.name :: p.aliases := by
  have hlater := later_of_register hp
  have hget {name : String} {found : ValueType} :=
    @get?_of_register r r' name found p h.orderly.closed hp
  refine ⟨h.orderly.register hp, fun name q => ?_, fun name t hname ht => ?_⟩
  · rw [hget, h.primitives, ValueType.primitive.injEq]
  · rcases hget.1 ht with hold | ⟨rfl, -⟩
    · exact (h.reads name t hname hold).later hlater
    · exact .primitive

theorem derive (h : r.Chained R) {segments : List (List Char)}
    (hsegments : nameSegments segments.flatten = segments)
    (hvalid : segments ≠ [] → isTypeName (String.ofList segments.flatten))
    (hderived : r.derive segments = some (t, r')) : r'.Chained R := by
  induction segments generalizing r' t with
  | nil => simp [Registry.derive] at hderived
  | cons segment rest ih =>
    have hname := hvalid (List.cons_ne_nil _ _)
    have hlead := isSegment_of_nameSegments (by rwa [String.toList_ofList]) hname
    have htail := isTypeName_tail hsegments hname
    rcases derive_cons_eq_some_iff.1 hderived with ⟨-, rfl⟩ |
      ⟨-, base, r₁, derived, hbase, rfl, rfl, rfl⟩
    · exact h
    · have hne : rest ≠ [] := by
        rintro rfl
        simp [Registry.derive] at hbase
      have hbase' := (get?_of_derive h.orderly.closed hbase).2
      refine (ih (nameSegments_tail hsegments).1 htail hbase).keep (by simp) fun _ => ?_
      rw [List.flatten_cons, String.ofList_append]
      exact .derived (by rwa [String.toList_ofList]) (htail hne) hbase'

/-- Where nothing is derived, no ending of the name stands for a type. -/
theorem get?_ending_of_derive (r : Registry) {segments : List (List Char)}
    (hsegments : nameSegments segments.flatten = segments)
    (hvalid : segments ≠ [] → isTypeName (String.ofList segments.flatten))
    (hderived : r.derive segments = none) {ending : String}
    (hending : IsEnding ending (String.ofList segments.flatten)) : r.get? ending = none := by
  induction segments with
  | nil =>
    obtain ⟨hsuffix, hupper⟩ := hending
    rw [String.toList_ofList, List.flatten_nil, List.suffix_nil] at hsuffix
    simp [hsuffix] at hupper
  | cons segment rest ih =>
    have hname := hvalid (List.cons_ne_nil _ _)
    have hlead := isSegment_of_nameSegments (by rwa [String.toList_ofList]) hname
    have htail := isTypeName_tail hsegments hname
    rw [List.flatten_cons, String.ofList_append,
      isEnding_append_iff (by rwa [String.toList_ofList])] at hending
    simp only [Registry.derive, String.ofList_append] at hderived
    cases hget : r.get? (String.ofList segment ++ String.ofList rest.flatten) with
    | some found => simp [hget] at hderived
    | none =>
      simp only [hget, Option.map_eq_none_iff] at hderived
      rcases hending with rfl | hending
      · exact hget
      · exact ih (nameSegments_tail hsegments).1 htail hderived hending

/-- **The name of a type is resolved exactly if an ending of it stands for a type.** Otherwise the
registry stays as it was. -/
theorem resolve (h : r.Chained R) (hname : isTypeName name) :
    (Registry.resolve name r = .error (.unknown name) r ∧
        ∀ ending, IsEnding ending name → r.get? ending = none) ∨
      ∃ t r', Registry.resolve name r = .ok t r' ∧ r'.Chained R ∧ r'.get? name = some t := by
  have hflatten := flatten_nameSegments name.toList
  have hsegments : nameSegments (nameSegments name.toList).flatten = nameSegments name.toList := by
    rw [hflatten]
  have hvalid : isTypeName (String.ofList (nameSegments name.toList).flatten) := by
    rwa [hflatten, String.ofList_toList]
  cases hget : r.get? name with
  | some found => exact Or.inr ⟨found, r, resolve_of_get? hget, h, hget⟩
  | none =>
    cases hderived : r.derive (nameSegments name.toList) with
    | none =>
      refine Or.inl ⟨?_, fun ending hending => ?_⟩
      · simp [Registry.resolve, hget, hname, hderived]
      · refine get?_ending_of_derive r hsegments (fun _ => hvalid) hderived ?_
        rwa [hflatten, String.ofList_toList]
    | some derived =>
      obtain ⟨t, r'⟩ := derived
      have hrun : Registry.resolve name r = .ok t r' := by
        simp [Registry.resolve, hget, hname, hderived]
      exact Or.inr ⟨t, r', hrun, h.derive hsegments (fun _ => hvalid) hderived,
        (get?_of_resolve h.orderly.closed hrun).2⟩

theorem after_resolve (h : r.Chained R) (name : String) :
    (stateAfter (Registry.resolve name r)).Chained R := by
  by_cases hname : isTypeName name
  · rcases h.resolve hname with ⟨hrun, -⟩ | ⟨t, r', hrun, h', -⟩
    · rwa [hrun]
    · rwa [hrun]
  · rwa [stateAfter_resolve hname]

theorem after_union (h : r.Chained R) (names : List String) :
    (stateAfter (Registry.union names r)).Chained R := by
  have hnames (names : List String) : ∀ r : Registry, r.Chained R →
      (stateAfter (names.mapM Registry.resolve r)).Chained R := by
    induction names with
    | nil => exact fun r h => h
    | cons name names ih =>
      intro r h
      rw [List.mapM_cons]
      refine stateAfter_bind_of (motive := fun r : Registry => r.Chained R) (h.after_resolve name)
        fun t r₁ _ h₁ => ?_
      exact stateAfter_bind_of (motive := fun r : Registry => r.Chained R) (ih r₁ h₁)
        fun ts r₂ _ h₂ => h₂
  rw [union_eq]
  refine stateAfter_bind_of (motive := fun r : Registry => r.Chained R) (hnames names r h)
    fun ts r₁ _ h₁ => ?_
  rw [unite_eq]
  cases rejection? (membersOf ts) with
  | some e => exact h₁
  | none =>
    show (stateAfter (findOrKeep (.union (membersOf ts)) r₁)).Chained R
    cases hget : r₁.get? (ValueType.union (membersOf ts)).name with
    | some found =>
      rw [findOrKeep_ok_iff.2 (Or.inl ⟨hget, rfl⟩)]
      exact h₁
    | none =>
      rw [findOrKeep_ok_iff.2 (Or.inr ⟨hget, rfl⟩)]
      exact h₁.keep_other (by simp) (not_isTypeName_alternatives _)

end Chained

/-! ## Calls -/

/-- The calls have registered the primitive, and `name` is its name or one of its aliases. -/
def Registers (r : Registry) (calls : List Call) (name : String) (p : Primitive) : Prop :=
  (.register p, .type (.primitive p)) ∈ r.history calls ∧ name ∈ p.name :: p.aliases

theorem registers_cons {call : Call} {calls : List Call} :
    r.Registers (call :: calls) name p ↔
      (call = .register p ∧ (r.answer call).1 = .type (.primitive p) ∧ name ∈ p.name :: p.aliases) ∨
        (r.answer call).2.Registers calls name p := by
  unfold Registers
  rw [history, List.mem_cons, Prod.mk.injEq, eq_comm, eq_comm (a := Reply.type _), or_and_right,
    and_assoc]

theorem chained_empty : empty.Chained fun _ _ => False :=
  ⟨orderly_empty, by simp [get?_empty], by simp [get?_empty]⟩

/-- **A call leaves a registry chained**, for what was registered before and what it registers. -/
theorem Chained.answer (h : r.Chained R) {call : Call} (hcall : call.AsksIn IsPlainWord) :
    (r.answer call).2.Chained fun name p => R name p ∨ call = .register p ∧
      (r.answer call).1 = .type (.primitive p) ∧ name ∈ p.name :: p.aliases := by
  -- only a registration gives a name to a primitive
  have hother {r' : Registry} (h' : r'.Chained R) (hne : ∀ p, call ≠ .register p) :
      r'.Chained fun name p => R name p ∨ call = .register p ∧
        (r.answer call).1 = .type (.primitive p) ∧ name ∈ p.name :: p.aliases := by
    simpa [hne] using h'
  cases call with
  | register p =>
    cases hp : r.register p with
    | ok r' =>
      rw [answer_of_registered hp]
      have h' := h.register hp
      refine ⟨h'.orderly, fun name q => ?_, h'.reads⟩
      rw [h'.primitives, Call.register.injEq, Reply.type.injEq, ValueType.primitive.injEq]
      constructor
      · rintro (hold | ⟨rfl, hmem⟩)
        · exact Or.inl hold
        · exact Or.inr ⟨rfl, rfl, hmem⟩
      · rintro (hold | ⟨rfl, -, hmem⟩)
        · exact Or.inl hold
        · exact Or.inr ⟨rfl, hmem⟩
    | error e =>
      rw [answer_of_refused hp]
      simpa using h
  | resolve name =>
    refine hother ?_ (by simp)
    rw [Registry.answer, Reply.snd_ofRun]
    exact h.after_resolve name
  | union names =>
    refine hother ?_ (by simp)
    rw [Registry.answer, Reply.snd_ofRun]
    exact h.after_union names
  | choice words =>
    exact hother (h.keep_other (by simp) (not_isTypeName_alternatives _)) (by simp)
  | word text => exact hother (h.keep_other (by simp) hcall.2) (by simp)
  | canonicalName name =>
    refine hother ?_ (by simp)
    rw [Registry.answer, Reply.snd_ofRun]
    exact stateAfter_bind_of (motive := fun r : Registry => r.Chained R) (h.after_resolve name)
      fun t r' _ h' => h'

theorem Chained.after (h : r.Chained R) {calls : List Call}
    (hcalls : ∀ call ∈ calls, call.AsksIn IsPlainWord) :
    (r.after calls).Chained fun name p => R name p ∨ r.Registers calls name p := by
  induction calls generalizing r R with
  | nil => simpa [Registers, history, Registry.after] using h
  | cons call calls ih =>
    rw [List.forall_mem_cons] at hcalls
    show ((r.answer call).2.after calls).Chained _
    simpa only [registers_cons, or_assoc] using ih (h.answer hcalls.1) hcalls.2

/-! ## Down to the longest ending -/

/-- **What stands under the name of a type goes back to the longest ending that was registered.** -/
theorem Chained.descends (h : r.Chained R) (hname : isTypeName name) (hget : r.get? name = some t) :
    ∃ ending p, IsEnding ending name ∧ R ending p ∧ t.Descends p ending name ∧
      ∀ other q, IsEnding other name → R other q → other.length ≤ ending.length := by
  induction hlength : name.length using Nat.strongRecOn generalizing name t with
  | _ n ih =>
    have hreads := h.reads name t hname hget
    cases hreads with
    | @primitive _ p =>
      refine ⟨name, p, isEnding_self hname, (h.primitives name p).1 hget, .found, ?_⟩
      exact fun other q hother _ => hother.length_le
    | @derived lead rest base hlead hrest hbase =>
      have hshorter : rest.length < n := by
        obtain ⟨c, ds, hsegment, -⟩ := hlead
        rw [← hlength, String.length_append, ← String.length_toList (s := lead), hsegment,
          List.length_cons]
        omega
      obtain ⟨ending, p, hending, hp, hdescends, hlongest⟩ := ih _ hshorter hrest hbase rfl
      refine ⟨ending, p, (isEnding_append_iff hlead).2 (Or.inr hending), hp,
        .derived hlead hrest hdescends, ?_⟩
      intro other q hother hq
      rcases (isEnding_append_iff hlead).1 hother with rfl | hother
      · -- a name that was registered stands for a primitive
        rw [(h.primitives _ q).2 hq] at hget
        simp at hget
      · exact hlongest other q hother hq

end Chained

/-- **A name is read by its longest registered ending**, whatever a registry was asked for before, as
long as all words asked for are plain. The name of a type is resolved exactly if an ending of it was
registered. The type then goes back to the primitive of the longest of these endings, through a
derived type for each longer one. Otherwise the error has the whole name, and all later calls are
answered as they would have been without it. -/
theorem resolves_longestEnding {calls : List Call}
    (hcalls : ∀ call ∈ calls, call.AsksIn IsPlainWord) {name : String} (hname : isTypeName name) :
    ((∃ t, (empty.after calls).Resolves name t) ↔
      ∃ ending p, IsEnding ending name ∧ empty.Registers calls ending p) ∧
    (∀ t, (empty.after calls).Resolves name t →
      ∃ ending p, IsEnding ending name ∧ empty.Registers calls ending p ∧
        (∀ other q, IsEnding other name → empty.Registers calls other q →
          other.length ≤ ending.length) ∧
        t.canonicalName = p.name ∧ t.Descends p ending name) ∧
    ((¬∃ t, (empty.after calls).Resolves name t) → ∀ later, ∃ rest,
      empty.history (calls ++ .resolve name :: later) =
        empty.history calls ++ (.resolve name, .error (.unknown name)) :: rest ∧
      empty.history (calls ++ later) = empty.history calls ++ rest) := by
  have h : (empty.after calls).Chained (empty.Registers calls) := by
    simpa using chained_empty.after hcalls
  unfold Resolves
  rcases h.resolve hname with ⟨hrun, hendings⟩ | ⟨t, r', hrun, h', hget⟩
  · have hnone : ¬∃ t r', resolve name (empty.after calls) = .ok t r' := by simp [hrun]
    refine ⟨⟨fun hsome => absurd hsome hnone, ?_⟩, fun t ht => absurd ⟨t, ht⟩ hnone,
      fun _ later => ⟨(empty.after calls).history later, ?_, history_append _ _ _⟩⟩
    · rintro ⟨ending, p, hending, hp⟩
      rw [← h.primitives, hendings ending hending] at hp
      simp at hp
    · rw [history_append, history, answer, hrun]
      rfl
  · obtain ⟨ending, p, hending, hp, hdescends, hlongest⟩ := h'.descends hname hget
    refine ⟨⟨fun _ => ⟨ending, p, hending, hp⟩, fun _ => ⟨t, r', hrun⟩⟩, fun found hfound => ?_,
      fun hnone => absurd ⟨t, r', hrun⟩ hnone⟩
    obtain ⟨r₁, hrun'⟩ := hfound
    obtain ⟨rfl, -⟩ := EStateM.Result.ok.inj (hrun.symm.trans hrun')
    exact ⟨ending, p, hending, hp, hlongest, hdescends.canonicalName_eq, hdescends⟩

/-- A name of which one ending was made before and a shorter one, an alias, was registered. -/
theorem resolves_longestEnding_alias :
    ∃ calls : List Call,
      calls = [.register .int, .resolve "OldInteger", .union ["BigInt", "Int"]] ∧
      (∀ call ∈ calls, call.AsksIn IsPlainWord) ∧ isTypeName "BigOldInteger" ∧
      ∃ t, (empty.after calls).Resolves "BigOldInteger" t ∧
        ∃ ending p, IsEnding ending "BigOldInteger" ∧ empty.Registers calls ending p ∧
          (∀ other q, IsEnding other "BigOldInteger" → empty.Registers calls other q →
            other.length ≤ ending.length) ∧
          t.canonicalName = p.name ∧ t.Descends p ending "BigOldInteger" := by
  have hcalls : ∀ call ∈ ([.register .int, .resolve "OldInteger", .union ["BigInt", "Int"]] :
      List Call), call.AsksIn IsPlainWord := by
    decide
  have hname : isTypeName "BigOldInteger" := by decide
  obtain ⟨hiff, hfound, -⟩ := resolves_longestEnding hcalls hname
  have hending : IsEnding "Integer" "BigOldInteger" := by decide
  obtain ⟨t, ht⟩ := hiff.2 ⟨"Integer", .int, hending, List.mem_cons_self, by decide⟩
  exact ⟨_, rfl, hcalls, hname, t, ht, hfound t ht⟩

end Registry

end Synopsis
