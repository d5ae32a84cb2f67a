import Synopsis.Proofs.Alike
import Synopsis.Proofs.Unions

/-!
# Calls of a registry

A registry starts empty and answers one call after another; also a call that fails may have kept
types.

**Theorem (`Registry.history_coherent`).** Whatever is called, a name that was resolved is resolved
to the same type from then on; all types that are ever handed out, and all they are made of, are the
same if they have the same name; and a registration that fails may as well not have been asked for.

The invariant is that all types stand under their own names, together with everything that they are
made of (`Registry.Whole`). Every call preserves it and forgets nothing that it knew
(`Registry.Later`), and a type that is handed out is held from then on. So after the last call, one
registry holds every type of the history, each under its own name.
-/

namespace Synopsis

/-- A type is part of itself and of what is made of it. -/
inductive ValueType.Part : ValueType → ValueType → Prop
  | self (t : ValueType) : Part t t
  | base {name lead : String} {s base : ValueType} (h : Part s base) :
      Part s (.derived name lead base)
  | member {members : List ValueType} {s t : ValueType} (ht : t ∈ members) (h : Part s t) :
      Part s (.union members)

theorem ValueType.Part.trans {s t u : ValueType} (h : s.Part t) (h' : t.Part u) : s.Part u := by
  induction h' with
  | self => exact h
  | base _ ih => exact .base (ih h)
  | member ht _ ih => exact .member ht (ih h)

namespace Registry

/-! ## What a registry holds -/

/-- The type is found under its own name, and so is all that it is made of. -/
def Holds (r : Registry) (t : ValueType) : Prop :=
  ∀ s : ValueType, s.Part t → r.types.get? s.name = some s

/-- The registry holds all its types, each under its own name. -/
structure Whole (r : Registry) : Prop where
  orderly : r.Orderly
  holds : ∀ name t, r.types.get? name = some t → r.Holds t

/-- What the registry `r` knows `r'` knows, too. -/
structure Later (r r' : Registry) : Prop where
  types : ∀ name t, r.types.get? name = some t → r'.types.get? name = some t
  get? : ∀ name t, r.get? name = some t → r'.get? name = some t

section Holds

variable {r r' r'' : Registry} {name : String} {t : ValueType} {p : Primitive}

theorem Later.refl (r : Registry) : Later r r := ⟨fun _ _ h => h, fun _ _ h => h⟩

theorem Later.trans (h : Later r r') (h' : Later r' r'') : Later r r'' :=
  ⟨fun name t ht => h'.types name t (h.types name t ht),
    fun name t ht => h'.get? name t (h.get? name t ht)⟩

theorem Grows.later (h : Grows r r') : Later r r' := ⟨fun _ _ => h.types, fun _ _ => h.get?⟩

theorem Later.holds (h : Later r r') (ht : r.Holds t) : r'.Holds t :=
  fun s hs => h.types s.name s (ht s hs)

theorem Whole.holds_of_get? (h : r.Whole) (ht : r.get? name = some t) : r.Holds t :=
  h.holds _ t ht

theorem Holds.eq {t' s s' : ValueType} (h : r.Holds t) (h' : r.Holds t') (hs : s.Part t)
    (hs' : s'.Part t') (hname : s.name = s'.name) : s = s' := by
  have hfound := h s hs
  rw [hname, h' s' hs'] at hfound
  exact (Option.some.inj hfound).symm

/-- What is registered hides nothing that was known, as its names are free. -/
theorem later_of_register (hp : r.register p = .ok r') : Later r r' := by
  have hfree := free_of_register hp
  have htypes (name : String) (t : ValueType) (ht : r.types.get? name = some t) :
      (r.add p).types.get? name = some t := by
    have hne : p.name ≠ name := by
      rintro rfl
      rw [(hfree p.name List.mem_cons_self).1] at ht
      simp at ht
    rw [get?_types_add, if_neg hne, ht]
  rw [eq_add_of_register hp]
  refine ⟨htypes, fun name t ht => ?_⟩
  unfold Registry.get? at ht ⊢
  have hused : name ∉ p.aliases := by
    intro hmem
    obtain ⟨htype, halias⟩ := hfree name (List.mem_cons_of_mem _ hmem)
    rw [halias, Option.getD_none, htype] at ht
    simp at ht
  rw [get?_aliases_add, if_neg hused]
  exact htypes _ t ht

theorem get?_of_register (hr : r.Closed) (hp : r.register p = .ok r') :
    r'.get? name = some t ↔
      r.get? name = some t ∨ t = .primitive p ∧ name ∈ p.name :: p.aliases := by
  have hfree := free_of_register hp
  have hself : p.name ∈ p.name :: p.aliases := List.mem_cons_self
  by_cases hmem : name ∈ p.name :: p.aliases
  · have hold : r.get? name = none := by
      unfold get?
      rw [(hfree name hmem).2, Option.getD_none, (hfree name hmem).1]
    have hnew : r'.get? name = some (.primitive p) := by
      have htarget : ((r.add p).aliases.get? name).getD name = p.name := by
        rw [get?_aliases_add, (hfree name hmem).2]
        rcases List.mem_cons.1 hmem with rfl | halias
        · split_ifs <;> rfl
        · rw [if_pos halias, Option.getD_some]
      rw [eq_add_of_register hp, get?, htarget, get?_types_add, if_pos rfl]
    rw [hold, hnew]
    simp [hmem, eq_comm]
  · have hsame : r'.get? name = r.get? name := by
      have halias : name ∉ p.aliases := fun h => hmem (List.mem_cons_of_mem _ h)
      rw [eq_add_of_register hp, get?, get?, get?_aliases_add, if_neg halias, get?_types_add, if_neg]
      intro hkey
      cases htarget : r.aliases.get? name with
      | none =>
        rw [htarget, Option.getD_none] at hkey
        exact hmem (hkey ▸ hself)
      | some target =>
        -- the name of the primitive was free, so no alias stood for it
        have hsome := hr name target htarget
        rw [htarget, Option.getD_some] at hkey
        rw [← hkey, (hfree p.name hself).1] at hsome
        simp at hsome
    rw [hsame]
    simp [hmem]

theorem get?_keep {found : ValueType} (hr : r.Closed) (h : (r.keep t).2.get? name = some found) :
    r.get? name = some found ∨ found = t ∧ name = t.name := by
  cases hkept : r.types.get? t.name with
  | some kept =>
    rw [keep_of_some hkept] at h
    exact Or.inl h
  | none =>
    rw [keep_of_none hkept] at h
    unfold get? at h ⊢
    replace h : (r.types.insert t.name t).get? ((r.aliases.get? name).getD name) = some found := h
    rw [Dict.get?_insert] at h
    split_ifs at h with hkey
    · refine Or.inr ⟨(Option.some.inj h).symm, ?_⟩
      cases halias : r.aliases.get? name with
      | none => simpa [halias] using hkey.symm
      | some target =>
        -- what an alias stands for is there already
        have hsome := hr name target halias
        rw [halias, Option.getD_some] at hkey
        rw [← hkey, hkept] at hsome
        simp at hsome
    · exact Or.inl h

theorem Whole.register (h : r.Whole) (hp : r.register p = .ok r') :
    r'.Whole ∧ r'.Holds (.primitive p) := by
  have hlater := later_of_register hp
  have horderly := h.orderly.register hp
  obtain rfl := eq_add_of_register hp
  have hheld : (r.add p).Holds (.primitive p) := by
    intro s hs
    cases hs
    rw [get?_types_add]
    exact if_pos rfl
  refine ⟨⟨horderly, fun name t ht => ?_⟩, hheld⟩
  rw [get?_types_add] at ht
  split_ifs at ht
  · rw [← Option.some.inj ht]
    exact hheld
  · exact hlater.holds (h.holds name t ht)

/-- What a derived type is made of is held, apart from itself, if its base is. -/
theorem Holds.parts_derived {base s : ValueType} {lead : String} (h : r.Holds base)
    (hs : s.Part (.derived name lead base)) : s = .derived name lead base ∨ r.Holds s := by
  cases hs with
  | self => exact Or.inl rfl
  | base hs => exact Or.inr fun s' hs' => h s' (hs'.trans hs)

/-- What a union is made of is held, apart from itself, if its members are. -/
theorem Holds.parts_union {members : List ValueType} {s : ValueType}
    (h : ∀ t ∈ members, r.Holds t) (hs : s.Part (.union members)) :
    s = .union members ∨ r.Holds s := by
  cases hs with
  | self => exact Or.inl rfl
  | member ht hs => exact Or.inr fun s' hs' => h _ ht s' (hs'.trans hs)

/-- A type may be kept where all that it is made of is held. -/
theorem Whole.keep (h : r.Whole) (ht : ∀ s : ValueType, s.Part t → s = t ∨ r.Holds s) :
    (r.keep t).2.Whole ∧ (r.keep t).2.Holds (r.keep t).1 := by
  have hlater := (grows_keep r t).later
  cases hkept : r.types.get? t.name with
  | some kept =>
    rw [keep_of_some hkept]
    exact ⟨h, h.holds _ kept hkept⟩
  | none =>
    have hheld : (r.keep t).2.Holds t := by
      intro s hs
      rcases ht s hs with rfl | hs'
      · have hfound := types_keep r s
        rwa [keep_of_none hkept] at hfound ⊢
      · exact hlater.types s.name s (hs' s (.self s))
    have hfst : (r.keep t).1 = t := by rw [keep_of_none hkept]
    refine ⟨⟨h.orderly.keep t, fun name t' ht' => ?_⟩, hfst.symm ▸ hheld⟩
    rw [keep_of_none hkept] at ht'
    replace ht' : (r.types.insert t.name t).get? name = some t' := ht'
    rw [Dict.get?_insert] at ht'
    split_ifs at ht'
    · rw [← Option.some.inj ht']
      exact hheld
    · exact hlater.holds (h.holds name t' ht')

end Holds

/-! ## What a step leaves -/

/-- A run on `r` leaves a later registry that is whole, also when it fails, and comes to a result of
which the condition holds there. -/
inductive Advances {α : Type} (r : Registry) (condition : α → Registry → Prop) :
    EStateM.Result TypeError Registry α → Prop
  | ok {a : α} {r' : Registry} (hwhole : r'.Whole) (hlater : Later r r') (ha : condition a r') :
      Advances r condition (.ok a r')
  | error {e : TypeError} {r' : Registry} (hwhole : r'.Whole) (hlater : Later r r') :
      Advances r condition (.error e r')

section Advances

variable {α β : Type} {r r' : Registry} {name : String} {t : ValueType}

theorem Advances.bind {x : Step α} {f : α → Step β} {condition : α → Registry → Prop}
    {condition' : β → Registry → Prop} (hx : Advances r condition (x r))
    (hf : ∀ a r', r'.Whole → Later r r' → condition a r' → Advances r' condition' (f a r')) :
    Advances r condition' ((x >>= f) r) := by
  show Advances r condition' (EStateM.bind x f r)
  unfold EStateM.bind
  generalize x r = run at hx
  cases hx with
  | error hwhole hlater => exact .error hwhole hlater
  | @ok a r' hwhole hlater ha =>
    have hrun := hf a r' hwhole hlater ha
    dsimp only
    generalize f a r' = run at hrun
    cases hrun with
    | ok hwhole' hlater' hb => exact .ok hwhole' (hlater.trans hlater') hb
    | error hwhole' hlater' => exact .error hwhole' (hlater.trans hlater')

/-- What is derived is held. The base of a derived type is, as it was derived before. -/
theorem Whole.derive (h : r.Whole) {segments : List (List Char)}
    (hderived : r.derive segments = some (t, r')) : r'.Whole ∧ r'.Holds t := by
  induction segments generalizing r' t with
  | nil => simp [Registry.derive] at hderived
  | cons segment rest ih =>
    rcases derive_cons_eq_some_iff.1 hderived with ⟨hfound, rfl⟩ |
      ⟨-, base, r₁, derived, hbase, rfl, rfl, rfl⟩
    · exact ⟨h, h.holds_of_get? hfound⟩
    · obtain ⟨hwhole, hheld⟩ := ih hbase
      exact hwhole.keep fun s hs => hheld.parts_derived hs

theorem Whole.resolve (h : r.Whole) (name : String) :
    Advances r (fun t r' => r'.Holds t ∧ r'.get? name = some t) (Registry.resolve name r) := by
  cases hfound : r.get? name with
  | some t =>
    rw [resolve_of_get? hfound]
    exact .ok h (.refl r) ⟨h.holds_of_get? hfound, hfound⟩
  | none =>
    have hget := @get?_of_resolve r
    unfold Registry.resolve at hget ⊢
    simp only [hfound]
    split_ifs with hvalid
    · cases hderived : r.derive (nameSegments name.toList) with
      | none => exact .error h (.refl r)
      | some derived =>
        obtain ⟨t, r'⟩ := derived
        obtain ⟨hwhole, hheld⟩ := h.derive hderived
        obtain ⟨hgrows, hget'⟩ := @hget r' name t h.orderly.closed (by simp [hfound, hvalid, hderived])
        exact .ok hwhole hgrows.later ⟨hheld, hget'⟩
    · exact .error h (.refl r)

theorem Whole.resolveAll (h : r.Whole) (names : List String) :
    Advances r (fun ts r' => ∀ t ∈ ts, r'.Holds t) (names.mapM Registry.resolve r) := by
  induction names generalizing r with
  | nil => exact .ok h (.refl r) (by simp)
  | cons name names ih =>
    rw [List.mapM_cons]
    refine (h.resolve name).bind fun t r₁ hwhole hlater ⟨ht, _⟩ => ?_
    refine (ih hwhole).bind fun ts r₂ hwhole' hlater' hts => ?_
    refine .ok hwhole' (.refl r₂) (List.forall_mem_cons.2 ⟨hlater'.holds ht, hts⟩)

theorem Whole.holds_of_resolveAll (h : r.Whole) {names : List String} {ts : List ValueType}
    (hts : names.mapM Registry.resolve r = .ok ts r') : ∀ t ∈ ts, r'.Holds t := by
  have hadvances := h.resolveAll names
  rw [hts] at hadvances
  cases hadvances with
  | ok _ _ hheld => exact hheld

theorem Whole.findOrKeep (h : r.Whole) (ht : ∀ s : ValueType, s.Part t → s = t ∨ r.Holds s) :
    Advances r (fun t r' => r'.Holds t) (Registry.findOrKeep t r) := by
  cases hget : r.get? t.name with
  | some found =>
    rw [findOrKeep_ok_iff.2 (Or.inl ⟨hget, rfl⟩)]
    exact .ok h (.refl r) (h.holds_of_get? hget)
  | none =>
    obtain ⟨hwhole, hheld⟩ := h.keep ht
    rw [findOrKeep_ok_iff.2 (Or.inr ⟨hget, rfl⟩)]
    exact .ok hwhole (grows_keep r t).later hheld

theorem Whole.unite (h : r.Whole) {resolved : List ValueType} (hall : ∀ t ∈ resolved, r.Holds t) :
    Advances r (fun t r' => r'.Holds t) (Registry.unite resolved r) := by
  have hmembers (t : ValueType) (ht : t ∈ membersOf resolved) : r.Holds t :=
    hall t (mem_of_mem_membersOf ht)
  have hunion := h.findOrKeep (t := .union (membersOf resolved)) fun s hs =>
    Holds.parts_union hmembers hs
  rw [unite_eq]
  cases rejection? (membersOf resolved) with
  | some e => exact .error h (.refl r)
  | none => exact hunion

theorem Whole.union (h : r.Whole) (names : List String) :
    Advances r (fun t r' => r'.Holds t) (Registry.union names r) := by
  rw [union_eq]
  exact (h.resolveAll names).bind fun ts r' hwhole hlater hts => hwhole.unite hts

end Advances

/-! ## Calls -/

inductive Call where
  | register (p : Primitive)
  | resolve (name : String)
  | union (names : List String)
  | choice (words : List String)
  | word (text : String)
  | canonicalName (name : String)

/-- What a call is answered with. -/
inductive Reply where
  | type (t : ValueType)
  | name (name : String)
  | error (e : TypeError)

/-- The reply to what a step comes to, and the registry that it leaves. -/
def Reply.ofRun {α : Type} (reply : α → Reply) :
    EStateM.Result TypeError Registry α → Reply × Registry
  | .ok a r => (reply a, r)
  | .error e r => (.error e, r)

/-- Answer a call. -/
def answer (r : Registry) : Call → Reply × Registry
  | .register p =>
    match r.register p with
    | .ok r' => (.type (.primitive p), r')
    | .error e => (.error e, r)
  | .resolve name => Reply.ofRun .type (resolve name r)
  | .union names => Reply.ofRun .type (union names r)
  | .choice words => (.type (choice words r).1, (choice words r).2)
  | .word text => (.type (word text r).1, (word text r).2)
  | .canonicalName name => Reply.ofRun .name (canonicalName name r)

/-- The registry after some calls. -/
def after (r : Registry) (calls : List Call) : Registry :=
  calls.foldl (fun r call => (r.answer call).2) r

/-- Calls that are made one after another, each with its reply. -/
def history (r : Registry) : List Call → List (Call × Reply)
  | [] => []
  | call :: calls => (call, (r.answer call).1) :: history (r.answer call).2 calls

/-- What is known once a call was answered. -/
structure Answered (r : Registry) (call : Call) (reply : Reply) (r' : Registry) : Prop where
  whole : r'.Whole
  later : Later r r'
  holds : ∀ t, reply = .type t → r'.Holds t
  resolved : ∀ name t, call = .resolve name → reply = .type t → r'.get? name = some t

section Calls

variable {r : Registry} {call : Call} {calls : List Call}

theorem Advances.answered {α : Type} {reply : α → Reply} {condition : α → Registry → Prop}
    {run : EStateM.Result TypeError Registry α} (h : Advances r condition run)
    (hreply : ∀ a r', condition a r' → ∀ t, reply a = .type t →
      r'.Holds t ∧ ∀ name, call = .resolve name → r'.get? name = some t) :
    Answered r call (Reply.ofRun reply run).1 (Reply.ofRun reply run).2 := by
  cases h with
  | ok hwhole hlater ha =>
    refine ⟨hwhole, hlater, fun t ht => ?_, fun name t hcall ht => ?_⟩
    · exact (hreply _ _ ha t ht).1
    · exact (hreply _ _ ha t ht).2 name hcall
  | error hwhole hlater => exact ⟨hwhole, hlater, by simp [Reply.ofRun], by simp [Reply.ofRun]⟩

theorem answer_of_registered {p : Primitive} {r' : Registry} (hp : r.register p = .ok r') :
    r.answer (.register p) = (.type (.primitive p), r') := by
  simp [answer, hp]

theorem answer_of_refused {p : Primitive} {e : TypeError} (hp : r.register p = .error e) :
    r.answer (.register p) = (.error e, r) := by
  simp [answer, hp]

theorem refused_of_answer {p : Primitive} {e : TypeError}
    (h : (r.answer (.register p)).1 = .error e) : r.register p = .error e := by
  cases hp : r.register p with
  | ok r' => simp [answer_of_registered hp] at h
  | error e' =>
    rw [answer_of_refused hp] at h
    rw [Reply.error.inj h]

/-- A type that is made of no other may be kept at any time. -/
theorem Whole.answered_keep (h : r.Whole) {t : ValueType} (ht : ∀ s : ValueType, s.Part t → s = t)
    (hcall : ∀ name, call ≠ .resolve name) :
    Answered r call (.type (r.keep t).1) (r.keep t).2 := by
  obtain ⟨hwhole, hheld⟩ := h.keep fun s hs => Or.inl (ht s hs)
  refine ⟨hwhole, (grows_keep r t).later, ?_, fun name _ heq => absurd heq (hcall name)⟩
  rintro _ ⟨⟩
  exact hheld

/-- **Every call leaves a whole registry that is later**, and holds the type that it hands out. -/
theorem Whole.answered (h : r.Whole) (call : Call) :
    Answered r call (r.answer call).1 (r.answer call).2 := by
  cases call with
  | register p =>
    cases hp : r.register p with
    | ok r' =>
      obtain ⟨hwhole, hheld⟩ := h.register hp
      rw [answer_of_registered hp]
      refine ⟨hwhole, later_of_register hp, ?_, by simp⟩
      rintro _ ⟨⟩
      exact hheld
    | error e =>
      rw [answer_of_refused hp]
      exact ⟨h, .refl r, by simp, by simp⟩
  | resolve name =>
    refine (h.resolve name).answered ?_
    rintro t r' ⟨hheld, hget⟩ _ ⟨⟩
    refine ⟨hheld, ?_⟩
    rintro _ ⟨⟩
    exact hget
  | union names =>
    refine (h.union names).answered ?_
    rintro t r' hheld _ ⟨⟩
    exact ⟨hheld, by simp⟩
  | choice words =>
    refine h.answered_keep (fun s hs => ?_) (by simp)
    cases hs
    rfl
  | word text =>
    refine h.answered_keep (fun s hs => ?_) (by simp)
    cases hs
    rfl
  | canonicalName name =>
    have hrun : Advances r (fun _ _ => True) (canonicalName name r) :=
      (h.resolve name).bind fun t r' hwhole _ _ => .ok hwhole (.refl r') trivial
    exact hrun.answered (by simp)

theorem history_append (r : Registry) (calls calls' : List Call) :
    r.history (calls ++ calls') = r.history calls ++ (r.after calls).history calls' := by
  induction calls generalizing r with
  | nil => rfl
  | cons call calls ih =>
    rw [List.cons_append, history, ih]
    rfl

/-- After the last call, all types that were handed out are held. -/
theorem Whole.history (h : r.Whole) (calls : List Call) :
    (r.after calls).Whole ∧ Later r (r.after calls) ∧
      ∀ entry ∈ r.history calls, ∀ t, entry.2 = .type t → (r.after calls).Holds t := by
  induction calls generalizing r with
  | nil => exact ⟨h, .refl r, by simp [Registry.history]⟩
  | cons call calls ih =>
    have hcall := h.answered call
    obtain ⟨hwhole, hlater, hholds⟩ := ih hcall.whole
    refine ⟨hwhole, hcall.later.trans hlater, List.forall_mem_cons.2 ⟨fun t ht => ?_, hholds⟩⟩
    exact hlater.holds (hcall.holds t ht)

theorem Whole.resolved_of_mem (h : r.Whole) {name : String} {t : ValueType}
    (hget : r.get? name = some t) {reply : Reply}
    (hmem : (.resolve name, reply) ∈ r.history calls) : reply = .type t := by
  induction calls generalizing r with
  | nil => simp [Registry.history] at hmem
  | cons call calls ih =>
    have hcall := h.answered call
    rcases List.mem_cons.1 hmem with heq | hmem
    · obtain ⟨rfl, rfl⟩ := Prod.mk.inj heq
      rw [answer, resolve_of_get? hget]
      rfl
    · exact ih hcall.whole (hcall.later.get? name t hget) hmem

theorem Whole.pairwise_resolved (h : r.Whole) (calls : List Call) :
    (r.history calls).Pairwise fun entry entry' => ∀ name t reply,
      entry = (.resolve name, .type t) → entry' = (.resolve name, reply) → reply = .type t := by
  induction calls generalizing r with
  | nil => exact .nil
  | cons call calls ih =>
    have hcall := h.answered call
    refine List.pairwise_cons.2 ⟨?_, ih hcall.whole⟩
    rintro _ hmem name t reply heq rfl
    obtain ⟨hname, hreply⟩ := Prod.mk.inj heq
    exact hcall.whole.resolved_of_mem (hcall.resolved name t hname hreply) hmem

theorem whole_empty : Whole empty := ⟨orderly_empty, by simp [Registry.empty]⟩

end Calls

/-- **A name never changes its meaning**, whatever a registry is asked for in its life. A name that
was resolved to a type is always resolved to it again. Types of one name are the same, whichever
calls have handed them out, and so are the types that they are made of. Without a registration that
failed, all other calls would have been answered as they were. -/
theorem history_coherent (calls : List Call) :
    (empty.history calls).Pairwise (fun entry entry' => ∀ name t reply,
      entry = (.resolve name, .type t) → entry' = (.resolve name, reply) → reply = .type t) ∧
    (∀ entry ∈ empty.history calls, ∀ entry' ∈ empty.history calls, ∀ t t' : ValueType,
      entry.2 = .type t → entry'.2 = .type t' →
      ∀ s s' : ValueType, s.Part t → s'.Part t' → s.name = s'.name → s = s') ∧
    ∀ before p later e, calls = before ++ .register p :: later →
      ((empty.after before).answer (.register p)).1 = .error e →
      ∃ rest, empty.history calls = empty.history before ++ (.register p, .error e) :: rest ∧
        empty.history (before ++ later) = empty.history before ++ rest := by
  obtain ⟨-, -, hholds⟩ := whole_empty.history calls
  refine ⟨whole_empty.pairwise_resolved calls, ?_, ?_⟩
  · intro entry hentry entry' hentry' t t' ht ht' s s' hs hs' hname
    exact (hholds entry hentry t ht).eq (hholds entry' hentry' t' ht') hs hs' hname
  · rintro before p later e rfl herror
    refine ⟨(empty.after before).history later, ?_, history_append _ _ _⟩
    rw [history_append, history, answer_of_refused (refused_of_answer herror)]

/-- A type that was synthesized, and a primitive that comes too late for its name. -/
theorem history_lateRegister :
    ∃ rest,
      empty.history [.register .int, .resolve "BigInt",
          .register { Primitive.string with name := "BigInt" }, .resolve "BigInt"] =
        empty.history [.register .int, .resolve "BigInt"] ++
          (.register { Primitive.string with name := "BigInt" },
            .error (.alreadyInUse "BigInt")) :: rest ∧
      empty.history [.register .int, .resolve "BigInt", .resolve "BigInt"] =
        empty.history [.register .int, .resolve "BigInt"] ++ rest :=
  (history_coherent _).2.2 _ _ _ _ rfl rfl

end Registry

end Synopsis
