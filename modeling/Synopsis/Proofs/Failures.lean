import Synopsis.Invocation
import Synopsis.Proofs.Steps

/-!
# How an invocation fails

Binding one parameter fails with an error about that binding (`Claiming.Binds`). Settling all of them
fails so too, or with the error of the arrangement (`count_of_settle`). Feeding never fails on the
number of positionals (`count_of_foldlM_feed`).
-/

namespace Synopsis

theorem losing_bind_error_iff {ε σ α β : Type} {x : StateT σ (Except ε) α}
    {f : α → StateT σ (Except ε) β} {s : σ} {e : ε} :
    (x >>= f) s = .error e ↔
      x s = .error e ∨ ∃ a s₁, x s = .ok (a, s₁) ∧ f a s₁ = .error e := by
  rcases h : x s with e' | ⟨a, s₁⟩ <;> simp [bind, StateT.bind, Except.bind, h]

@[simp] theorem losing_pure_error_iff {ε σ α : Type} {a : α} {s : σ} {e : ε} :
    (pure a : StateT σ (Except ε) α) s = .error e ↔ False := by
  simp [pure, StateT.pure, Except.pure]

@[simp] theorem losing_throw_error_iff {ε σ α : Type} {s : σ} {e e' : ε} :
    (throw e : StateT σ (Except ε) α) s = .error e' ↔ e' = e := by
  simp [throw, throwThe, MonadExceptOf.throw, StateT.lift, bind, Except.bind, eq_comm]

namespace Claiming

/-- The step fails with nothing but an error of binding. -/
def Binds {α : Type} (step : Claiming α) : Prop := ∀ c e, step c = .error e → ∃ b, e = .bind b

section Steps

variable {α β : Type} {step : Claiming α} {f : α → Claiming β}

theorem binds_pure (a : α) : Binds (pure a : Claiming α) := by
  intro c e h
  simp at h

theorem binds_throw (b : BindError) : Binds (throw (.bind b) : Claiming α) := by
  intro c e h
  exact ⟨b, losing_throw_error_iff.1 h⟩

theorem binds_get : Binds (get : Claiming (Option String)) := by
  intro c e h
  simp [get, getThe, MonadStateOf.get, StateT.get, pure, Except.pure] at h

theorem binds_set (c : Option String) : Binds (set c : Claiming PUnit) := by
  intro c e h
  simp [set, MonadStateOf.set, StateT.set, pure, Except.pure] at h

theorem Binds.bind (h : step.Binds) (hf : ∀ a, (f a).Binds) : (step >>= f).Binds := by
  intro c e herror
  rcases losing_bind_error_iff.1 herror with herror | ⟨a, c₁, -, herror⟩
  · exact h c e herror
  · exact hf a c₁ e herror

theorem binds_mapM {f : α → Claiming β} (hf : ∀ a, (f a).Binds) (as : List α) :
    (as.mapM f).Binds := by
  induction as with
  | nil => exact binds_pure []
  | cons a as ih =>
    rw [List.mapM_cons]
    exact (hf a).bind fun b => ih.bind fun bs => binds_pure (b :: bs)

theorem binds_filterMapM {f : α → Claiming (Option β)} (hf : ∀ a, (f a).Binds) (as : List α) :
    (as.filterMapM f).Binds := by
  induction as with
  | nil => exact binds_pure []
  | cons a as ih =>
    rw [List.filterMapM_cons]
    refine (hf a).bind fun found => ?_
    cases found with
    | none => exact ih
    | some b => exact ih.bind fun bs => binds_pure (b :: bs)

theorem binds_slot_mapM {f : α → Claiming β} (hf : ∀ a, (f a).Binds) (slot : Slot α) :
    (slot.mapM f).Binds := by
  cases slot with
  | single a => exact (hf a).bind fun b => binds_pure _
  | list as => exact (binds_mapM hf as).bind fun bs => binds_pure _

end Steps

/-! ## One parameter -/

variable (type : ValueType) (parameter : String)

theorem binds_read (text : String) : (read type parameter text).Binds := by
  unfold read
  split
  · refine binds_get.bind fun claimed => ?_
    cases claimed with
    | none => exact (binds_set _).bind fun _ => binds_pure _
    | some first => exact (binds_throw _).bind fun _ => (binds_set _).bind fun _ => binds_pure _
  · cases type.read? text with
    | none => exact binds_throw _
    | some value => exact binds_pure _

theorem binds_entry (payload : Payload) : (Claiming.entry type parameter payload).Binds := by
  cases payload with
  | text text => exact (binds_read type parameter text).bind fun _ => binds_pure _
  | implied on => exact binds_pure _
  | deferred expression => exact binds_pure _

theorem binds_default (list : Bool) (d : DefaultValue) :
    (Claiming.default type parameter list d).Binds := by
  cases d with
  | value value => exact binds_pure _
  | raw text => exact (binds_read type parameter text).bind fun _ => binds_pure _

end Claiming

namespace Invocation

variable (defaults : Dict DefaultValue)

theorem binds_settleAbsent (o : OptionSpec) : (settleAbsent defaults o).Binds := by
  unfold settleAbsent
  split
  · exact (Claiming.binds_default _ _ _ _).bind fun _ => Claiming.binds_pure _
  · split_ifs
    · exact Claiming.binds_throw _
    · exact Claiming.binds_pure _
    · exact Claiming.binds_throw _
    · exact Claiming.binds_pure _

theorem binds_settleOption (g : Gathered) (o : OptionSpec) : (settleOption defaults g o).Binds := by
  unfold settleOption
  split
  · exact binds_settleAbsent defaults o
  · split_ifs
    · exact Claiming.binds_pure _
    · exact (Claiming.binds_mapM (Claiming.binds_entry _ _) _).bind fun _ => Claiming.binds_pure _
    · exact (Claiming.binds_entry _ _ _).bind fun _ => Claiming.binds_pure _

theorem binds_settlePositional (p : Parameter) (slot : Slot Payload) :
    (settlePositional p slot).Binds :=
  (Claiming.binds_slot_mapM (Claiming.binds_entry _ _) slot).bind fun _ => Claiming.binds_pure _

theorem binds_settleDefault (p : Parameter) : (settleDefault defaults p).Binds := by
  unfold settleDefault
  split
  · exact Claiming.binds_pure _
  · exact (Claiming.binds_default _ _ _ _).bind fun _ => Claiming.binds_pure _

/-- **Settling fails on the number of values only where arranging them does.** -/
theorem count_of_settle {u : Usage} {g : Gathered} {c : Option String} {e : CountError}
    (h : settle u defaults g c = .error (.count e)) : u.layout.arrange g.positionals = .error e := by
  unfold settle at h
  cases hstray : defaults.keys.find? (isStray u) with
  | some key =>
    simp only [hstray, losing_bind_error_iff, losing_throw_error_iff, losing_throw_ok_iff] at h
    simp at h
  | none =>
    simp only [hstray] at h
    rcases losing_bind_error_iff.1 h with h | ⟨options, c₁, -, h⟩
    · obtain ⟨b, hb⟩ := Claiming.binds_filterMapM (binds_settleOption defaults g) _ _ _ h
      simp at hb
    cases harrange : u.layout.arrange g.positionals with
    | error e' =>
      simp only [harrange, losing_bind_error_iff, losing_throw_error_iff, losing_throw_ok_iff] at h
      obtain rfl : e = e' := by simpa using h
      rfl
    | ok arranged =>
      simp only [harrange, pure_bind] at h
      have hbinds := (Claiming.binds_mapM (fun s : Parameter × Slot Payload =>
        binds_settlePositional s.1 s.2) arranged).bind fun positionals =>
          (Claiming.binds_filterMapM (binds_settleDefault defaults)
            (u.layout.parameters.filter fun p =>
              !(options ++ positionals).any (·.key = p.key))).bind fun defaulted =>
                Claiming.binds_pure (options ++ positionals ++ defaulted)
      obtain ⟨b, hb⟩ := hbinds _ _ h
      simp at hb

end Invocation

namespace Invocation

/-- Feeding never fails on the number of positionals. -/
theorem count_of_feed {inv : Invocation} {occurrence : Occurrence} {e : CountError} :
    inv.feed occurrence ≠ .error (.count e) := by
  unfold feed
  cases hgathered : inv.gathered with
  | none => simp
  | some g =>
    cases occurrence with
    | named key spelling payload =>
      cases hoption : inv.usage.option? key with
      | none => simp [Gathered.add, hoption, bind, Except.bind]
      | some o =>
        simp only [Gathered.add, hoption]
        split_ifs <;> simp [bind, Except.bind, pure, Except.pure]
    | positional index payload =>
      simp only [Gathered.add]
      split_ifs <;> simp [bind, Except.bind, pure, Except.pure]
    | tail tokens => simp [Gathered.add, bind, Except.bind, pure, Except.pure]

theorem count_of_foldlM_feed {occurrences : List Occurrence} {inv : Invocation} {e : CountError} :
    occurrences.foldlM feed inv ≠ .error (.count e) := by
  induction occurrences generalizing inv with
  | nil => simp [pure, Except.pure]
  | cons occurrence occurrences ih =>
    rw [List.foldlM_cons]
    cases hfeed : inv.feed occurrence with
    | ok inv' => exact ih
    | error e' =>
      intro h
      obtain rfl := Except.error.inj h
      exact count_of_feed hfeed

end Invocation

end Synopsis
