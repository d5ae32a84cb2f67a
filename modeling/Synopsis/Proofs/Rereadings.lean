import Synopsis.Proofs.Declarations
import Synopsis.Proofs.Registries

/-!
# What was read can be read again

Reading a text puts the types it needs into the registry. On that registry, or one that has grown
from it, the same terms and the same values are read again: the numbered identifiers that are known
go the same way, and no type is put there any more.

The theorems are about the relations, not about texts: `ReadsOne.again` for one parameter,
`ReadsLevel.again` for a level, and `ReadsOptions.again` for the values of options.
-/

namespace Synopsis

open Registry (Grows)

/-- What is known, on another registry. -/
def Known.on (k : Known) (r : Registry) : Known := ⟨r, k.numbered⟩

@[simp] theorem Known.registry_on (k : Known) (r : Registry) : (k.on r).registry = r := rfl

@[simp] theorem Known.numbered_on (k : Known) (r : Registry) :
    (k.on r).numbered = k.numbered := rfl

/-- The step from `k` to `k'` only lets the registry grow, and can be made again where it led. -/
def Again (R : Known → Known → Prop) (k k' : Known) : Prop :=
  Grows k.registry k'.registry ∧ ∀ r, Grows k'.registry r → R (k.on r) (k'.on r)

namespace Again

variable {R S T : Known → Known → Prop} {k k₁ k' : Known}

theorem closed (h : Again R k k') (hk : k.registry.Closed) : k'.registry.Closed := h.1.closed hk

theorem imp (h : Again R k k') (hS : ∀ {k k'}, R k k' → S k k') : Again S k k' :=
  ⟨h.1, fun r hr => hS (h.2 r hr)⟩

theorem comp (h : Again R k k₁) (h' : Again S k₁ k')
    (hT : ∀ {k k₁ k'}, R k k₁ → S k₁ k' → T k k') : Again T k k' :=
  ⟨h.1.trans h'.1, fun r hr => hT (h.2 r (h'.1.trans hr)) (h'.2 r hr)⟩

end Again

theorem again_refl {R : Known → Known → Prop} (hR : ∀ k, R k k) (k : Known) : Again R k k :=
  ⟨.refl _, fun _ _ => hR _⟩

theorem Alternatives.stable_resolve (group : Alternatives) : Registry.Stable group.resolve := by
  cases group with
  | words texts => exact Registry.stable_keeping _
  | types names => exact Registry.stable_union names

variable {k k' : Known}

theorem ReadsOne.again {t : Term} (h : ReadsOne k t k') (hk : k.registry.Closed) :
    Again (ReadsOne · t ·) k k' := by
  cases h with
  | word h => exact again_refl (fun _ => .word h) k
  | typed hid hname htype hnew =>
    obtain ⟨hgrows, hsame⟩ := Registry.stable_resolve _ _ _ _ hk htype
    exact ⟨hgrows, fun r hr => .typed hid hname (hsame r hr) hnew⟩
  | choice hgroup htype =>
    obtain ⟨hgrows, hsame⟩ := Registry.stable_keeping _ _ _ _ hk htype
    exact ⟨hgrows, fun r hr => .choice hgroup (hsame r hr)⟩
  | union hgroup htype =>
    obtain ⟨hgrows, hsame⟩ := Registry.stable_union _ _ _ _ hk htype
    exact ⟨hgrows, fun r hr => .union hgroup (hsame r hr)⟩

/-- **A level is read again** on the registry it left. -/
theorem ReadsLevel.again {depth : Nat} {seen : Bool} {ts : List Term}
    (h : ReadsLevel depth seen k ts k') (hk : k.registry.Closed) :
    Again (ReadsLevel depth seen · ts ·) k k' := by
  induction h with
  | done => exact again_refl (fun _ => .done) _
  | one h rest ih =>
    have hone := h.again hk
    exact hone.comp (ih (hone.closed hk)) .one
  | repeated h hword rest ih =>
    have hone := h.again hk
    exact hone.comp (ih (hone.closed hk)) fun h rest => .repeated h hword rest
  | optional h rest ih =>
    have hone := h.again hk
    exact hone.comp (ih (hone.closed hk)) .optional
  | segment hne h rest ihinner ih =>
    have hinner := ihinner hk
    exact hinner.comp (ih (hinner.closed hk)) fun h rest => .segment hne h rest
  | rest => exact again_refl (fun _ => .rest) _

/-! ## The values of options -/

theorem ReadsType.again {type : ValueType} {label : String} (h : ReadsType k type label k')
    (hk : k.registry.Closed) : k'.numbered = k.numbered ∧ Again (ReadsType · type label ·) k k' := by
  cases h with
  | identifier hid hname htype =>
    obtain ⟨hgrows, hsame⟩ := Registry.stable_resolve _ _ _ _ hk htype
    exact ⟨rfl, hgrows, fun r hr => .identifier hid hname (hsame r hr)⟩
  | group hgroup htype =>
    obtain ⟨hgrows, hsame⟩ := Alternatives.stable_resolve _ _ _ _ hk htype
    exact ⟨rfl, hgrows, fun r hr => .group hgroup (hsame r hr)⟩

theorem ReadsValue.again {value : TakenValue} {metavar : Option String}
    (h : ReadsValue k value metavar k') (hk : k.registry.Closed) :
    k'.numbered = k.numbered ∧ Again (ReadsValue · value metavar ·) k k' := by
  cases h with
  | flag => exact ⟨rfl, again_refl (fun _ => .flag) k⟩
  | required h => exact (h.again hk).imp_right fun h => h.imp .required
  | optional h => exact (h.again hk).imp_right fun h => h.imp .optional

/-- The value of a declaration can be read where the registry has it, and changes nothing. -/
def Declaration.ReadsOn (d : Declaration) (r : Registry) : Prop :=
  ∀ numbered, ReadsValue ⟨r, numbered⟩ d.value d.metavar ⟨r, numbered⟩

theorem ReadsValue.on {value : TakenValue} {metavar : Option String} {r r' : Registry}
    {numbered numbered' : List String}
    (h : ReadsValue ⟨r, numbered⟩ value metavar ⟨r', numbered⟩) :
    ReadsValue ⟨r, numbered'⟩ value metavar ⟨r', numbered'⟩ := by
  have htype {type : ValueType} {label : String}
      (h : ReadsType ⟨r, numbered⟩ type label ⟨r', numbered⟩) :
      ReadsType ⟨r, numbered'⟩ type label ⟨r', numbered'⟩ := by
    cases h with
    | identifier hid hname htype => exact .identifier hid hname htype
    | group hgroup htype => exact .group hgroup htype
  cases h with
  | flag => exact .flag
  | required h => exact .required (htype h)
  | optional h => exact .optional (htype h)

theorem ReadsGroup.again {declared : List Declaration} (h : ReadsGroup k declared k')
    (hk : k.registry.Closed) :
    Grows k.registry k'.registry ∧ k'.numbered = k.numbered ∧
      ∀ d ∈ declared, ∀ r, Grows k'.registry r → d.ReadsOn r := by
  cases h with
  | mk hne hvalid hadmits hvalue =>
    obtain ⟨hnumbered, hgrows, hsame⟩ := hvalue.again hk
    refine ⟨hgrows, hnumbered, fun d hd r hr numbered => ?_⟩
    have hshares := (Shared.wellFormed_of_declares hvalid hadmits d hd).1
    rw [hshares.value, hshares.metavar]
    have hread := hsame r hr
    simp only [Known.on, hnumbered] at hread
    exact hread.on

/-- **The value of every option is read again** on the registry that the options left. -/
theorem ReadsOptions.again {mandatory optional : List Declaration}
    (h : ReadsOptions k mandatory optional k') (hk : k.registry.Closed) :
    Grows k.registry k'.registry ∧ k'.numbered = k.numbered ∧
      ∀ d ∈ mandatory ++ optional, ∀ r, Grows k'.registry r → d.ReadsOn r := by
  have hstep {k k₁ k' : Known} {declared rest all : List Declaration}
      (hgroup : ReadsGroup k declared k₁) (hk : k.registry.Closed)
      (ih : k₁.registry.Closed → Grows k₁.registry k'.registry ∧ k'.numbered = k₁.numbered ∧
        ∀ d ∈ rest, ∀ r, Grows k'.registry r → d.ReadsOn r)
      (hall : ∀ d ∈ all, d ∈ declared ∨ d ∈ rest) :
      Grows k.registry k'.registry ∧ k'.numbered = k.numbered ∧
        ∀ d ∈ all, ∀ r, Grows k'.registry r → d.ReadsOn r := by
    obtain ⟨hgrows, hnumbered, hreads⟩ := hgroup.again hk
    obtain ⟨hgrows', hnumbered', hreads'⟩ := ih (hgrows.closed hk)
    refine ⟨hgrows.trans hgrows', hnumbered'.trans hnumbered, fun d hd r hr => ?_⟩
    rcases hall d hd with hd | hd
    · exact hreads d hd r (hgrows'.trans hr)
    · exact hreads' d hd r hr
  induction h with
  | done => exact ⟨.refl _, rfl, by simp⟩
  | optional h rest ih =>
    refine hstep h hk ih fun d hd => ?_
    simp only [List.mem_append] at hd ⊢
    tauto
  | mandatory h rest ih =>
    refine hstep h hk ih fun d hd => ?_
    simp only [List.mem_append] at hd ⊢
    tauto

end Synopsis
