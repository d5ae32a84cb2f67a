import Synopsis.Invocation
import Synopsis.Proofs.Steps

/-!
# What feeding gathers

Feeding changes nothing of an invocation but what it gathered: the occurrences of each option, the
positionals and the tail, each in the order they were fed.
-/

namespace Synopsis

namespace Occurrence

/-- What the occurrence carries for the option with a key. -/
def payload? (key : String) : Occurrence → Option Payload
  | named key' _ payload => if key' = key then some payload else none
  | _ => none

/-- What the occurrence carries for a positional. -/
def positional? : Occurrence → Option Payload
  | positional _ payload => some payload
  | _ => none

/-- The tail that the occurrence carries. -/
def tail? : Occurrence → Option (List Token)
  | tail tokens => some tokens
  | _ => none

end Occurrence

namespace Gathered

/-- Some occurrences are gathered, after those gathered before. -/
structure After (g : Gathered) (fed : List Occurrence) (g' : Gathered) : Prop where
  named : ∀ key, g'.occurrences key = g.occurrences key ++ fed.filterMap (Occurrence.payload? key)
  positionals : g'.positionals = g.positionals ++ fed.filterMap Occurrence.positional?
  tail : g'.tail = ((fed.filterMap Occurrence.tail?).getLast?).or g.tail

theorem occurrences_append (g : Gathered) (key key' : String) (payload : Payload) :
    ({ g with named := g.named ++ [(key', payload)] } : Gathered).occurrences key =
      g.occurrences key ++ if key' = key then [payload] else [] := by
  unfold occurrences
  by_cases hkey : key' = key <;> simp [hkey]

variable {g g' g₁ : Gathered} {u : Usage} {occurrence : Occurrence} {occurrences : List Occurrence}

theorem after_of_add (h : g.add u occurrence = .ok g') : g.After [occurrence] g' := by
  cases occurrence with
  | named key spelling payload =>
    unfold add at h
    cases hoption : u.option? key with
    | none => simp [hoption] at h
    | some o =>
      simp only [hoption] at h
      split_ifs at h
      obtain rfl := Except.ok.inj h
      refine ⟨fun key' => ?_, by simp [Occurrence.positional?], by simp [Occurrence.tail?]⟩
      rw [occurrences_append]
      by_cases hkey : key = key' <;> simp [Occurrence.payload?, hkey]
  | positional index payload =>
    simp only [add] at h
    split_ifs at h
    obtain rfl := Except.ok.inj h
    exact ⟨by simp [occurrences, Occurrence.payload?], by simp [Occurrence.positional?],
      by simp [Occurrence.tail?]⟩
  | tail tokens =>
    obtain rfl := Except.ok.inj h
    exact ⟨by simp [occurrences, Occurrence.payload?], by simp [Occurrence.positional?],
      by simp [Occurrence.tail?]⟩

theorem After.cons (h : g.After [occurrence] g₁) (h' : g₁.After occurrences g') :
    g.After (occurrence :: occurrences) g' := by
  refine ⟨fun key => ?_, ?_, ?_⟩
  · rw [h'.named, h.named, List.append_assoc, ← List.filterMap_append]
    rfl
  · rw [h'.positionals, h.positionals, List.append_assoc, ← List.filterMap_append]
    rfl
  · have happend : (occurrence :: occurrences).filterMap Occurrence.tail? =
        [occurrence].filterMap Occurrence.tail? ++ occurrences.filterMap Occurrence.tail? := by
      rw [← List.filterMap_append]
      rfl
    rw [h'.tail, h.tail, happend, List.getLast?_append, Option.or_assoc]

end Gathered

namespace Invocation

theorem feed_ok_iff {inv inv' : Invocation} {occurrence : Occurrence} :
    inv.feed occurrence = .ok inv' ↔
      ∃ g g', inv.gathered = some g ∧ g.add inv.usage occurrence = .ok g' ∧
        inv' = { inv with gathered := some g' } := by
  unfold feed
  cases hgathered : inv.gathered with
  | none => simp
  | some g => simp [@eq_comm _ inv']

/-- **Feeding gathers what is fed**, and changes nothing else. -/
theorem after_of_foldlM_feed {inv inv' : Invocation} {g : Gathered} {occurrences : List Occurrence}
    (hg : inv.gathered = some g) (h : occurrences.foldlM feed inv = .ok inv') :
    ∃ g', inv' = { inv with gathered := some g' } ∧ g.After occurrences g' := by
  induction occurrences generalizing inv g with
  | nil =>
    obtain rfl := by simpa using h
    exact ⟨g, by rw [← hg], by simp, by simp, by simp⟩
  | cons occurrence occurrences ih =>
    rw [List.foldlM_cons, failing_bind_ok_iff] at h
    obtain ⟨inv₁, hfirst, hrest⟩ := h
    obtain ⟨_, g₁, hg', hadd, rfl⟩ := feed_ok_iff.1 hfirst
    obtain rfl := Option.some_injective _ (hg.symm.trans hg')
    obtain ⟨g', rfl, hafter⟩ := ih rfl hrest
    exact ⟨g', rfl, (Gathered.after_of_add hadd).cons hafter⟩

end Invocation

end Synopsis
