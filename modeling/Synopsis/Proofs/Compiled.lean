import Synopsis.Proofs.Options
import Synopsis.Usage

/-!
# Compiled usages

Compiling a text is reading its outline, reconciling the options that the outline declares, laying
out its terms and making the table of the options. The registry passes through the first three; the
table changes nothing.
-/

namespace Synopsis

namespace Reader

variable {s s' : ReaderState}

theorem outline_ok_iff {outline : Outline} :
    Reader.outline s = .ok outline s' ↔
      ∃ words s₁ mandatory optional s₂ terms s₃,
        Reader.words ((pastBlanks s).rest.length + 1) (pastBlanks s) = .ok words s₁ ∧
        options ((pastBlanks s).rest.length + 1) s₁ = .ok (mandatory, optional) s₂ ∧
        Reader.terms ((pastBlanks s).rest.length + 1) 0 false s₂ = .ok terms s₃ ∧
        trimStart s₃.rest = [] ∧ outline = { words, mandatory, optional, terms } ∧
        s' = pastBlanks s₃ := by
  simp only [Reader.outline, keeping_bind_ok_iff, skipBlanks_ok_iff, remaining_ok_iff]
  constructor
  · rintro ⟨-, _, rfl, _, _, ⟨rfl, rfl⟩, words, s₁, hwords, ⟨mandatory, optional⟩, s₂, hoptions,
      terms, s₃, hterms, -, _, rfl, _, _, ⟨rfl, rfl⟩, h⟩
    exact ⟨words, s₁, mandatory, optional, s₂, terms, s₃, hwords, hoptions, hterms, by simpa using h⟩
  · rintro ⟨words, s₁, mandatory, optional, s₂, terms, s₃, hwords, hoptions, hterms, h⟩
    exact ⟨(), _, rfl, _, _, ⟨rfl, rfl⟩, words, s₁, hwords, ⟨mandatory, optional⟩, s₂, hoptions,
      terms, s₃, hterms, (), _, rfl, _, _, ⟨rfl, rfl⟩, by simpa using h⟩

end Reader

theorem Outline.read_ok_iff {text : String} {r r' : Registry} {outline : Outline} :
    Outline.read text r = .ok outline r' ↔
      ∃ s, Reader.outline { rest := text.toList, registry := r } = .ok outline s ∧
        r' = s.registry := by
  unfold Outline.read
  cases Reader.outline { rest := text.toList, registry := r } <;> simp [eq_comm]

namespace Usage

theorem building_ok_iff {ε α : Type} {error : ε → UsageError} {step : EStateM ε Registry α}
    {r r' : Registry} {a : α} : building error step r = .ok a r' ↔ step r = .ok a r' := by
  unfold building
  cases step r <;> simp

theorem compile_ok_iff {text : String} {r r' : Registry} {u : Usage} :
    compile text r = .ok u r' ↔
      ∃ outline r₁ options r₂ layout switches,
        Outline.read text r = .ok outline r₁ ∧
        OptionSpec.reconcile outline.mandatory outline.optional r₁ = .ok options r₂ ∧
        Layout.ofTerms outline.terms r₂ = .ok layout r' ∧
        SwitchTable.build options = .ok switches ∧
        u = { words := outline.words, options, terms := outline.terms, layout, switches } := by
  simp only [compile, keeping_bind_ok_iff, building_ok_iff]
  constructor
  · rintro ⟨outline, r₁, houtline, options, r₂, hoptions, layout, r₃, hlayout, h⟩
    cases htable : tableOf options with
    | error e => simp [htable] at h
    | ok switches =>
      obtain ⟨rfl, rfl⟩ := by simpa [htable] using h
      exact ⟨outline, r₁, options, r₂, layout, switches, houtline, hoptions, hlayout,
        failing_mapError_ok_iff.1 htable, rfl⟩
  · rintro ⟨outline, r₁, options, r₂, layout, switches, houtline, hoptions, hlayout, htable, rfl⟩
    refine ⟨outline, r₁, houtline, options, r₂, hoptions, layout, r', hlayout, ?_⟩
    have htable' : tableOf options = .ok switches := failing_mapError_ok_iff.2 htable
    simp [htable']

/-- The terms of a compiled usage are a level, read after the options. -/
theorem terms_of_compile {text : String} {r r' : Registry} {u : Usage}
    (h : compile text r = .ok u r') :
    ∃ k k', ReadsLevel 0 false k u.terms k' := by
  obtain ⟨outline, r₁, options, r₂, layout, switches, houtline, -, -, -, rfl⟩ := compile_ok_iff.1 h
  obtain ⟨s, houtline, -⟩ := Outline.read_ok_iff.1 houtline
  obtain ⟨words, s₁, mandatory, optional, s₂, terms, s₃, -, -, hterms, -, rfl, -⟩ :=
    Reader.outline_ok_iff.1 houtline
  exact ⟨_, _, Reader.terms_reads hterms⟩

theorem options_of_compile {text : String} {r r' : Registry} {u : Usage}
    (h : compile text r = .ok u r') :
    ∃ outline r₁ boolean count, Outline.read text r = .ok outline r₁ ∧
      (∀ d ∈ outline.mandatory ++ outline.optional, d.WellFormed) ∧
      OptionSpec.ofDeclarations outline.mandatory outline.optional boolean count =
        .ok u.options := by
  obtain ⟨outline, r₁, options, r₂, layout, switches, hread, hoptions, -, -, rfl⟩ :=
    compile_ok_iff.1 h
  obtain ⟨s, houtline, -⟩ := Outline.read_ok_iff.1 hread
  obtain ⟨words, s₁, mandatory, optional, s₂, terms, s₃, -, hdeclared, -, -, rfl, -⟩ :=
    Reader.outline_ok_iff.1 houtline
  obtain ⟨boolean, count, r₃, -, -, hoptions⟩ := OptionSpec.reconcile_ok_iff.1 hoptions
  exact ⟨_, r₁, boolean, count, hread, (Reader.options_reads hdeclared).wellFormed, hoptions⟩

theorem declares_of_compile {text : String} {r r' : Registry} {u : Usage}
    (h : compile text r = .ok u r') :
    ∃ outline r₁ boolean count, Outline.read text r = .ok outline r₁ ∧
      (∀ x ∈ OptionSpec.declared outline.mandatory outline.optional, x.2.WellFormed) ∧
      OptionSpec.Declares boolean count
        (OptionSpec.declared outline.mandatory outline.optional) u.options := by
  obtain ⟨outline, r₁, boolean, count, hread, hwf, hoptions⟩ := options_of_compile h
  exact ⟨outline, r₁, boolean, count, hread, OptionSpec.forall_mem_declared hwf,
    OptionSpec.declares_of_ofDeclarations hwf hoptions⟩

theorem keys_nodup_of_compile {text : String} {r r' : Registry} {u : Usage}
    (h : compile text r = .ok u r') : (u.options.map OptionSpec.key).Nodup := by
  obtain ⟨outline, r₁, boolean, count, -, -, hdeclares⟩ := declares_of_compile h
  exact hdeclares.1

theorem isOptionKey_of_compile {text : String} {r r' : Registry} {u : Usage}
    (h : compile text r = .ok u r') {o : OptionSpec} (ho : o ∈ u.options) : IsOptionKey o.key := by
  obtain ⟨outline, r₁, boolean, count, -, hwf, hdeclares⟩ := declares_of_compile h
  obtain ⟨src, hmade, hsrc⟩ := hdeclares.made ho
  obtain ⟨x, hx⟩ := List.exists_mem_of_ne_nil src hmade.ne_nil
  rw [← hmade.key_eq x hx]
  exact (hwf x (hsrc x hx)).isOptionKey

end Usage

end Synopsis
