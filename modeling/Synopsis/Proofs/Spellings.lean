import Mathlib
import Synopsis.Grammar.Spelling

/-!
# Keys of spellings

A key is written with letters, digits and underscores, so it is none of the keys that an invocation
makes itself, which all start with `$` or a dot. A long spelling is told by its key and its side.
-/

namespace Synopsis

/-- A key as a spelling gives it. -/
def IsOptionKey (key : String) : Prop := ∀ c ∈ key.toList, c.isAlphanum ∨ c = '_'

theorem IsOptionKey.ne {key key' : String} (h : IsOptionKey key) {c : Char} (hc : c ∈ key'.toList)
    (hc' : ¬(c.isAlphanum ∨ c = '_')) : key ≠ key' := by
  rintro rfl
  exact hc' (h c hc)

/-! ## Long spellings -/

theorem isLower_or_isDigit_of_isKebabRest {cs : List Char} (h : isKebabRest cs) :
    ∀ c ∈ cs, c.isLower ∨ c.isDigit ∨ c = '-' := by
  fun_induction isKebabRest cs with
  | case1 => simp
  | case2 => simp
  | case3 c cs ih =>
    simp only [isKebabChar, Bool.and_eq_true, Bool.or_eq_true] at h
    intro d hd
    rcases List.mem_cons.1 hd with rfl | hd
    · exact Or.inr (Or.inr rfl)
    rcases List.mem_cons.1 hd with rfl | hd
    · exact h.1.imp_right Or.inl
    · exact ih h.2 d hd
  | case4 c cs _ _ ih =>
    simp only [isKebabChar, Bool.and_eq_true, Bool.or_eq_true] at h
    intro d hd
    rcases List.mem_cons.1 hd with rfl | hd
    · exact h.1.imp_right Or.inl
    · exact ih h.2 d hd

theorem isLongSpelling_iff {spelling : String} :
    isLongSpelling spelling ↔
      ∃ c cs, spelling.toList = '-' :: '-' :: c :: cs ∧ c.isLower ∧ isKebabRest cs := by
  unfold isLongSpelling
  split
  · next c cs heq => simp [heq]
  · next hne =>
    simp only [Bool.false_eq_true, false_iff]
    rintro ⟨c, cs, heq, -⟩
    exact hne c cs heq

theorem isShortSpelling_iff {spelling : String} :
    isShortSpelling spelling ↔ ∃ c, spelling.toList = ['-', c] ∧ c.isAlphanum := by
  unfold isShortSpelling
  split
  · next c heq => simp [heq]
  · next hne =>
    simp only [Bool.false_eq_true, false_iff]
    rintro ⟨c, heq, -⟩
    exact hne c heq

theorem startsLong_of_isLongSpelling {spelling : String} (h : isLongSpelling spelling) :
    startsLong spelling := by
  obtain ⟨c, cs, heq, -⟩ := isLongSpelling_iff.1 h
  simp [startsLong, heq]

theorem startsLong_of_isShortSpelling {spelling : String} (h : isShortSpelling spelling) :
    startsLong spelling = false := by
  obtain ⟨c, heq, hc⟩ := isShortSpelling_iff.1 h
  have hne : c ≠ '-' := by
    rintro rfl
    simp at hc
  simp [startsLong, heq, List.isPrefixOf, Ne.symm hne]

/-- A long spelling is a name after its hyphens, or a name after `--no-`; its key is that name. -/
theorem isLongSpelling_cases {spelling : String} (h : isLongSpelling spelling) :
    ∃ name, name ≠ [] ∧ (∀ c ∈ name, c.isLower ∨ c.isDigit ∨ c = '-') ∧
      ((spelling.toList = '-' :: '-' :: 'n' :: 'o' :: '-' :: name ∧
          optionKey spelling = (underscored name, true)) ∨
        (spelling.toList = '-' :: '-' :: name ∧
          optionKey spelling = (underscored name, false))) := by
  obtain ⟨c, cs, hlist, hc, hcs⟩ := isLongSpelling_iff.1 h
  have hname : ∀ d ∈ c :: cs, d.isLower ∨ d.isDigit ∨ d = '-' := by
    intro d hd
    rcases List.mem_cons.1 hd with rfl | hd
    · exact Or.inl hc
    · exact isLower_or_isDigit_of_isKebabRest hcs d hd
  have hdrop : spelling.toList.dropWhile (· = '-') = c :: cs := by
    have hne : c ≠ '-' := by
      rintro rfl
      simp at hc
    simp [hlist, hne]
  have hlong := startsLong_of_isLongSpelling h
  unfold optionKey
  rw [hdrop]
  simp only [hlong, Bool.true_and]
  split
  · next base heq =>
    rw [heq] at hname hlist
    cases base with
    | nil => exact ⟨_, by simp, hname, Or.inr ⟨hlist, by simp [heq]⟩⟩
    | cons d base =>
      refine ⟨d :: base, by simp, fun x hx => hname x (by simp_all), Or.inl ⟨hlist, by simp⟩⟩
  · exact ⟨c :: cs, by simp, hname, Or.inr ⟨hlist, rfl⟩⟩

theorem hyphenated_underscored {name : List Char}
    (h : ∀ c ∈ name, c.isLower ∨ c.isDigit ∨ c = '-') :
    hyphenated (underscored name) = String.ofList name := by
  rw [← String.toList_inj, hyphenated, String.toList_map, underscored, String.toList_ofList,
    String.toList_ofList, List.map_map]
  refine (List.map_congr_left fun c hc => ?_).trans (List.map_id name)
  have hne : c ≠ '_' := by
    rintro rfl
    exact absurd (h _ hc) (by decide)
  by_cases hhyphen : c = '-' <;> simp [hhyphen, hne]

/-- **A long spelling is told by its key and its side.** -/
theorem longSpelling_optionKey {spelling : String} (h : isLongSpelling spelling) :
    longSpelling (optionKey spelling).1 (optionKey spelling).2 = spelling := by
  obtain ⟨name, -, hname, ⟨hlist, hkey⟩ | ⟨hlist, hkey⟩⟩ := isLongSpelling_cases h
  · rw [hkey, ← String.toList_inj, hlist, longSpelling, hyphenated_underscored hname]
    simp
  · rw [hkey, ← String.toList_inj, hlist, longSpelling, hyphenated_underscored hname]
    simp

theorem isOptionKey_of_long {spelling : String} (h : isLongSpelling spelling) :
    IsOptionKey (optionKey spelling).1 := by
  obtain ⟨name, -, hname, hcases⟩ := isLongSpelling_cases h
  have hkey : (optionKey spelling).1 = underscored name := by
    rcases hcases with ⟨-, hkey⟩ | ⟨-, hkey⟩ <;> rw [hkey]
  rw [hkey]
  intro d hd
  rw [underscored, String.toList_ofList, List.mem_map] at hd
  obtain ⟨c, hc, rfl⟩ := hd
  rcases hname c hc with hlower | hdigit | rfl
  · have hne : c ≠ '-' := by
      rintro rfl
      simp at hlower
    simp [hne, Char.isAlphanum, Char.isAlpha, hlower]
  · have hne : c ≠ '-' := by
      rintro rfl
      simp at hdigit
    simp [hne, Char.isAlphanum, hdigit]
  · exact Or.inr rfl

/-! ## Short spellings -/

theorem optionKey_of_short {spelling : String} {c : Char} (hlist : spelling.toList = ['-', c])
    (hc : c.isAlphanum) : optionKey spelling = (String.ofList [c], false) := by
  have hne : c ≠ '-' := by
    rintro rfl
    simp at hc
  simp [optionKey, hlist, hne, underscored]

theorem isOptionKey_of_short {spelling : String} (h : isShortSpelling spelling) :
    IsOptionKey (optionKey spelling).1 := by
  obtain ⟨c, hlist, hc⟩ := isShortSpelling_iff.1 h
  rw [optionKey_of_short hlist hc]
  simpa [IsOptionKey] using Or.inl hc

end Synopsis
