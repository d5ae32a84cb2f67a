import Mathlib
import Synopsis.Numeral.Integer

/-!
# Integers are read as they were written

The decimal text of a 64-bit integer stands for that integer, over both ranges
(`readInt64?_writeInt64`, `readUInt64?_writeUInt64`). The text of a magnitude is all digits, so none
is mistaken for a sign. The least signed integer has a magnitude that no other has, which is read
after a `-` only.
-/

namespace Synopsis

/-! ## Magnitudes -/

theorem isDigit_of_mem_digits {n : Nat} {c : Char} (h : c ∈ Nat.toDigits 10 n) : c.isDigit :=
  Nat.isDigit_of_mem_toDigits (by decide) (by decide) h

/-- The digits of a number stand for it. -/
theorem natural?_toDigits (n : Nat) : natural? (Nat.toDigits 10 n) = some n := by
  have hdigits : (Nat.toDigits 10 n).all Char.isDigit :=
    List.all_eq_true.2 fun c hc => isDigit_of_mem_digits hc
  simp only [natural?, List.isEmpty_eq_false_iff.2 Nat.toDigits_ne_nil, hdigits, Bool.not_true,
    Bool.or_self, Bool.false_eq_true, if_false, Nat.ofDigitChars_ten_toDigits]

theorem toDigits_eq_cons (n : Nat) : ∃ c cs, Nat.toDigits 10 n = c :: cs ∧ c ≠ '-' ∧ c ≠ '+' := by
  obtain ⟨c, cs, hdigits⟩ := List.exists_cons_of_ne_nil (@Nat.toDigits_ne_nil n 10)
  have hc : c.isDigit := isDigit_of_mem_digits (hdigits ▸ List.mem_cons_self)
  refine ⟨c, cs, hdigits, ?_, ?_⟩
  all_goals
    rintro rfl
    exact absurd hc (by decide)

/-! ## Unsigned integers -/

theorem readUInt64?_of_digits {text : String} {n : Nat} (h : text.toList = Nat.toDigits 10 n) :
    readUInt64? text = readUInt64?.inRange n := by
  obtain ⟨c, cs, hdigits, -, hplus⟩ := toDigits_eq_cons n
  have hn := natural?_toDigits n
  rw [hdigits] at h hn
  unfold readUInt64?
  rw [h]
  split
  · next heq => exact absurd (List.cons.inj heq).1 hplus
  · rw [hn, Option.bind_some]

/-- **An unsigned integer is read as it was written.** -/
theorem readUInt64?_writeUInt64 (n : UInt64) : readUInt64? (writeUInt64 n) = some n := by
  rw [readUInt64?_of_digits (n := n.toNat) (by rw [writeUInt64, Nat.toList_repr])]
  have hbound : n.toNat < uint64Bound := n.toNat_lt
  rw [readUInt64?.inRange, if_pos hbound, UInt64.ofNat_toNat]

/-! ## Signed integers -/

theorem readInt64?_of_digits {text : String} {n : Nat} (h : text.toList = Nat.toDigits 10 n) :
    readInt64? text = readInt64?.nonnegative n := by
  obtain ⟨c, cs, hdigits, hminus, hplus⟩ := toDigits_eq_cons n
  have hn := natural?_toDigits n
  rw [hdigits] at h hn
  unfold readInt64?
  rw [h]
  split
  · next heq => exact absurd (List.cons.inj heq).1 hminus
  · next heq => exact absurd (List.cons.inj heq).1 hplus
  · rw [hn, Option.bind_some]

theorem readInt64?_of_negative {text : String} {n : Nat}
    (h : text.toList = '-' :: Nat.toDigits 10 n) :
    readInt64? text = if n ≤ int64Bound then some (Int64.ofInt (-n)) else none := by
  unfold readInt64?
  simp only [h, natural?_toDigits, Option.bind_some]

/-- **A signed integer is read as it was written.** -/
theorem readInt64?_writeInt64 (n : Int64) : readInt64? (writeInt64 n) = some n := by
  have hupper : n.toInt < 2 ^ 63 := n.toInt_lt
  have hlower : -2 ^ 63 ≤ n.toInt := n.le_toInt
  rw [writeInt64, Int.repr_eq_if]
  by_cases hsign : 0 ≤ n.toInt
  · have hbound : n.toInt.toNat < int64Bound := by
      unfold int64Bound
      omega
    rw [if_pos hsign, readInt64?_of_digits (n := n.toInt.toNat) Nat.toList_repr,
      readInt64?.nonnegative, if_pos hbound, Int.toNat_of_nonneg hsign, Int64.ofInt_toInt]
  · have hbound : (-n.toInt).toNat ≤ int64Bound := by
      unfold int64Bound
      omega
    have hmagnitude : ((-n.toInt).toNat : Int) = -n.toInt := Int.toNat_of_nonneg (by omega)
    rw [if_neg hsign, readInt64?_of_negative (n := (-n.toInt).toNat) (by simp [Nat.toList_repr]),
      if_pos hbound, hmagnitude, Int.neg_neg, Int64.ofInt_toInt]

/-- The ends of the signed range. -/
example : readInt64? "-9223372036854775808" = some Int64.minValue ∧
    readInt64? "9223372036854775808" = none := by decide +kernel

end Synopsis
