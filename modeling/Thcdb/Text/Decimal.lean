import Mathlib.Algebra.Group.Nat.Defs
import Thcdb.Text.Utf8

namespace Text

/-- `{n:0w}` -/
def padded (w n : ℕ) : Str :=
  List.replicate (w - (Nat.toDigits 10 n).length) '0' ++ Nat.toDigits 10 n

variable {w n k : ℕ} {c : Char}

theorem isDigit_of_mem_padded (h : c ∈ padded w n) : c.isDigit := by
  rcases List.mem_append.mp h with h | h
  · rw [List.eq_of_mem_replicate h]
    rfl
  · exact Nat.isDigit_of_mem_toDigits (by decide) (by decide) h

theorem toNat_of_isDigit (h : c.isDigit) : 48 ≤ c.toNat ∧ c.toNat ≤ 57 := by
  simpa [Char.isDigit, UInt32.le_iff_toNat_le] using h

theorem ofDigitChars_padded : Nat.ofDigitChars 10 (padded w n) 0 = n := by
  rw [padded, Nat.ofDigitChars_append, Nat.ofDigitChars_replicate_zero, Nat.mul_zero,
    Nat.ofDigitChars_ten_toDigits]

theorem length_padded : (padded w n).length = max w (Nat.toDigits 10 n).length := by
  rw [padded, List.length_append, List.length_replicate]
  omega

theorem le_length_padded : w ≤ (padded w n).length := by
  rw [length_padded]
  exact Nat.le_max_left ..

theorem length_padded_le (hn : n < 10 ^ k) (hk : 0 < k) (hw : w ≤ k) : (padded w n).length ≤ k := by
  rw [length_padded]
  exact Nat.max_le_of_le_of_le hw ((Nat.length_toDigits_le_iff (by decide) hk).mpr hn)

theorem length_padded_eq (hn : n < 10 ^ w) (hw : 0 < w) : (padded w n).length = w :=
  Nat.le_antisymm (length_padded_le hn hw (Nat.le_refl w)) le_length_padded

theorem padded_ne_nil : padded w n ≠ [] := by
  have h : Nat.toDigits 10 n ≠ [] := Nat.toDigits_ne_nil
  simp [padded, h]

end Text
