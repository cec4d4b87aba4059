import Mathlib
import TileSched.Search.Value
/-! The double nearest to an integer. Rounding to the nearest whole quotient is monotone, and a
number of bit length `len` keeps a rounded fraction between `2^52` and `2^53`, so the magnitude
pattern `(len + 1021) · 2^52 + fraction` grows with the number across bit lengths as well. Hence
the conversion never gives a NaN and is monotone: a strictly lower double comes from a strictly
lower integer, while two integers may share a double. -/

namespace TileSched

namespace Double

theorem roundShift_le_succ (m s : Nat) : roundShift m s ≤ m / 2 ^ s + 1 := by
  unfold roundShift
  simp only [Nat.pow_eq]
  split <;> omega

theorem div_le_roundShift (m s : Nat) : m / 2 ^ s ≤ roundShift m s := by
  unfold roundShift
  simp only [Nat.pow_eq]
  split <;> omega

@[simp] theorem roundShift_zero (m : Nat) : roundShift m 0 = m := by
  simp [roundShift, Nat.mod_one]

theorem roundShift_mono {m m' : Nat} (s : Nat) (h : m ≤ m') : roundShift m s ≤ roundShift m' s := by
  have hq : m / 2 ^ s ≤ m' / 2 ^ s := Nat.div_le_div_right h
  rcases Nat.lt_or_eq_of_le hq with hlt | heq
  · calc roundShift m s ≤ m / 2 ^ s + 1 := roundShift_le_succ m s
      _ ≤ m' / 2 ^ s := hlt
      _ ≤ roundShift m' s := div_le_roundShift m' s
  · -- one quotient: the remainder decides, and it grows with the number
    have h₁ := Nat.div_add_mod m (2 ^ s)
    have h₂ := Nat.div_add_mod m' (2 ^ s)
    rw [heq] at h₁
    unfold roundShift
    simp only [Nat.pow_eq]
    rw [heq]
    split <;> split <;> omega

theorem fraction_bounds {m : Nat} (hm : m ≠ 0) :
    2 ^ 52 ≤ roundShift m (m.log2 + 1 - 53) * 2 ^ (53 - (m.log2 + 1)) ∧
      roundShift m (m.log2 + 1 - 53) * 2 ^ (53 - (m.log2 + 1)) ≤ 2 ^ 53 := by
  have hlo : 2 ^ m.log2 ≤ m := Nat.log2_self_le hm
  have hhi : m < 2 ^ (m.log2 + 1) := Nat.lt_log2_self
  by_cases hlen : m.log2 + 1 ≤ 53
  · -- short numbers are exact, shifted up to the fraction's width
    have hs : m.log2 + 1 - 53 = 0 := by omega
    rw [hs, roundShift_zero]
    have hsplit : (2 : Nat) ^ 53 = 2 ^ (m.log2 + 1) * 2 ^ (53 - (m.log2 + 1)) := by
      rw [← Nat.pow_add]
      congr 1
      omega
    have hsplit' : (2 : Nat) ^ 52 = 2 ^ m.log2 * 2 ^ (53 - (m.log2 + 1)) := by
      rw [← Nat.pow_add]
      congr 1
      omega
    constructor
    · rw [hsplit']
      exact Nat.mul_le_mul_right _ hlo
    · rw [hsplit]
      exact Nat.mul_le_mul_right _ (Nat.le_of_lt hhi)
  · -- long numbers drop `len - 53` bits; the quotient keeps fifty-three
    have hs : 53 - (m.log2 + 1) = 0 := by omega
    rw [hs, Nat.pow_zero, Nat.mul_one]
    have hq_lo : 2 ^ 52 ≤ m / 2 ^ (m.log2 + 1 - 53) := by
      rw [Nat.le_div_iff_mul_le (Nat.two_pow_pos _), ← Nat.pow_add]
      exact Nat.le_trans (Nat.pow_le_pow_right (by decide) (by omega)) hlo
    have hq_hi : m / 2 ^ (m.log2 + 1 - 53) < 2 ^ 53 := by
      rw [Nat.div_lt_iff_lt_mul (Nat.two_pow_pos _), ← Nat.pow_add]
      exact Nat.lt_of_lt_of_le hhi (Nat.pow_le_pow_right (by decide) (by omega))
    exact ⟨Nat.le_trans hq_lo (div_le_roundShift _ _),
      Nat.le_trans (roundShift_le_succ _ _) hq_hi⟩

theorem magnitudeOfNat_le (m : Nat) : magnitudeOfNat m ≤ infinityBits := by
  unfold magnitudeOfNat
  simp only [Nat.pow_eq]
  split
  · exact Nat.zero_le _
  · exact Nat.min_le_right _ _

theorem magnitudeOfNat_mono {m m' : Nat} (h : m ≤ m') : magnitudeOfNat m ≤ magnitudeOfNat m' := by
  unfold magnitudeOfNat
  by_cases hm : m = 0
  · simp [hm]
  have hm' : m' ≠ 0 := by omega
  rw [if_neg hm, if_neg hm']
  have hlen : m.log2 ≤ m'.log2 := (Nat.le_log2 hm').2 (Nat.le_trans (Nat.log2_self_le hm) h)
  obtain ⟨-, hf⟩ := fraction_bounds hm
  obtain ⟨hf', -⟩ := fraction_bounds hm'
  simp only [Nat.pow_eq]
  rcases Nat.lt_or_eq_of_le hlen with hlt | heq
  · -- a longer number starts above every pattern of the shorter length
    omega
  · rw [heq] at hf ⊢
    have hr := Nat.mul_le_mul_right (2 ^ (53 - (m'.log2 + 1))) (roundShift_mono (m'.log2 + 1 - 53) h)
    omega

theorem toNat_bits_ofInt (n : Int) :
    (ofInt n).bits.toNat = if n < 0 then 2 ^ 63 + magnitudeOfNat n.natAbs else magnitudeOfNat n.toNat := by
  have hle := magnitudeOfNat_le n.natAbs
  have hle' := magnitudeOfNat_le n.toNat
  have hinf : infinityBits < 2 ^ 63 := by decide
  have hsize : UInt64.size = 2 ^ 64 := rfl
  unfold ofInt
  simp only [Nat.pow_eq]
  split <;> exact UInt64.toNat_ofNat_of_lt' (by omega)

theorem rank_ofInt (n : Int) :
    (ofInt n).rank = if n < 0 then -(magnitudeOfNat n.natAbs : Int) else magnitudeOfNat n.toNat := by
  have hle := magnitudeOfNat_le n.natAbs
  have hle' := magnitudeOfNat_le n.toNat
  have hinf : infinityBits < 2 ^ 63 := by decide
  unfold rank magnitude negative
  simp only [Nat.pow_eq]
  rw [toNat_bits_ofInt]
  split
  · rw [if_pos (by simp)]
    congr 2
    omega
  · rw [if_neg (by simp; omega)]
    congr 1
    omega

theorem ofInt_isNaN (n : Int) : (ofInt n).isNaN = false := by
  have hle := magnitudeOfNat_le n.natAbs
  have hle' := magnitudeOfNat_le n.toNat
  have hinf : infinityBits < 2 ^ 63 := by decide
  unfold isNaN magnitude
  simp only [Nat.pow_eq]
  rw [toNat_bits_ofInt]
  simp only [decide_eq_false_iff_not, Nat.not_lt]
  split <;> omega

theorem ofInt_le_ofInt {a b : Int} (h : a ≤ b) : ofInt a ≤ ofInt b := by
  refine le_iff.2 ⟨ofInt_isNaN a, ofInt_isNaN b, ?_⟩
  rw [rank_ofInt, rank_ofInt]
  split <;> split
  · -- both negative: the larger has the smaller magnitude
    have := magnitudeOfNat_mono (show b.natAbs ≤ a.natAbs by omega)
    omega
  · omega
  · omega
  · have := magnitudeOfNat_mono (show a.toNat ≤ b.toNat by omega)
    omega

theorem lt_of_ofInt_lt {a b : Int} (h : ofInt a < ofInt b) : a < b :=
  Int.lt_of_not_ge fun hba => lt_irrefl _ (lt_of_lt_of_le h (ofInt_le_ofInt hba))

end Double

end TileSched
