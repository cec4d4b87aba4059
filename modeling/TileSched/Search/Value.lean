/-!
Search values: double-precision numbers kept as their 64-bit patterns. The search only compares
values, and it compares them as IEEE 754 does: a NaN is unordered, the two zeros are equal, and
otherwise numbers are ordered by sign and magnitude, infinity above every finite number. Read off
the pattern, that order is the order of one integer, the magnitude with the sign's direction, so
the comparison is a definition of its own rather than a call into the machine's arithmetic.
-/
namespace TileSched

/-- A double-precision number, by its pattern: a sign bit, eleven exponent bits and fifty-two
fraction bits. -/
structure Double where
  bits : UInt64
  deriving DecidableEq, Repr, Inhabited

namespace Double

def infinityBits : Nat := 0x7FF0000000000000

def infinity : Double := ⟨0x7FF0000000000000⟩

def ofFloat (x : Float) : Double := ⟨x.toBits⟩

def roundShift (m s : Nat) : Nat :=
  if Nat.pow 2 s < 2 * (m % Nat.pow 2 s) ∨ (2 * (m % Nat.pow 2 s) = Nat.pow 2 s ∧ m / Nat.pow 2 s % 2 = 1) then
    m / Nat.pow 2 s + 1
  else m / Nat.pow 2 s

/-- The magnitude pattern of the double nearest to `m`, a tie going to the even pattern. A number
of bit length `len` keeps its fifty-three leading bits, rounded; with the leading bit the pattern
is the biased exponent `len + 1022` times `2^52` plus the fraction, so a rounding that carries
into a new bit moves into the next exponent by itself. From `2^1024` on it is infinity. -/
def magnitudeOfNat (m : Nat) : Nat :=
  if m = 0 then 0
  else
    let len := m.log2 + 1
    min ((len + 1021) * Nat.pow 2 52 + roundShift m (len - 53) * Nat.pow 2 (53 - len)) infinityBits

def ofInt (n : Int) : Double :=
  if n < 0 then ⟨UInt64.ofNat (Nat.pow 2 63 + magnitudeOfNat n.natAbs)⟩ else ⟨UInt64.ofNat (magnitudeOfNat n.toNat)⟩

def toFloat (d : Double) : Float := Float.ofBits d.bits

def magnitude (d : Double) : Nat := d.bits.toNat % Nat.pow 2 63

def negative (d : Double) : Bool := Nat.pow 2 63 ≤ d.bits.toNat

def isNaN (d : Double) : Bool := infinityBits < d.magnitude

def isFinite (d : Double) : Bool := d.magnitude < infinityBits

def rank (d : Double) : Int := if d.negative then -(d.magnitude : Int) else d.magnitude

def lt (a b : Double) : Bool := !a.isNaN && !b.isNaN && decide (a.rank < b.rank)

def le (a b : Double) : Bool := !a.isNaN && !b.isNaN && decide (a.rank ≤ b.rank)

instance : LT Double := ⟨fun a b => a.lt b = true⟩

instance : LE Double := ⟨fun a b => a.le b = true⟩

instance (a b : Double) : Decidable (a < b) := inferInstanceAs (Decidable (a.lt b = true))

instance (a b : Double) : Decidable (a ≤ b) := inferInstanceAs (Decidable (a.le b = true))

theorem lt_iff {a b : Double} : a < b ↔ a.isNaN = false ∧ b.isNaN = false ∧ a.rank < b.rank := by
  change a.lt b = true ↔ _
  simp [lt, and_assoc]

theorem le_iff {a b : Double} : a ≤ b ↔ a.isNaN = false ∧ b.isNaN = false ∧ a.rank ≤ b.rank := by
  change a.le b = true ↔ _
  simp [le, and_assoc]

theorem infinity_isNaN : infinity.isNaN = false := by decide

theorem magnitude_le_of_not_isNaN {d : Double} (h : d.isNaN = false) : d.magnitude ≤ infinityBits := by
  simpa [isNaN] using h

theorem rank_infinity : infinity.rank = infinityBits := by decide

theorem rank_le_infinity {d : Double} (h : d.isNaN = false) : d.rank ≤ infinity.rank := by
  have hm := magnitude_le_of_not_isNaN h
  rw [rank_infinity, rank]
  split <;> omega

theorem lt_irrefl (a : Double) : ¬ a < a := by
  simp [lt_iff]

theorem lt_trans {a b c : Double} (h₁ : a < b) (h₂ : b < c) : a < c := by
  rw [lt_iff] at *
  exact ⟨h₁.1, h₂.2.1, Int.lt_trans h₁.2.2 h₂.2.2⟩

theorem le_refl {a : Double} (h : a.isNaN = false) : a ≤ a := by
  simp [le_iff, h]

theorem le_of_lt {a b : Double} (h : a < b) : a ≤ b := by
  rw [lt_iff] at h
  exact le_iff.2 ⟨h.1, h.2.1, Int.le_of_lt h.2.2⟩

theorem le_of_not_lt {a b : Double} (ha : a.isNaN = false) (hb : b.isNaN = false) (h : ¬ a < b) :
    b ≤ a := by
  rw [lt_iff] at h
  exact le_iff.2 ⟨hb, ha, Int.not_lt.1 fun hr => h ⟨ha, hb, hr⟩⟩

theorem le_trans {a b c : Double} (h₁ : a ≤ b) (h₂ : b ≤ c) : a ≤ c := by
  rw [le_iff] at *
  exact ⟨h₁.1, h₂.2.1, Int.le_trans h₁.2.2 h₂.2.2⟩

theorem lt_of_lt_of_le {a b c : Double} (h₁ : a < b) (h₂ : b ≤ c) : a < c := by
  rw [lt_iff] at h₁
  rw [le_iff] at h₂
  exact lt_iff.2 ⟨h₁.1, h₂.2.1, by omega⟩

theorem le_infinity {d : Double} (h : d.isNaN = false) : d ≤ infinity :=
  le_iff.2 ⟨h, infinity_isNaN, rank_le_infinity h⟩

theorem not_infinity_lt (d : Double) : ¬ infinity < d := by
  rw [lt_iff]
  rintro ⟨-, hd, hlt⟩
  exact absurd (rank_le_infinity hd) (Int.not_le.2 hlt)

end Double

end TileSched
