import Mathlib
import TileSched.Target
/-! Divisors in increasing order. The enumeration steps `d` from one up to the square root of `m`,
keeps the divisors among them and, apart, their partners `m / d` other than `d` itself. The
divisors found increase with `d` while their partners decrease, and every partner lies past the
square root, so the divisors followed by the reversed partners are every divisor of `m` once, in
increasing order (`divisors_increasing`). The step loop behind the legal tile counts of a
dimension enumerates the same list, and a tile count is legal when it is a multiplier in range
whose multiple of the primitive tile divides the bound (`opTileDomain_increasing`). -/

namespace TileSched

section Enumeration

variable {m : Nat}

theorem divisorsUpTo_go_eq (m r : Nat) : ∀ (k d : Nat) (small large : List Nat), d + k ≤ r + 1 →
    divisorsUpTo.go m r d small large k =
      small.reverse ++ (List.range' d k).filter (fun x => m % x = 0) ++
        ((((List.range' d k).filter (fun x => m % x = 0)).filter (fun x => x ≠ m / x)).map (m / ·)).reverse ++
          large
  | 0, d, small, large, _ => by simp [divisorsUpTo.go]
  | k + 1, d, small, large, hk => by
    rw [divisorsUpTo.go, if_neg (by omega), List.range'_succ, List.filter_cons]
    by_cases hd : m % d = 0
    · rw [if_pos hd, divisorsUpTo_go_eq m r k (d + 1) _ _ (by omega)]
      by_cases hp : d ≠ m / d <;> simp [hd, hp]
    · rw [if_neg hd, divisorsUpTo_go_eq m r k (d + 1) _ _ (by omega)]
      simp [hd]

theorem divisorsUpTo_eq (m : Nat) :
    divisorsUpTo m = ((List.range m.sqrt).map (· + 1)).filter (fun d => m % d = 0) ++
      (((((List.range m.sqrt).map (· + 1)).filter (fun d => m % d = 0)).filter
        (fun d => d ≠ m / d)).map (m / ·)).reverse := by
  have hrange : (List.range m.sqrt).map (· + 1) = List.range' 1 m.sqrt := by
    rw [List.range'_eq_map_range]
    exact List.map_congr_left fun x _ => Nat.add_comm x 1
  rw [divisorsUpTo, divisorsUpTo_go_eq m m.sqrt m.sqrt 1 [] [] (by omega), hrange]
  simp

theorem sqrt_lt_div {d : Nat} (hm : 0 < m) (hd : d ∣ m) (hle : d ≤ m.sqrt) (hne : d ≠ m / d) :
    m.sqrt < m / d := by
  by_contra hgt
  have hdm : d * (m / d) = m := Nat.mul_div_cancel' hd
  have hd0 : 0 < d := Nat.pos_of_dvd_of_pos hd hm
  -- both factors at most the square root multiply to at most `m`, so both are the square root
  have h₁ : d * (m / d) ≤ d * m.sqrt := Nat.mul_le_mul_left d (by omega)
  have h₂ : d * m.sqrt ≤ m.sqrt * m.sqrt := Nat.mul_le_mul_right _ hle
  have hsq := Nat.sqrt_le m
  have he' : m / d = m.sqrt := Nat.eq_of_mul_eq_mul_left hd0 (by omega)
  have hdsq : d * m.sqrt = m := he' ▸ hdm
  have hd' : d = m.sqrt := Nat.eq_of_mul_eq_mul_right (m := m.sqrt) (by omega) (by omega)
  exact hne (hd'.trans he'.symm)

theorem div_le_sqrt {x : Nat} (hx : x ∣ m) (hgt : m.sqrt < x) : m / x ≤ m.sqrt := by
  by_contra hle
  have hxm : (m / x) * x = m := Nat.div_mul_cancel hx
  have hlt := Nat.lt_succ_sqrt m
  have h₁ : m.sqrt + 1 ≤ m / x := by omega
  have h₂ : m.sqrt + 1 ≤ x := hgt
  have hsq : (m.sqrt + 1) * (m.sqrt + 1) ≤ m :=
    calc (m.sqrt + 1) * (m.sqrt + 1) ≤ (m / x) * x := Nat.mul_le_mul h₁ h₂
      _ = m := hxm
  exact absurd hsq (Nat.not_le.2 hlt)

theorem mem_small_divisors {x : Nat} :
    x ∈ ((List.range m.sqrt).map (· + 1)).filter (fun d => m % d = 0) ↔ 1 ≤ x ∧ x ≤ m.sqrt ∧ x ∣ m := by
  simp only [List.mem_filter, List.mem_map, List.mem_range, decide_eq_true_eq, Nat.dvd_iff_mod_eq_zero]
  constructor
  · rintro ⟨⟨y, hy, rfl⟩, hmod⟩
    exact ⟨by omega, by omega, hmod⟩
  · rintro ⟨h₁, h₂, hmod⟩
    exact ⟨⟨x - 1, by omega, by omega⟩, hmod⟩

theorem pairwise_divisorsUpTo (hm : 0 < m) : (divisorsUpTo m).Pairwise (· < ·) := by
  rw [divisorsUpTo_eq]
  have hsteps : (((List.range m.sqrt).map (· + 1)).filter (fun d => m % d = 0)).Pairwise (· < ·) :=
    List.Pairwise.filter _ (List.pairwise_map.2 (List.pairwise_lt_range.imp fun h => Nat.add_lt_add_right h 1))
  refine List.pairwise_append.2 ⟨hsteps, ?_, ?_⟩
  · -- a larger divisor has a smaller partner
    rw [List.pairwise_reverse, List.pairwise_map]
    refine (hsteps.filter _).imp_of_mem fun ha hb hab => ?_
    have ha' := mem_small_divisors.1 (List.mem_filter.1 ha).1
    have hb' := mem_small_divisors.1 (List.mem_filter.1 hb).1
    exact (Nat.div_lt_div_left (by omega) hb'.2.2 ha'.2.2).2 hab
  · -- every small divisor is at most the square root, every partner past it
    intro a ha b hb
    obtain ⟨d, hd, rfl⟩ := List.mem_map.1 (List.mem_reverse.1 hb)
    have hd' := List.mem_filter.1 hd
    have hdm := mem_small_divisors.1 hd'.1
    exact Nat.lt_of_le_of_lt (mem_small_divisors.1 ha).2.1
      (sqrt_lt_div hm hdm.2.2 hdm.2.1 (by simpa using hd'.2))

theorem mem_divisorsUpTo (hm : 0 < m) {x : Nat} : x ∈ divisorsUpTo m ↔ x ∣ m := by
  rw [divisorsUpTo_eq, List.mem_append, List.mem_reverse, mem_small_divisors]
  constructor
  · rintro (⟨-, -, hx⟩ | hx)
    · exact hx
    · obtain ⟨d, hd, rfl⟩ := List.mem_map.1 hx
      exact Nat.div_dvd_of_dvd (mem_small_divisors.1 (List.mem_filter.1 hd).1).2.2
  · intro hx
    have hpos : 1 ≤ x := Nat.pos_of_dvd_of_pos hx hm
    by_cases hle : x ≤ m.sqrt
    · exact .inl ⟨hpos, hle, hx⟩
    · -- past the square root, `x` is the partner of `m / x`
      have hpart : m / (m / x) = x := Nat.div_div_self hx (by omega)
      have hdle : m / x ≤ m.sqrt := div_le_sqrt hx (by omega)
      have hsmall : m / x ∈ ((List.range m.sqrt).map (· + 1)).filter (fun d => m % d = 0) :=
        mem_small_divisors.2 ⟨Nat.div_pos (Nat.le_of_dvd hm hx) hpos, hdle, Nat.div_dvd_of_dvd hx⟩
      refine .inr (List.mem_map.2 ⟨m / x, List.mem_filter.2 ⟨hsmall, ?_⟩, hpart⟩)
      simp only [hpart, ne_eq, decide_eq_true_eq]
      omega

end Enumeration

theorem divisors_eq_map {n : Int} (hn : 0 < n) : divisors n = (divisorsUpTo n.toNat).map Int.ofNat := by
  rw [divisors, if_neg (by omega), divisorsUpTo_eq]

theorem divisors_increasing (n : Int) :
    (divisors n).Pairwise (· < ·) ∧ ∀ x, x ∈ divisors n ↔ 0 < n ∧ 0 < x ∧ x ∣ n := by
  by_cases hn : 0 < n
  · have hcast : ((n.toNat : Nat) : Int) = n := Int.toNat_of_nonneg (by omega)
    rw [divisors_eq_map hn]
    refine ⟨List.pairwise_map.2 ((pairwise_divisorsUpTo (by omega)).imp fun h => Int.ofNat_lt.2 h),
      fun x => ?_⟩
    constructor
    · rintro hx
      obtain ⟨y, hy, rfl⟩ := List.mem_map.1 hx
      have hyn := (mem_divisorsUpTo (by omega)).1 hy
      have hy0 := Nat.pos_of_dvd_of_pos hyn (by omega)
      refine ⟨hn, Int.natCast_pos.2 hy0, ?_⟩
      rw [← hcast]
      exact Int.natCast_dvd_natCast.2 hyn
    · rintro ⟨-, hx, hxn⟩
      refine List.mem_map.2 ⟨x.toNat, (mem_divisorsUpTo (by omega)).2 ?_, Int.toNat_of_nonneg (by omega)⟩
      rw [← Int.natCast_dvd_natCast, hcast, Int.toNat_of_nonneg (by omega)]
      exact hxn
  · rw [divisors, if_pos (by omega)]
    simp [hn]

namespace KernelInfo

theorem one_le_primitive (k : KernelInfo) (d : Nat) : 1 ≤ k.primitive d := le_max_right _ _

theorem opTileDomain_spec (k : KernelInfo) (d : Nat) {b : Int} (hb : 0 < b) :
    (k.opTileDomain d b).Pairwise (· < ·) ∧
      ∀ v, v ∈ k.opTileDomain d b ↔ 0 < v ∧ (k.multipliers.getD d (1, I64.max)).1 ≤ v ∧
        v ≤ (k.multipliers.getD d (1, I64.max)).2 ∧ v * k.primitive d ∣ b := by
  have hp := k.one_le_primitive d
  rcases hm : k.multipliers.getD d (1, I64.max) with ⟨lo, hi⟩
  simp only [opTileDomain, hm, Int.tmod_eq_emod_of_nonneg hb.le, Int.tdiv_eq_ediv_of_nonneg hb.le]
  by_cases hdvd : k.primitive d ∣ b
  · -- the bound is a whole number of primitive tiles: the counts are the divisors of that number
    have hq : 0 < b / k.primitive d := Int.ediv_pos_of_pos_of_dvd hb (by omega) hdvd
    rw [if_neg (not_not.2 (Int.emod_eq_zero_of_dvd hdvd)), if_neg (by omega),
      ← divisors_eq_map hq]
    obtain ⟨hsorted, hmem⟩ := divisors_increasing (b / k.primitive d)
    refine ⟨hsorted.filter _, fun v => ?_⟩
    rw [List.mem_filter, hmem, decide_eq_true_eq, Int.dvd_ediv_iff_mul_dvd hdvd, Int.mul_comm]
    constructor
    · rintro ⟨⟨-, hv, hdiv⟩, hlo, hhi⟩
      exact ⟨hv, hlo, hhi, hdiv⟩
    · rintro ⟨hv, hlo, hhi, hdiv⟩
      exact ⟨⟨hq, hv, hdiv⟩, hlo, hhi⟩
  · -- otherwise no count is legal: every legal multiple of the primitive tile would divide the bound
    rw [if_pos (fun h => hdvd (Int.dvd_of_emod_eq_zero h))]
    refine ⟨List.Pairwise.nil, fun v => ?_⟩
    simp only [List.not_mem_nil, false_iff]
    exact fun ⟨_, _, _, hdiv⟩ => hdvd (Dvd.dvd.trans (Dvd.intro_left v rfl) hdiv)

example : (⟨[2], [(1, 4)]⟩ : KernelInfo).opTileDomain 0 12 = [1, 2, 3] := by
  decide +kernel

/-- Divisors and legal tile counts. `divisors n` is empty for `n ≤ 0` and otherwise lists every
positive divisor of `n` once, in increasing order. For a positive bound, the legal tile counts of a
dimension increase and are exactly the positive multipliers in the dimension's range whose multiple
of the primitive tile divides the bound; there are none when the primitive tile does not divide
it. -/
theorem opTileDomain_increasing (k : KernelInfo) (d : Nat) :
    (∀ n : Int, (divisors n).Pairwise (· < ·) ∧ ∀ x, x ∈ divisors n ↔ 0 < n ∧ 0 < x ∧ x ∣ n) ∧
      ∀ b : Int, 0 < b →
        (k.opTileDomain d b).Pairwise (· < ·) ∧
        (∀ v, v ∈ k.opTileDomain d b ↔ 0 < v ∧ (k.multipliers.getD d (1, I64.max)).1 ≤ v ∧
          v ≤ (k.multipliers.getD d (1, I64.max)).2 ∧ v * k.primitive d ∣ b) ∧
        (¬ k.primitive d ∣ b → k.opTileDomain d b = []) := by
  refine ⟨divisors_increasing, fun b hb => ?_⟩
  obtain ⟨hsorted, hmem⟩ := k.opTileDomain_spec d hb
  refine ⟨hsorted, hmem, fun hndvd => List.eq_nil_iff_forall_not_mem.2 fun v hv => hndvd ?_⟩
  exact Dvd.dvd.trans (Dvd.intro_left v rfl) ((hmem v).1 hv).2.2.2

theorem opTileDomain_increasing_twelve :
    0 < (12 : Int) ∧
      ∀ v, v ∈ (⟨[2], [(1, 4)]⟩ : KernelInfo).opTileDomain 0 12 ↔ 0 < v ∧ 1 ≤ v ∧ v ≤ 4 ∧ v * 2 ∣ 12 :=
  ⟨by decide, ((opTileDomain_increasing ⟨[2], [(1, 4)]⟩ 0).2 12 (by decide)).2.1⟩

/-- Tile counts are positive whatever the multiplier range says: with the range from `-2` to `4`
the count `-1`, whose multiple of the primitive tile divides the bound, is not listed. -/
theorem opTileDomain_omits_negative_counts :
    (⟨[1], [(-2, 4)]⟩ : KernelInfo).opTileDomain 0 4 = [1, 2, 4] ∧
      ¬ ∀ v, v ∈ (⟨[1], [(-2, 4)]⟩ : KernelInfo).opTileDomain 0 4 ↔ -2 ≤ v ∧ v ≤ 4 ∧ v * 1 ∣ 4 := by
  have hdom : (⟨[1], [(-2, 4)]⟩ : KernelInfo).opTileDomain 0 4 = [1, 2, 4] := by
    decide +kernel
  refine ⟨hdom, fun hall => ?_⟩
  have hneg := (hall (-1)).2 (by decide)
  rw [hdom] at hneg
  simp at hneg

end KernelInfo

end TileSched
