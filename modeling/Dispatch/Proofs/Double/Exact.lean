import Dispatch.Proofs.Double.Plain

/-!
# Whole numbers as doubles

Whole numbers of up to 53 bits and small powers of ten are doubles as they are: `exact_of_lt`,
`exact_ten`. A product or quotient of such doubles is rounded only once.
-/

namespace Dispatch.Double

theorem magnitude_normal {k s : Nat} (h : binadeSize ≤ s) (h' : s < 2 * binadeSize) :
    magnitude (k * binadeSize + s) = s * (2 : ℚ) ^ (k - 1074 : Int) := by
  have hrank : binadeSize ≤ k * binadeSize + s := Nat.le_add_left_of_le h
  obtain ⟨hs, he⟩ := normal hrank
  have hdiv : (k * binadeSize + s) / binadeSize = k + 1 := by
    simp only [binadeSize] at h h' ⊢
    omega
  have hmod : binadeSize + (k * binadeSize + s) % binadeSize = s := by
    simp only [binadeSize] at h h' ⊢
    omega
  rw [magnitude_eq, hs, he, hdiv, hmod]
  congr 2
  omega

/-- A number of `t + 1` bits is shifted until it has 53. -/
theorem exists_magnitude_eq {n k : Nat} (h : n < 2 ^ 53) (hk : k ≤ 22) :
    ∃ rank < ranks, magnitude rank = n * 2 ^ k := by
  by_cases hn : n = 0
  · exact ⟨0, by decide, by simp [hn, magnitude_zero]⟩
  · have hlow : 2 ^ n.log2 ≤ n := Nat.log2_self_le hn
    have hhigh : n < 2 ^ (n.log2 + 1) := Nat.lt_log2_self
    have hlog : n.log2 < 53 := (Nat.log2_lt hn).mpr h
    have hshift : 2 ^ n.log2 * 2 ^ (52 - n.log2) = binadeSize := by
      rw [← Nat.pow_add, Nat.add_sub_of_le (by omega)]
    have hs : binadeSize ≤ n * 2 ^ (52 - n.log2) := by
      rw [← hshift]
      exact Nat.mul_le_mul_right _ hlow
    have hs' : n * 2 ^ (52 - n.log2) < 2 * binadeSize := by
      rw [← hshift, ← Nat.mul_assoc, ← Nat.pow_succ']
      exact Nat.mul_lt_mul_of_pos_right hhigh (Nat.pow_pos (by decide))
    refine ⟨(n.log2 + k + 1022) * binadeSize + n * 2 ^ (52 - n.log2), ?_, ?_⟩
    · simp only [ranks, binadeSize] at hs' ⊢
      omega
    · rw [magnitude_normal hs hs']
      have hexponent :
          ((n.log2 + k + 1022 : Nat) : Int) - 1074 = (k : Int) - (52 - n.log2 : Nat) := by
        omega
      rw [hexponent, zpow_sub₀ (by norm_num), zpow_natCast, zpow_natCast]
      push_cast
      field_simp

def Exact (n : Nat) : Prop := ∃ rank < ranks, magnitude rank = n

theorem exact_of_lt {n : Nat} (h : n < 2 ^ 53) : Exact n := by
  obtain ⟨rank, hr, hm⟩ := exists_magnitude_eq h (Nat.zero_le 22)
  exact ⟨rank, hr, by simpa using hm⟩

theorem exact_ten {k : Nat} (hk : k ≤ 22) : Exact (10 ^ k) := by
  have hfive : 5 ^ k < 2 ^ 53 :=
    Nat.lt_of_le_of_lt (Nat.pow_le_pow_right (by decide) hk) (by decide)
  obtain ⟨rank, hr, hm⟩ := exists_magnitude_eq hfive hk
  refine ⟨rank, hr, ?_⟩
  rw [hm]
  push_cast
  rw [← mul_pow]
  norm_num

theorem cross_of_magnitude {n rank : Nat} (h : magnitude rank = n) :
    n * denominator rank = numerator rank := by
  have hd : (denominator rank : ℚ) ≠ 0 := by exact_mod_cast (denominator_pos rank).ne'
  rw [magnitude, div_eq_iff hd] at h
  exact_mod_cast h.symm

theorem ofNat_of_magnitude {n rank : Nat} (hr : rank < ranks) (h : magnitude rank = n) :
    ofNat n = .finite false ⟨rank, hr⟩ := by
  have hcross : n * denominator rank = numerator rank * 1 := by
    rw [cross_of_magnitude h, Nat.mul_one]
  have hrank : nearestRank n 1 = rank :=
    (nearestRank_congr Nat.one_pos (denominator_pos rank) hcross).trans (nearestRank_rank rank)
  rw [ofNat, ofQuotient, hrank, ofRank_of_lt hr]

theorem mul_exact (ha : Exact a) (hb : Exact b) :
    (ofNat a).mul (ofNat b) = ofQuotient false (a * b) 1 := by
  obtain ⟨r, hr, ha⟩ := ha
  obtain ⟨q, hq, hb⟩ := hb
  have hcross : numerator r * numerator q * 1 = a * b * (denominator r * denominator q) := by
    rw [← cross_of_magnitude ha, ← cross_of_magnitude hb]
    ring
  rw [ofNat_of_magnitude hr ha, ofNat_of_magnitude hq hb, mul, ofQuotient,
    nearestRank_congr (Nat.mul_pos (denominator_pos r) (denominator_pos q)) Nat.one_pos hcross]
  rfl

theorem div_exact (ha : Exact a) (hb : Exact b) (hpos : 0 < b) :
    (ofNat a).div (ofNat b) = ofQuotient false a b := by
  obtain ⟨r, hr, ha⟩ := ha
  obtain ⟨q, hq, hb⟩ := hb
  have hn : numerator q = b * denominator q := (cross_of_magnitude hb).symm
  have hq0 : ¬ q = 0 := by
    rintro rfl
    rw [magnitude_zero] at hb
    exact hpos.ne (by exact_mod_cast hb)
  have hcross : numerator r * denominator q * b = a * (denominator r * numerator q) := by
    rw [← cross_of_magnitude ha, hn]
    ring
  have hden : 0 < denominator r * numerator q := by
    rw [hn]
    exact Nat.mul_pos (denominator_pos r) (Nat.mul_pos hpos (denominator_pos q))
  rw [ofNat_of_magnitude hr ha, ofNat_of_magnitude hq hb, div, if_neg hq0, ofQuotient,
    nearestRank_congr hden hpos hcross]
  rfl

end Dispatch.Double
