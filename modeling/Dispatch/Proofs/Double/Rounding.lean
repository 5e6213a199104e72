import Dispatch.Double.Basic
import Mathlib.Algebra.Order.Field.Power
import Mathlib.Data.Int.Log
import Mathlib.Data.Rat.Floor

/-!
# Rounding to a rank

The nearest rank depends only on the number that a quotient stands for (`nearestRank_congr`), and a
rank is nearest to its own number (`nearestRank_rank`). Ranks are in the order of their numbers
(`magnitude_strictMono`). The binade of a quotient is found by comparing whole numbers;
`binade_eq_log` says that it is the logarithm of the number.
-/

namespace Dispatch

theorem cast_wholePower (base : Nat) (e : Int) : (wholePower base e : ℚ) = (base : ℚ) ^ e.toNat :=
  Nat.cast_pow base e.toNat

theorem wholePower_div (base : Nat) (e : Int) :
    (wholePower base e : ℚ) / wholePower base (-e) = (base : ℚ) ^ e := by
  rw [cast_wholePower, cast_wholePower]
  obtain ⟨n, rfl | rfl⟩ := e.eq_nat_or_neg
  · simp
  · simp

namespace Double

theorem le_scaled_iff {num den : Nat} (hd : 0 < den) (t : Int) :
    den * wholePower 2 t ≤ num * wholePower 2 (-t) ↔ (2 : ℚ) ^ t ≤ (num : ℚ) / den := by
  have hden : (0 : ℚ) < den := by exact_mod_cast hd
  have hpow : (0 : ℚ) < wholePower 2 (-t) := by exact_mod_cast wholePower_pos (by decide)
  have hdiv := wholePower_div 2 t
  push_cast at hdiv
  rw [← hdiv, div_le_div_iff₀ hpow hden, mul_comm (wholePower 2 t : ℚ)]
  exact_mod_cast Iff.rfl

theorem log_eq {r : ℚ} (hr : 0 < r) {t : Int} (h : (2 : ℚ) ^ t ≤ r) (h' : r < (2 : ℚ) ^ (t + 1)) :
    Int.log 2 r = t := by
  have hle := (Int.zpow_le_iff_le_log (b := 2) (by decide) hr).mp h
  have hlt := (Int.lt_zpow_iff_log_lt (b := 2) (by decide) hr).mp h'
  omega

theorem log2_bounds {n : Nat} (h : 0 < n) :
    (2 : ℚ) ^ (n.log2 : Int) ≤ n ∧ (n : ℚ) < 2 ^ (n.log2 + 1 : Int) := by
  refine ⟨?_, ?_⟩
  · rw [zpow_natCast]
    exact_mod_cast Nat.log2_self_le (Nat.ne_of_gt h)
  · rw [← Nat.cast_succ, zpow_natCast]
    exact_mod_cast Nat.lt_log2_self

/-- The logarithms of both parts leave two binades for their quotient. -/
theorem quotient_bounds {num den : Nat} (hn : 0 < num) (hd : 0 < den) :
    (2 : ℚ) ^ (num.log2 - den.log2 - 1 : Int) ≤ num / den ∧
      (num : ℚ) / den < 2 ^ (num.log2 - den.log2 + 1 : Int) := by
  obtain ⟨hn₁, hn₂⟩ := log2_bounds hn
  obtain ⟨hd₁, hd₂⟩ := log2_bounds hd
  have hden : (0 : ℚ) < den := by exact_mod_cast hd
  refine ⟨?_, ?_⟩
  · rw [le_div_iff₀ hden]
    calc (2 : ℚ) ^ (num.log2 - den.log2 - 1 : Int) * den
        ≤ 2 ^ (num.log2 - den.log2 - 1 : Int) * 2 ^ (den.log2 + 1 : Int) := by gcongr
      _ = 2 ^ (num.log2 : Int) := by
        rw [← zpow_add₀ (by norm_num)]
        congr 1
        ring
      _ ≤ num := hn₁
  · rw [div_lt_iff₀ hden]
    calc (num : ℚ) < 2 ^ (num.log2 + 1 : Int) := hn₂
      _ = 2 ^ (num.log2 - den.log2 + 1 : Int) * 2 ^ (den.log2 : Int) := by
        rw [← zpow_add₀ (by norm_num)]
        congr 1
        ring
      _ ≤ 2 ^ (num.log2 - den.log2 + 1 : Int) * den := by gcongr

theorem binade_eq_log {num den : Nat} (hn : 0 < num) (hd : 0 < den) :
    binade num den = Int.log 2 ((num : ℚ) / den) := by
  have hr : (0 : ℚ) < (num : ℚ) / den := by positivity
  obtain ⟨hlow, hhigh⟩ := quotient_bounds hn hd
  unfold binade
  dsimp only
  split
  · rename_i h
    exact (log_eq hr ((le_scaled_iff hd _).mp h) hhigh).symm
  · rename_i h
    rw [le_scaled_iff hd, not_le] at h
    exact (log_eq hr hlow (by rwa [sub_add_cancel])).symm

-- ---------------------------------------------------------------------
-- Nearest ranks
-- ---------------------------------------------------------------------

theorem roundQuotient_mul_right {k : Nat} (hk : 0 < k) (num den : Nat) :
    roundQuotient (num * k) (den * k) = roundQuotient num den := by
  have hlt : ∀ a b : Nat, a * k < b * k ↔ a < b := fun a b => Nat.mul_lt_mul_right hk
  simp only [roundQuotient, Nat.mul_div_mul_right _ _ hk, Nat.mul_mod_mul_right, ← Nat.mul_assoc,
    hlt]

theorem roundQuotient_congr (hd : 0 < den) (hd' : 0 < den') (h : num * den' = num' * den) :
    roundQuotient num den = roundQuotient num' den' := by
  rw [← roundQuotient_mul_right hd' num den, h, Nat.mul_comm den den',
    roundQuotient_mul_right hd num' den']

theorem roundQuotient_mul_self {den : Nat} (hd : 0 < den) (n : Nat) :
    roundQuotient (n * den) den = n := by
  simp [roundQuotient, Nat.mul_div_cancel n hd, hd]

/-- Only the number counts, not the quotient it is given by. -/
theorem nearestRank_congr (hd : 0 < den) (hd' : 0 < den') (h : num * den' = num' * den) :
    nearestRank num den = nearestRank num' den' := by
  have hzero : num = 0 ↔ num' = 0 := by
    constructor
    · rintro rfl
      exact (Nat.mul_eq_zero.mp (h.symm.trans (Nat.zero_mul _))).resolve_right hd.ne'
    · rintro rfl
      exact (Nat.mul_eq_zero.mp (h.trans (Nat.zero_mul _))).resolve_right hd'.ne'
  by_cases hn : num = 0
  · rw [nearestRank, nearestRank, if_pos hn, if_pos (hzero.mp hn)]
  · have hn' : ¬ num' = 0 := fun he => hn (hzero.mpr he)
    have hq : (num : ℚ) / den = (num' : ℚ) / den' := by
      rw [div_eq_div_iff (by exact_mod_cast hd.ne') (by exact_mod_cast hd'.ne')]
      exact_mod_cast h
    have hplace : lastPlace num den = lastPlace num' den' := by
      rw [lastPlace, lastPlace, binade_eq_log (Nat.pos_of_ne_zero hn) hd,
        binade_eq_log (Nat.pos_of_ne_zero hn') hd', hq]
    rw [nearestRank, nearestRank, if_neg hn, if_neg hn']
    dsimp only
    rw [hplace]
    congr 1
    have hpos : ∀ e : Int, 0 < wholePower 2 e := fun e => wholePower_pos (by decide)
    refine roundQuotient_congr (Nat.mul_pos hd (hpos _)) (Nat.mul_pos hd' (hpos _)) ?_
    rw [Nat.mul_mul_mul_comm, h, Nat.mul_mul_mul_comm]

-- ---------------------------------------------------------------------
-- The number of a rank
-- ---------------------------------------------------------------------

def magnitude (rank : Nat) : ℚ := (numerator rank : ℚ) / denominator rank

theorem magnitude_eq (rank : Nat) :
    magnitude rank = significand rank * (2 : ℚ) ^ exponent rank := by
  have hdiv := wholePower_div 2 (exponent rank)
  push_cast at hdiv
  rw [magnitude, numerator, denominator, Nat.cast_mul, mul_div_assoc, hdiv]

theorem subnormal {rank : Nat} (h : rank < binadeSize) :
    significand rank = rank ∧ exponent rank = -1074 := by
  simp [significand, exponent, h]

theorem normal {rank : Nat} (h : binadeSize ≤ rank) :
    significand rank = binadeSize + rank % binadeSize ∧
      exponent rank = (rank / binadeSize : Nat) - 1075 := by
  simp [significand, exponent, Nat.not_lt.mpr h]

theorem significand_pos {rank : Nat} (h : 0 < rank) : 0 < significand rank := by
  by_cases hr : rank < binadeSize
  · rwa [(subnormal hr).1]
  · rw [(normal (Nat.not_lt.mp hr)).1]
    exact Nat.add_pos_left (by decide) _

theorem magnitude_pos {rank : Nat} (h : 0 < rank) : 0 < magnitude rank := by
  have hs : (0 : ℚ) < significand rank := by exact_mod_cast significand_pos h
  rw [magnitude_eq]
  positivity

theorem log_magnitude_lt {rank k : Nat} (hr : 0 < rank) (h : significand rank < 2 ^ k) :
    Int.log 2 (magnitude rank) < k + exponent rank := by
  refine (Int.lt_zpow_iff_log_lt (b := 2) (by decide) (magnitude_pos hr)).mp ?_
  rw [magnitude_eq, Nat.cast_ofNat, zpow_add₀ (by norm_num), zpow_natCast]
  have hs : (significand rank : ℚ) < 2 ^ k := by exact_mod_cast h
  gcongr

theorem le_log_magnitude {rank k : Nat} (hr : 0 < rank) (h : 2 ^ k ≤ significand rank) :
    k + exponent rank ≤ Int.log 2 (magnitude rank) := by
  refine (Int.zpow_le_iff_le_log (b := 2) (by decide) (magnitude_pos hr)).mp ?_
  rw [magnitude_eq, Nat.cast_ofNat, zpow_add₀ (by norm_num), zpow_natCast]
  have hs : (2 : ℚ) ^ k ≤ significand rank := by exact_mod_cast h
  gcongr

theorem lastPlace_rank {rank : Nat} (h : 0 < rank) :
    lastPlace (numerator rank) (denominator rank) = exponent rank := by
  have hn : 0 < numerator rank := Nat.mul_pos (significand_pos h) (wholePower_pos (by decide))
  rw [lastPlace, binade_eq_log hn (denominator_pos rank), ← magnitude]
  by_cases hr : rank < binadeSize
  · obtain ⟨hs, he⟩ := subnormal hr
    have hlog : Int.log 2 (magnitude rank) < (52 : Nat) + exponent rank :=
      log_magnitude_lt h (by rw [hs]; exact hr)
    omega
  · obtain ⟨hs, he⟩ := normal (Nat.not_lt.mp hr)
    have hmod : rank % binadeSize < binadeSize := Nat.mod_lt _ (by decide)
    have hdiv : 0 < rank / binadeSize := Nat.div_pos (Nat.not_lt.mp hr) (by decide)
    have hlow : (52 : Nat) + exponent rank ≤ Int.log 2 (magnitude rank) :=
      le_log_magnitude h (by rw [hs]; exact Nat.le_add_right _ _)
    have hhigh : Int.log 2 (magnitude rank) < (53 : Nat) + exponent rank :=
      log_magnitude_lt h (by rw [hs]; exact Nat.add_lt_add_left hmod _)
    omega

theorem rank_eq (rank : Nat) :
    (exponent rank + 1074).toNat * binadeSize + significand rank = rank := by
  by_cases hr : rank < binadeSize
  · obtain ⟨hs, he⟩ := subnormal hr
    rw [hs, he]
    simp
  · obtain ⟨hs, he⟩ := normal (Nat.not_lt.mp hr)
    have hdiv : 0 < rank / binadeSize := Nat.div_pos (Nat.not_lt.mp hr) (by decide)
    obtain ⟨k, hk⟩ : ∃ k, rank / binadeSize = k + 1 := Nat.exists_eq_add_one.mpr hdiv
    have hexp : (((k + 1 : Nat) : Int) - 1075 + 1074).toNat = k := by omega
    rw [hs, he, hk, hexp]
    calc k * binadeSize + (binadeSize + rank % binadeSize)
        = binadeSize * (k + 1) + rank % binadeSize := by ring
      _ = rank := by rw [← hk, Nat.div_add_mod]

theorem nearestRank_rank (rank : Nat) :
    nearestRank (numerator rank) (denominator rank) = rank := by
  by_cases h : rank = 0
  · subst h
    rfl
  · have hn : ¬ numerator rank = 0 := Nat.ne_of_gt
      (Nat.mul_pos (significand_pos (Nat.pos_of_ne_zero h)) (wholePower_pos (by decide)))
    have hpos : ∀ e : Int, 0 < wholePower 2 e := fun e => wholePower_pos (by decide)
    rw [nearestRank, if_neg hn]
    dsimp only
    rw [lastPlace_rank (Nat.pos_of_ne_zero h), numerator, denominator, Nat.mul_assoc,
      Nat.mul_comm (wholePower 2 (-exponent rank)),
      roundQuotient_mul_self (Nat.mul_pos (hpos _) (hpos _)), rank_eq]

theorem succ_cases (rank : Nat) :
    exponent (rank + 1) = exponent rank ∧ significand (rank + 1) = significand rank + 1 ∨
      exponent (rank + 1) = exponent rank + 1 ∧
        2 * significand (rank + 1) = significand rank + 1 := by
  simp only [exponent, significand, binadeSize]
  split <;> split <;> omega

theorem magnitude_succ (rank : Nat) :
    magnitude (rank + 1) = (significand rank + 1 : Nat) * (2 : ℚ) ^ exponent rank := by
  rw [magnitude_eq]
  rcases succ_cases rank with ⟨he, hs⟩ | ⟨he, hs⟩
  · rw [he, hs]
  · rw [he, ← hs, zpow_add_one₀ (by norm_num)]
    push_cast
    ring

theorem magnitude_strictMono : StrictMono magnitude := by
  refine strictMono_nat_of_lt_succ fun rank => ?_
  rw [magnitude_eq, magnitude_succ]
  have hs : (significand rank : ℚ) < (significand rank + 1 : Nat) := by
    exact_mod_cast Nat.lt_succ_self _
  gcongr

end Double

end Dispatch
