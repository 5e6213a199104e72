import Dispatch.Double.Text
import Dispatch.Proofs.Double.Rounding
import Dispatch.Proofs.Grammar.Literal

/-!
# Doubles without exponent

A double from `0.0001` to below `1e16`, or zero, is shown as digits with a point between them, and
is the double nearest to what those digits say: `inspect_of_plain`. The shortest decimal reads back
because the neighbours are tried and the exact decimal is the number itself; the zeros taken off it
and the zeros put around the point do not change its number. All other finite doubles are shown
with an exponent, which is no form of a number in a signature or a call.
-/

namespace Dispatch

namespace Decimal

def magnitude (d : Decimal) : ℚ := d.coefficient * (10 : ℚ) ^ d.exponent

theorem magnitude_eq (d : Decimal) : d.magnitude = d.numerator / d.denominator := by
  have hdiv := wholePower_div 10 d.exponent
  push_cast at hdiv
  rw [magnitude, numerator, denominator, Nat.cast_mul, mul_div_assoc, hdiv]

theorem nearestRank_congr {d e : Decimal} (h : d.magnitude = e.magnitude) :
    Double.nearestRank d.numerator d.denominator =
      Double.nearestRank e.numerator e.denominator := by
  have hd : (d.denominator : ℚ) ≠ 0 := by exact_mod_cast d.denominator_pos.ne'
  have he : (e.denominator : ℚ) ≠ 0 := by exact_mod_cast e.denominator_pos.ne'
  rw [magnitude_eq, magnitude_eq, div_eq_div_iff hd he] at h
  exact Double.nearestRank_congr d.denominator_pos e.denominator_pos (by exact_mod_cast h)

def zeros (d : Decimal) : Nat := (d.digits.reverse.takeWhile (· = '0')).length

theorem digits_zeros (d : Decimal) :
    ∃ ds, d.digits = ds ++ List.replicate d.zeros '0' := by
  have hz : d.digits.reverse.takeWhile (· = '0') = List.replicate d.zeros '0' :=
    List.eq_replicate_iff.mpr ⟨rfl, fun c hc => by simpa using of_mem_takeWhile hc⟩
  refine ⟨(d.digits.reverse.dropWhile (· = '0')).reverse, ?_⟩
  rw [← List.reverse_inj, List.reverse_append, List.reverse_reverse, List.reverse_replicate, ← hz,
    List.takeWhile_append_dropWhile]

theorem coefficient_zeros (d : Decimal) : ∃ n, d.coefficient = n * 10 ^ d.zeros := by
  obtain ⟨ds, hds⟩ := d.digits_zeros
  refine ⟨Nat.ofDigitChars 10 ds 0, ?_⟩
  rw [← d.ofDigitChars_digits, hds, Nat.ofDigitChars_append, Nat.ofDigitChars_replicate_zero,
    Nat.mul_comm]

theorem magnitude_trim (d : Decimal) : d.trim.magnitude = d.magnitude := by
  have htrim : d.trim = if d.coefficient = 0 then d
      else ⟨d.coefficient / wholePower 10 d.zeros, d.exponent + d.zeros⟩ := rfl
  rw [htrim]
  split
  · rfl
  · obtain ⟨n, hn⟩ := d.coefficient_zeros
    have hpow : wholePower 10 d.zeros = 10 ^ d.zeros := rfl
    have hquot : d.coefficient / wholePower 10 d.zeros = n := by
      rw [hpow, hn, Nat.mul_div_cancel _ (Nat.pow_pos (by decide))]
    rw [hquot, magnitude, magnitude, hn, zpow_add₀ (by norm_num), zpow_natCast]
    push_cast
    ring

end Decimal

-- ---------------------------------------------------------------------
-- The shortest decimal
-- ---------------------------------------------------------------------

namespace Double

theorem magnitude_exact (rank : Nat) : (exact rank).magnitude = magnitude rank := by
  have hfive : (wholePower 5 (-exponent rank) : ℚ) * wholePower 2 (-exponent rank) =
      (10 : ℚ) ^ (-exponent rank).toNat := by
    rw [cast_wholePower, cast_wholePower, ← mul_pow]
    norm_num
  have htwo : (wholePower 2 (-exponent rank) : ℚ) ≠ 0 := by
    exact_mod_cast (denominator_pos rank).ne'
  have hten : (10 : ℚ) ^ (-exponent rank).toNat ≠ 0 := by positivity
  rw [magnitude, denominator, Decimal.magnitude, exact, zpow_neg, zpow_natCast, Nat.cast_mul,
    ← div_eq_mul_inv, div_eq_div_iff hten htwo, mul_assoc, hfive]

theorem readsBack_iff {rank : Nat} {d : Decimal} :
    readsBack rank d = true ↔ nearestRank d.numerator d.denominator = rank := by
  simp [readsBack]

theorem readsBack_exact (rank : Nat) : readsBack rank (exact rank) = true := by
  have hd : ((exact rank).denominator : ℚ) ≠ 0 := by
    exact_mod_cast (exact rank).denominator_pos.ne'
  have hr : (denominator rank : ℚ) ≠ 0 := by exact_mod_cast (denominator_pos rank).ne'
  have h := magnitude_exact rank
  rw [Decimal.magnitude_eq, magnitude, div_eq_div_iff hd hr] at h
  rw [readsBack_iff]
  exact (nearestRank_congr (exact rank).denominator_pos (denominator_pos rank)
    (by exact_mod_cast h)).trans (nearestRank_rank rank)

theorem readsBack_shortest (tie : Tie) (rank : Nat) :
    readsBack rank (shortest tie rank) = true := by
  have hfound : ∀ found : Option Decimal, (∀ d ∈ found, readsBack rank d = true) →
      readsBack rank (found.getD (exact rank)).trim = true := by
    intro found h
    rw [readsBack_iff, Decimal.nearestRank_congr (Decimal.magnitude_trim _), ← readsBack_iff]
    cases found with
    | none => exact readsBack_exact rank
    | some d => exact h d rfl
  refine hfound _ fun d hd => ?_
  obtain ⟨n, -, hn⟩ := List.exists_of_findSome?_eq_some hd
  exact readsBack_of_neighbour? hn

theorem coefficient_shortest {tie : Tie} {rank : Nat} (h : rank ≠ 0) :
    (shortest tie rank).coefficient ≠ 0 := by
  intro hz
  have hback := readsBack_iff.mp (readsBack_shortest tie rank)
  rw [Decimal.numerator, hz, Nat.zero_mul] at hback
  exact h hback.symm

theorem toDouble_of_magnitude {tie : Tie} {rank : Fin ranks} {d : Decimal}
    (h : d.magnitude = (shortest tie rank).magnitude) (negative : Bool) :
    d.toDouble negative = .finite negative rank := by
  rw [Decimal.toDouble, ofQuotient, Decimal.nearestRank_congr h,
    readsBack_iff.mp (readsBack_shortest tie rank), ofRank_of_lt rank.isLt]

-- ---------------------------------------------------------------------
-- Plain texts
-- ---------------------------------------------------------------------

open Literal (Digits sign Number)

theorem digits_toDigits (n : Nat) : Digits (Nat.toDigits 10 n) :=
  ⟨Nat.toDigits_ne_nil, fun _ hc =>
    Scan.isDigit_iff.mp (Nat.isDigit_of_mem_toDigits (by decide) (by decide) hc)⟩

theorem isDigit_of_mem_zeros (h : c ∈ List.replicate k '0') : IsDigit c := by
  rw [(List.mem_replicate.mp h).2]
  decide

/-- The digits before and behind a point say the number of the decimal. -/
structure Says (d : Decimal) (ds fs : List Char) : Prop where
  whole : Digits ds
  fraction : Digits fs
  magnitude : (Decimal.ofDigits ds fs).magnitude = d.magnitude

theorem digits_decimal (d : Decimal) : Digits d.digits := digits_toDigits d.coefficient

theorem digits_zero : Digits ['0'] :=
  ⟨by simp, fun c hc => isDigit_of_mem_zeros (k := 1) hc⟩

theorem point_eq (d : Decimal) : d.point = d.digits.length + d.exponent := rfl

theorem says_zeros_before {d : Decimal} (h : d.point ≤ 0) :
    Says d ['0'] (List.replicate (-d.point).toNat '0' ++ d.digits) where
  whole := digits_zero
  fraction := by
    refine ⟨by simp [(digits_decimal d).1], fun c hc => ?_⟩
    rcases List.mem_append.mp hc with hc | hc
    · exact isDigit_of_mem_zeros hc
    · exact (digits_decimal d).2 c hc
  magnitude := by
    have hcoefficient : Nat.ofDigitChars 10
        (['0'] ++ (List.replicate (-d.point).toNat '0' ++ d.digits)) 0 = d.coefficient := by
      rw [Nat.ofDigitChars_append, Nat.ofDigitChars_append, Nat.ofDigitChars_replicate_zero]
      exact d.ofDigitChars_digits
    have hexponent : -((List.replicate (-d.point).toNat '0' ++ d.digits).length : Int) =
        d.exponent := by
      have := point_eq d
      rw [List.length_append, List.length_replicate]
      omega
    rw [Decimal.ofDigits, hcoefficient, hexponent]

theorem says_zeros_behind {d : Decimal} {k : Nat} (h : d.exponent = k) :
    Says d (d.digits ++ List.replicate k '0') ['0'] where
  whole := by
    refine ⟨by simp [(digits_decimal d).1], fun c hc => ?_⟩
    rcases List.mem_append.mp hc with hc | hc
    · exact (digits_decimal d).2 c hc
    · exact isDigit_of_mem_zeros hc
  fraction := digits_zero
  magnitude := by
    have hcoefficient : Nat.ofDigitChars 10 (d.digits ++ List.replicate k '0' ++ ['0']) 0 =
        10 * (10 ^ k * d.coefficient) := by
      rw [Nat.ofDigitChars_append, Nat.ofDigitChars_append, d.ofDigitChars_digits,
        Nat.ofDigitChars_replicate_zero]
      rfl
    rw [Decimal.magnitude, Decimal.magnitude, Decimal.ofDigits, hcoefficient, h]
    push_cast
    norm_num
    ring

theorem says_digits {d : Decimal} (h : 0 < d.point) (h' : d.point.toNat < d.digits.length) :
    Says d (d.digits.take d.point.toNat) (d.digits.drop d.point.toNat) where
  whole := by
    refine ⟨?_, fun c hc => (digits_decimal d).2 c (List.mem_of_mem_take hc)⟩
    rw [Ne, List.take_eq_nil_iff, not_or]
    exact ⟨by omega, (digits_decimal d).1⟩
  fraction := by
    refine ⟨?_, fun c hc => (digits_decimal d).2 c (List.mem_of_mem_drop hc)⟩
    rw [Ne, List.drop_eq_nil_iff]
    omega
  magnitude := by
    have hexponent : -((d.digits.drop d.point.toNat).length : Int) = d.exponent := by
      have := point_eq d
      rw [List.length_drop]
      omega
    rw [Decimal.ofDigits, List.take_append_drop, d.ofDigitChars_digits, hexponent]

/-- Behind the point stand as many digits as the exponent asks for, or a zero. -/
theorem plainText_says (d : Decimal) : ∃ ds fs, plainText d = ds ++ '.' :: fs ∧ Says d ds fs ∧
    (fs.length : Int) = max 1 (-d.exponent) := by
  have hpoint := point_eq d
  have hdigits : 0 < d.digits.length := List.length_pos_iff.mpr (digits_decimal d).1
  unfold plainText
  split
  · rename_i h
    refine ⟨_, _, rfl, says_zeros_before h, ?_⟩
    rw [List.length_append, List.length_replicate]
    omega
  · split
    · obtain ⟨k, hk⟩ : ∃ k : Nat, d.exponent = k := Int.eq_ofNat_of_zero_le (by omega)
      have hzeros : d.point.toNat - d.digits.length = k := by omega
      refine ⟨_, _, by rw [hzeros], says_zeros_behind hk, ?_⟩
      rw [List.length_singleton]
      omega
    · refine ⟨_, _, rfl, says_digits (by omega) (by omega), ?_⟩
      rw [List.length_drop]
      omega

/-- Zero, or from a ten-thousandth to below `10 ^ 16`. -/
def Plain : Double → Prop
  | .finite _ rank =>
    magnitude rank = 0 ∨ 1 / 10 ^ 4 ≤ magnitude rank ∧ magnitude rank < 10 ^ 16
  | _ => False

theorem magnitude_zero : magnitude 0 = 0 := by
  have hzero : numerator 0 = 0 := Nat.zero_mul _
  rw [magnitude, hzero, Nat.cast_zero, zero_div]

theorem magnitude_eq_zero_iff {rank : Nat} : magnitude rank = 0 ↔ rank = 0 := by
  rw [← magnitude_zero]
  exact magnitude_strictMono.injective.eq_iff

/-- The rank that a number falls on, or falls behind by less than one, bounds the ranks from it. -/
theorem le_magnitude_iff {b : ℚ} {n rank : Nat} (h : magnitude n < b) (h' : b ≤ magnitude (n + 1)) :
    b ≤ magnitude rank ↔ n + 1 ≤ rank := by
  constructor
  · exact fun hr => magnitude_strictMono.lt_iff_lt.mp (h.trans_le hr)
  · exact fun hr => h'.trans (magnitude_strictMono.le_iff_le.mpr hr)

theorem isPlain_iff {rank : Nat} : shown.isPlain rank = true ↔
    magnitude rank = 0 ∨ 1 / 10 ^ 4 ≤ magnitude rank ∧ magnitude rank < 10 ^ 16 := by
  have hfrom : shown.plainFrom = 4547007122018943788 + 1 := by decide +kernel
  have hbelow : shown.plainBelow = 4846369599423283199 + 1 := by decide +kernel
  have hlow : 1 / 10 ^ 4 ≤ magnitude rank ↔ shown.plainFrom ≤ rank := by
    rw [hfrom]
    refine le_magnitude_iff ?_ ?_
    · norm_num [magnitude_eq, significand, exponent]
    · norm_num [magnitude_eq, significand, exponent]
  have hhigh : 10 ^ 16 ≤ magnitude rank ↔ shown.plainBelow ≤ rank := by
    rw [hbelow]
    refine le_magnitude_iff ?_ ?_
    · norm_num [magnitude_eq, significand, exponent]
    · norm_num [magnitude_eq, significand, exponent]
  rw [magnitude_eq_zero_iff, hlow, ← not_le, hhigh, not_le]
  simp [Style.isPlain]

-- ---------------------------------------------------------------------
-- Shown doubles
-- ---------------------------------------------------------------------

/-- A plain double is shown as a number that is nearest to itself. -/
theorem inspect_of_plain {x : Double} (h : x.Plain) : Number x.inspect (.float x) := by
  cases x with
  | nan => cases h
  | infinite => cases h
  | finite negative rank =>
    let d := shortest shown.tie rank
    obtain ⟨ds, fs, htext, hsays, -⟩ := plainText_says d
    have hshown : inspect (.finite negative rank) = sign negative ++ (ds ++ '.' :: fs) := by
      rw [← htext, inspect, Style.finite, Style.magnitude, if_pos (isPlain_iff.mpr h)]
      rfl
    rw [hshown, ← toDouble_of_magnitude hsays.magnitude negative]
    exact .float hsays.whole hsays.fraction

theorem inspect_of_not_plain {negative : Bool} {rank : Fin ranks}
    (h : ¬ Plain (.finite negative rank)) : inspect (.finite negative rank) =
      sign negative ++ exponentText false (shortest shown.tie rank) := by
  rw [inspect, Style.finite, Style.magnitude, if_neg fun hp => h (isPlain_iff.mp hp)]
  rfl

/-- With an exponent a number begins with a digit and has just one letter. -/
theorem exponentText_splits (d : Decimal) : ∃ c u p, exponentText false d = c :: (u ++ 'e' :: p) ∧
    IsDigit c ∧ ∀ x ∈ u ++ p, x = '-' ∨ x = '.' ∨ IsDigit x := by
  obtain ⟨c, u, hd, hc⟩ := (digits_decimal d).head
  have hu : ∀ x ∈ u, IsDigit x := fun x hx => (digits_decimal d).2 x (by simp [hd, hx])
  have hpower : ∀ x ∈ Text.signed (d.point - 1), x = '-' ∨ IsDigit x := by
    intro x hx
    have hnat : x ∈ Nat.toDigits 10 (d.point - 1).natAbs → IsDigit x :=
      (digits_toDigits _).2 x
    unfold Text.signed at hx
    split at hx
    · exact (List.mem_cons.mp hx).imp_right hnat
    · exact .inr (hnat hx)
  refine ⟨c, if u = [] then [] else '.' :: u, Text.signed (d.point - 1), ?_, hc, ?_⟩
  · rw [exponentText, hd]
    cases u <;> simp
  · intro x hx
    rcases List.mem_append.mp hx with hx | hx
    · split at hx
      · cases hx
      · exact .inr ((List.mem_cons.mp hx).imp_right (hu x))
    · exact (hpower x hx).imp_right .inr

end Double

end Dispatch
