import Dispatch.Proofs.Double.Exact
import Dispatch.Proofs.Json.Reading

/-!
# Doubles that are read back

A number is read as a whole number times or over a power of ten. Where both of these are doubles as
they are, the result is rounded once, and it is the nearest double to what the text says. So each
double with a short decimal is read back from its text: `readsBack_of_short`. With a longer one
some are and some are not.
-/

namespace Dispatch

namespace Decimal

/-- A decimal of the same number with `k` more places has `k` more zeros. -/
theorem coefficient_of_magnitude {d m : Decimal} {k : Nat} (h : m.magnitude = d.magnitude)
    (he : d.exponent = m.exponent + k) : m.coefficient = d.coefficient * 10 ^ k := by
  have hten : (10 : ℚ) ^ m.exponent ≠ 0 := by positivity
  rw [magnitude, magnitude, he, zpow_add₀ (by norm_num), zpow_natCast, mul_comm (10 ^ m.exponent),
    ← mul_assoc] at h
  exact_mod_cast mul_right_cancel₀ hten h

theorem neg_toDouble (d : Decimal) : (d.toDouble false).neg = d.toDouble true := by
  simp only [toDouble, Double.ofQuotient, Double.ofRank]
  split <;> rfl

/-- Both the digits, with the zeros of a plain form, and the power of ten are doubles as they
are. -/
structure Short (d : Decimal) : Prop where
  fits : d.coefficient * 10 ^ (d.exponent + 1).toNat < 2 ^ 53
  low : -22 ≤ d.exponent
  high : d.exponent ≤ 22

end Decimal

namespace Json

open Literal (sign)

theorem scale_nearest {n : Nat} {e : Int} (hn : n < 2 ^ 53) (he : -22 ≤ e) (he' : e ≤ 22) :
    scale (Double.ofNat n) e = (Decimal.mk n e).toDouble false := by
  have hone : ∀ i : Int, i ≤ 0 → wholePower 10 i = 1 := by
    intro i hi
    rw [wholePower, Int.toNat_of_nonpos hi]
  have hten : ∀ i : Int, i ≤ 22 → Double.Exact (wholePower 10 i) :=
    fun i hi => Double.exact_ten (by omega)
  have hlow : ¬ e < -308 := by omega
  have hhigh : e ≤ 308 := by omega
  have hexact := Double.exact_of_lt hn
  rw [scale, if_neg hlow, Decimal.toDouble, Decimal.numerator, Decimal.denominator]
  by_cases hneg : e < 0
  · rw [if_pos hneg, Double.div_exact hexact (hten _ (by omega)) (wholePower_pos (by decide)),
      hone e (by omega), Nat.mul_one]
  · rw [if_neg hneg, if_pos hhigh, Double.mul_exact hexact (hten _ he'), hone (-e) (by omega)]

theorem ofParts_fitted {ds : List Char} {fraction : Option (List Char)} {exponent : Option Int}
    (h : fraction ≠ none ∨ exponent ≠ none)
    (hn : Nat.ofDigitChars 10 (ds ++ fraction.getD []) 0 < UInt64.size) (negative : Bool) :
    ofParts negative ds fraction exponent =
      let x := scale (Double.ofNat (Nat.ofDigitChars 10 (ds ++ fraction.getD []) 0))
        (exponent.getD 0 - (fraction.getD []).length)
      .real (if negative then x.neg else x) := by
  rw [Nat.ofDigitChars_append] at hn ⊢
  have hwhole := fitted_of_lt (Nat.lt_of_le_of_lt (le_ofDigitChars _ (fraction.getD [])) hn)
  have hfraction := fitted_of_lt hn
  cases fraction with
  | some fs => simp_all [ofParts, Int.add_comm, Int.sub_eq_add_neg]
  | none =>
    cases exponent with
    | some e => simp_all [ofParts]
    | none => simp at h

/-- A number of up to 53 bits over a small power of ten is read as the double nearest to it. -/
theorem Spells.nearest {t : List Char} {m : Decimal} (h : Spells t m)
    (hc : m.coefficient < 2 ^ 53) (he : -22 ≤ m.exponent) (he' : m.exponent ≤ 22)
    (negative : Bool) : Number (sign negative ++ t) (.real (m.toDouble negative)) := by
  obtain ⟨ds, fraction, exponent, hsome, hcoefficient, hexponent, hnumber⟩ := h
  have hsize : Nat.ofDigitChars 10 (ds ++ fraction.getD []) 0 < UInt64.size := by
    rw [← hcoefficient]
    exact Nat.lt_trans hc (by decide)
  have hscale : scale (Double.ofNat (Nat.ofDigitChars 10 (ds ++ fraction.getD []) 0))
      (exponent.getD 0 - (fraction.getD []).length) = m.toDouble false := by
    rw [← hcoefficient, ← hexponent]
    exact scale_nearest hc he he'
  have hparts := ofParts_fitted hsome hsize negative
  rw [hscale] at hparts
  have hreal : ofParts negative ds fraction exponent = .real (m.toDouble negative) := by
    rw [hparts]
    cases negative with
    | false => rfl
    | true => exact congrArg Json.real m.neg_toDouble
  exact hreal ▸ hnumber negative

/-- Every double whose shortest decimal is short is read back from its own text. -/
theorem readsBack_of_short {negative : Bool} {rank : Fin Double.ranks}
    (h : (Double.shortest numberStyle.tie rank).Short) : ReadsBack (.finite negative rank) := by
  obtain ⟨m, hm, hmagnitude, hexponent⟩ := spells_magnitude rank
  have hlow := h.low
  have hhigh := h.high
  obtain ⟨k, hk, hplaces⟩ : ∃ k : Nat,
      (Double.shortest numberStyle.tie rank).exponent = m.exponent + k ∧
      k ≤ ((Double.shortest numberStyle.tie rank).exponent + 1).toNat :=
    ⟨((Double.shortest numberStyle.tie rank).exponent - m.exponent).toNat, by omega, by omega⟩
  have hcoefficient : m.coefficient < 2 ^ 53 := by
    rw [Decimal.coefficient_of_magnitude hmagnitude hk]
    exact Nat.lt_of_le_of_lt
      (Nat.mul_le_mul_left _ (Nat.pow_le_pow_right (by decide) hplaces)) h.fits
  have hnumber := hm.nearest hcoefficient (by omega) (by omega) negative
  rw [Double.toDouble_of_magnitude hmagnitude] at hnumber
  exact readsBack_iff.mpr hnumber

/-- A power of ten from `10 ^ 23` on is rounded before the number is. -/
example : ¬ ReadsBack (.ofQuotient false 2 (10 ^ 26)) := by decide +kernel

end Json

end Dispatch
