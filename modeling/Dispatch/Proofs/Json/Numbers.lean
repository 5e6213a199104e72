import Dispatch.Json.Basic
import Dispatch.Json.Reader
import Dispatch.Proofs.Double.Plain
import Dispatch.Proofs.Grammar.Taking

/-!
# Numbers in JSON texts

The form that numbers are written in, with a sign on every exponent. Reading takes what has this
form, and it takes the integers of 64 bits as themselves: `number_takes`, `number_integer`. A
finite double is written as a real number, which need not be the double itself. `Spells` keeps the
decimal that stands in the text.
-/

namespace Dispatch

theorem head_toDigits {n : Nat} (h : n ≠ 0) : (Nat.toDigits 10 n).head? ≠ some '0' := by
  induction n using Nat.strongRecOn with
  | ind n ih =>
    by_cases hn : n < 10
    · have hdigit : ∀ n < 10, n ≠ 0 → Nat.digitChar n ≠ '0' := by decide
      rw [Nat.toDigits_of_lt_base hn]
      simpa using hdigit n hn h
    · rw [Nat.toDigits_of_base_le (by decide) (by omega),
        List.head?_append_of_ne_nil _ Nat.toDigits_ne_nil]
      exact ih (n / 10) (by omega) (by omega)

theorem le_ofDigitChars (n : Nat) (ds : List Char) : n ≤ Nat.ofDigitChars 10 ds n := by
  induction ds generalizing n with
  | nil => exact Nat.le_refl n
  | cons c ds ih =>
    rw [Nat.ofDigitChars_cons]
    exact Nat.le_trans (by omega) (ih _)

namespace Json

open Literal (Digits sign digits_run)

structure Whole (ds : List Char) : Prop where
  digits : Digits ds
  lead : ds.head? = some '0' → ds.length = 1

inductive Fraction : Form (Option (List Char))
  | absent : Fraction [] none
  | present : Digits fs → Fraction ('.' :: fs) (some fs)

inductive Power : Form (Option Int)
  | absent : Power [] none
  | present (negative : Bool) : Digits ds →
      Power ('e' :: (if negative then '-' else '+') :: ds) (some (Text.ofSigned negative ds))

inductive Number : Form Json
  | intro (negative : Bool) : Whole ds → Fraction f fs → Power p e →
      Number (sign negative ++ (ds ++ (f ++ p))) (ofParts negative ds fs e)

def IsBehind (c : Char) : Prop := ¬ IsDigit c ∧ c ≠ '.' ∧ c ≠ 'e' ∧ c ≠ 'E'

def IsLead (c : Char) : Prop := c = '-' ∨ IsDigit c

instance (c : Char) : Decidable (IsBehind c) := inferInstanceAs (Decidable (_ ∧ _))

instance (c : Char) : Decidable (IsLead c) := inferInstanceAs (Decidable (_ ∨ _))

section
variable {c : Char} {s t r ds f p : List Char} {fs : Option (List Char)} {e : Option Int} {j : Json}

theorem before_power (h : Power p e) (hr : Before IsBehind r) :
    Before (fun c => ¬ IsDigit c ∧ c ≠ '.') (p ++ r) := by
  cases h with
  | absent => exact hr.mono fun c h => ⟨h.1, h.2.1⟩
  | present negative => exact before_cons.mpr (by decide)

theorem before_fraction (h : Fraction f fs) (hr : Before (fun c => ¬ IsDigit c ∧ c ≠ '.') r) :
    Before (¬ IsDigit ·) (f ++ r) := by
  cases h with
  | absent => exact hr.mono fun c h => h.1
  | present => exact before_cons.mpr (by decide)

theorem wholePart_takes (h : Whole ds) : Scan.Takes wholePart (¬ IsDigit ·) ds ds := by
  intro r hr
  obtain ⟨ht, hd⟩ := digits_run h.digits hr
  have hne : ds.isEmpty = false := by simpa using h.digits.1
  have hlead : (decide (ds.head? = some '0') && ds.length != 1) = false := by
    simpa using h.lead
  simp only [wholePart, ht, hd, hne, hlead, Bool.or_false, Bool.false_eq_true, if_false]

theorem fractionPart_takes (h : Fraction f fs) :
    Scan.Takes fractionPart (fun c => ¬ IsDigit c ∧ c ≠ '.') f fs := by
  intro r hr
  cases h with
  | absent =>
    cases r with
    | nil => rfl
    | cons c r =>
      rw [List.nil_append, fractionPart.eq_2]
      rintro s h
      cases h
      exact (before_cons.mp hr).2 rfl
  | present h =>
    obtain ⟨ht, hd⟩ := digits_run h (hr.mono fun c h => h.1)
    have hne : List.isEmpty _ = false := List.isEmpty_eq_false_iff.mpr h.1
    simp only [List.cons_append, fractionPart, ht, hd, hne, Bool.false_eq_true, if_false]

theorem exponentPart_takes (h : Power p e) : Scan.Takes exponentPart IsBehind p e := by
  intro r hr
  cases h with
  | absent =>
    cases r with
    | nil => rfl
    | cons c r =>
      obtain ⟨-, -, he, hE⟩ := before_cons.mp hr
      simp [exponentPart, he, hE]
  | @present ds negative h =>
    obtain ⟨ht, hd⟩ := digits_run h (hr.mono fun c h => h.1)
    have hne : ds.isEmpty = false := List.isEmpty_eq_false_iff.mpr h.1
    cases negative <;> simp [exponentPart, ht, hd, hne, Text.ofSigned]

theorem number_takes (h : Number t j) : Scan.Takes numberScan IsBehind t j := by
  intro r hr
  obtain @⟨ds, f, fs, p, e, negative, hw, hf, hp⟩ := h
  have hpower := before_power hp hr
  have hwhole := wholePart_takes hw _ (before_fraction hf hpower)
  have hfraction := fractionPart_takes hf _ hpower
  have hexponent := exponentPart_takes hp r hr
  simp only [List.append_assoc]
  cases negative with
  | true =>
    simp only [sign, if_true, List.singleton_append, numberScan, hwhole, hfraction, hexponent,
      Option.map_some]
  | false =>
    obtain ⟨c, u, rfl, hc⟩ := hw.digits.head
    have hminus : c ≠ '-' := by
      rintro rfl
      exact absurd hc (by decide)
    simp only [sign, Bool.false_eq_true, if_false, List.nil_append, List.cons_append] at hwhole ⊢
    unfold numberScan
    split
    rename_i heq
    split at heq
    · simp_all
    · cases heq
      simp only [hwhole, hfraction, hexponent, Option.map_some]

theorem number_begins (h : Number t j) : Begins IsLead t := by
  obtain @⟨ds, f, fs, p, e, negative, hw, -, -⟩ := h
  obtain ⟨c, u, rfl, hc⟩ := hw.digits.head
  cases negative with
  | true => exact ⟨'-', _, rfl, .inl rfl⟩
  | false => exact ⟨c, _, rfl, .inr hc⟩

end

-- ---------------------------------------------------------------------
-- Integers
-- ---------------------------------------------------------------------

theorem fitted_of_lt {n : Nat} {ds : List Char} (h : Nat.ofDigitChars 10 ds n < UInt64.size) :
    fitted n ds = (Nat.ofDigitChars 10 ds n, []) := by
  induction ds generalizing n with
  | nil => rfl
  | cons c ds ih =>
    rw [Nat.ofDigitChars_cons] at h ⊢
    have hnext := Nat.lt_of_le_of_lt (le_ofDigitChars _ ds) h
    simp only [fitted, if_pos hnext, ih h]

theorem whole_toDigits (n : Nat) : Whole (Nat.toDigits 10 n) where
  digits := Double.digits_toDigits n
  lead h := by
    by_cases hn : n = 0
    · rw [hn]
      rfl
    · exact absurd h (head_toDigits hn)

/-- The integers that are read as such are those of 64 bits, with a sign or without. -/
theorem number_integer {i : Int} (hi : Int64.minValue.toInt ≤ i) (hi' : i < UInt64.size) :
    Number (Text.signed i) (.integer i) := by
  have hmin : Int64.minValue.toInt = -2 ^ 63 := rfl
  have hsize : UInt64.size = 2 ^ 64 := rfl
  have habs : Int64.minValue.toInt.natAbs = 2 ^ 63 := rfl
  have hvalue : Nat.ofDigitChars 10 (Nat.toDigits 10 i.natAbs) 0 = i.natAbs :=
    Nat.ofDigitChars_toDigits (by decide) (by decide)
  have hfitted : fitted 0 (Nat.toDigits 10 i.natAbs) = (i.natAbs, []) := by
    rw [fitted_of_lt (by rw [hvalue]; omega), hvalue]
  have hparts : ofParts (decide (i < 0)) (Nat.toDigits 10 i.natAbs) none none = .integer i := by
    by_cases hneg : i < 0
    · have hbound : ¬ (i.natAbs = 0 ∨ Int64.minValue.toInt.natAbs < i.natAbs) := by omega
      have habs : -(i.natAbs : Int) = i := by omega
      simp only [ofParts, hfitted, hneg, decide_true, Bool.not_true, Bool.false_eq_true, if_false,
        Bool.or_eq_true, decide_eq_true_eq, hbound, habs]
    · have habs : (i.natAbs : Int) = i := by omega
      simp only [ofParts, hfitted, hneg, decide_false, Bool.not_false, if_true, habs]
  rw [Literal.signed_eq, ← hparts]
  simpa using Number.intro _ (whole_toDigits _) .absent .absent

-- ---------------------------------------------------------------------
-- Doubles
-- ---------------------------------------------------------------------

/-- In the text stand a fraction or an exponent, and digits and a power of ten as in the decimal. -/
def Spells (t : List Char) (m : Decimal) : Prop :=
  ∃ (ds : List Char) (fraction : Option (List Char)) (exponent : Option Int),
    (fraction ≠ none ∨ exponent ≠ none) ∧
    m.coefficient = Nat.ofDigitChars 10 (ds ++ fraction.getD []) 0 ∧
    m.exponent = exponent.getD 0 - (fraction.getD []).length ∧
    ∀ negative, Number (sign negative ++ t) (ofParts negative ds fraction exponent)

theorem ofParts_real {fraction : Option (List Char)} {exponent : Option Int}
    (h : fraction ≠ none ∨ exponent ≠ none) (negative : Bool) (ds : List Char) :
    ∃ x, ofParts negative ds fraction exponent = .real x := by
  cases fraction with
  | some fs => exact ⟨_, rfl⟩
  | none =>
    cases exponent with
    | some e => exact ⟨_, rfl⟩
    | none => simp at h

theorem Spells.real {t : List Char} {m : Decimal} (h : Spells t m) (negative : Bool) :
    ∃ x, Number (sign negative ++ t) (.real x) := by
  obtain ⟨ds, fraction, exponent, hsome, -, -, hnumber⟩ := h
  obtain ⟨x, hx⟩ := ofParts_real hsome negative ds
  exact ⟨x, hx ▸ hnumber negative⟩

theorem whole_of_head {ds r : List Char} (h : Digits ds) (hr : (ds ++ r).head? ≠ some '0') :
    Whole ds where
  digits := h
  lead h0 := by
    obtain ⟨c, u, rfl, -⟩ := h.head
    exact absurd h0 hr

theorem head_plainText {d : Decimal} (h : 0 < d.point) :
    (Double.plainText d).head? = d.digits.head? := by
  obtain ⟨c, u, hd, -⟩ := (Double.digits_decimal d).head
  obtain ⟨k, hk⟩ : ∃ k, d.point.toNat = k + 1 := Nat.exists_eq_add_one.mpr (by omega)
  rw [Double.plainText, if_neg (by omega), hd, hk]
  split <;> rfl

/-- Only a number below one may have a zero in front of its point. -/
theorem whole_of_plainText {d : Decimal} {ds fs : List Char} (h : d.coefficient ≠ 0 ∨ d.point ≤ 0)
    (htext : Double.plainText d = ds ++ '.' :: fs) (hds : Digits ds) : Whole ds := by
  by_cases hpoint : d.point ≤ 0
  · obtain ⟨c, u, rfl, -⟩ := hds.head
    rw [Double.plainText, if_pos hpoint] at htext
    obtain ⟨rfl, hrest⟩ := List.cons.inj htext
    cases u with
    | nil => exact ⟨hds, fun _ => rfl⟩
    | cons b u =>
      obtain ⟨rfl, -⟩ := List.cons.inj hrest
      exact absurd (hds.2 '.' (by simp)) (by decide)
  · refine whole_of_head (r := '.' :: fs) hds ?_
    rw [← htext, head_plainText (by omega)]
    exact head_toDigits (h.resolve_right hpoint)

theorem spells_plain {d : Decimal} (h : d.coefficient ≠ 0 ∨ d.point ≤ 0) :
    ∃ m, Spells (Double.plainText d) m ∧ m.magnitude = d.magnitude ∧
      m.exponent = -max 1 (-d.exponent) := by
  obtain ⟨ds, fs, htext, hsays, hlength⟩ := Double.plainText_says d
  have hwhole := whole_of_plainText h htext hsays.whole
  refine ⟨Decimal.ofDigits ds fs, ⟨ds, some fs, none, .inl (by simp), rfl, ?_, ?_⟩,
    hsays.magnitude, ?_⟩
  · simp [Decimal.ofDigits]
  · intro negative
    rw [htext]
    simpa using Number.intro negative hwhole (.present hsays.fraction) .absent
  · rw [Decimal.ofDigits, hlength]

theorem marked_signed (i : Int) : (if 0 ≤ i then ['+'] else []) ++ Text.signed i =
    (if decide (i < 0) then '-' else '+') :: Nat.toDigits 10 i.natAbs := by
  rw [Literal.signed_eq]
  by_cases hneg : i < 0
  · have hplus : ¬ 0 ≤ i := by omega
    simp [sign, hneg, hplus]
  · have hplus : 0 ≤ i := by omega
    simp [sign, hneg, hplus]

theorem power_signed (i : Int) :
    Power ('e' :: ((if 0 ≤ i then ['+'] else []) ++ Text.signed i)) (some i) := by
  have hpower := Power.present (decide (i < 0)) (Double.digits_toDigits i.natAbs)
  rwa [Text.ofSigned_digits, ← marked_signed] at hpower

theorem spells_exponent (d : Decimal) : Spells (Double.exponentText true d) d := by
  obtain ⟨c, u, hd, hc⟩ := (Double.digits_decimal d).head
  have hu : ∀ x ∈ u, IsDigit x := fun x hx => (Double.digits_decimal d).2 x (by simp [hd, hx])
  have hwhole : Whole [c] := ⟨⟨by simp, by simpa using hc⟩, fun _ => rfl⟩
  have hpoint : d.point = u.length + 1 + d.exponent := by
    rw [Double.point_eq, hd, List.length_cons]
    rfl
  have hcoefficient := d.ofDigitChars_digits
  rw [hd] at hcoefficient
  obtain ⟨f, fs, hf, hfs, htext⟩ : ∃ f fs, Fraction f fs ∧ fs.getD [] = u ∧
      Double.exponentText true d = [c] ++ (f ++ 'e' ::
        ((if 0 ≤ d.point - 1 then ['+'] else []) ++ Text.signed (d.point - 1))) := by
    cases u with
    | nil => exact ⟨[], none, .absent, rfl, by simp [Double.exponentText, hd]⟩
    | cons b u => exact ⟨_, _, .present ⟨by simp, hu⟩, rfl, by simp [Double.exponentText, hd]⟩
  refine ⟨[c], fs, some (d.point - 1), .inr (by simp), ?_, ?_, fun negative => ?_⟩
  · rw [hfs]
    exact hcoefficient.symm
  · rw [hfs, Option.getD_some]
    omega
  · rw [htext]
    exact .intro negative hwhole hf (power_signed (d.point - 1))

theorem number_finite (negative : Bool) (rank : Fin Double.ranks) :
    number (.finite negative rank) = sign negative ++ numberStyle.magnitude rank := rfl

theorem spells_magnitude (rank : Nat) : ∃ m, Spells (numberStyle.magnitude rank) m ∧
    m.magnitude = (Double.shortest numberStyle.tie rank).magnitude ∧
    (m.exponent = (Double.shortest numberStyle.tie rank).exponent ∨
      m.exponent = -max 1 (-(Double.shortest numberStyle.tie rank).exponent)) := by
  have hplain : (Double.shortest numberStyle.tie rank).coefficient ≠ 0 ∨
      (Double.shortest numberStyle.tie rank).point ≤ 0 := by
    by_cases h : rank = 0
    · rw [h]
      exact .inr (by decide +kernel)
    · exact .inl (Double.coefficient_shortest h)
  rw [Double.Style.magnitude]
  split
  · obtain ⟨m, hm, hmagnitude, hexponent⟩ := spells_plain hplain
    exact ⟨m, hm, hmagnitude, .inr hexponent⟩
  · exact ⟨_, spells_exponent _, rfl, .inl rfl⟩

theorem exists_number (negative : Bool) (rank : Fin Double.ranks) :
    ∃ x, Number (number (.finite negative rank)) (.real x) := by
  obtain ⟨m, hm, -⟩ := spells_magnitude rank
  rw [number_finite]
  exact hm.real negative

end Json

end Dispatch
