import Dispatch.Proofs.Double.Plain
import Dispatch.Proofs.Grammar.Pinned

/-!
# Literals as they are shown

A literal is read back from its shown form if its symbol is a word and its float is plain. The
shown forms of other floats are pinned, too: the words for NaN and infinity are read as strings,
and an exponent or a minus in front of a word fits no form.
-/

namespace Dispatch

theorem Form.run_toList {first : Char → Prop} (h : Form.Run first t n) :
    Form.Run first n.toList n := by
  obtain ⟨hc, hu⟩ := h
  rw [String.toList_ofList]
  exact .intro hc hu

namespace Text.Quoted

theorem escaped_escape (s : List Char) : Escaped (escape s) s := by
  induction s with
  | nil => exact .nil
  | cons c s ih =>
    cases h : escapeMark c with
    | some m =>
      simp only [escape, h]
      exact .escape (unescapeMark_iff.mp (unescapeMark_of_escapeMark h)) ih
    | none =>
      simp only [escape, h]
      refine .plain ?_ ?_ ih
      · rintro rfl
        cases h
      · rintro rfl
        cases h

theorem double_encode (text : String) : Double (encode text.toList) text := by
  have h : Double (encode text.toList) (String.ofList text.toList) := .intro (escaped_escape _)
  rwa [String.ofList_toList] at h

end Text.Quoted

namespace Literal

def Regular (l : Literal) : Prop := ∀ n, l = .symbol n → Form.Word n.toList n

def Plain (l : Literal) : Prop := ∀ x, l = .float x → x.Plain

theorem number_signed (i : Int64) : Number (Text.signed i.toInt) (.integer i) := by
  rw [signed_eq]
  exact .integer (Double.digits_toDigits _) (Text.ofSigned_digits _)

theorem word_of_list {c : Char} {u : List Char} (hc : Scan.isWordStart c = true)
    (hu : u.all Scan.isWordPart = true) : Form.Word (c :: u) (String.ofList (c :: u)) :=
  Scan.run_of_list (Scan.isWordStart_iff.mp hc) hu

theorem written_inspect {l : Literal} (hl : l.Regular) (hp : l.Plain) : Written l.inspect l := by
  cases l with
  | nil => exact .constant (word_of_list rfl rfl) (by decide)
  | boolean b =>
    cases b
    · exact .constant (word_of_list rfl rfl) (by decide)
    · exact .constant (word_of_list rfl rfl) (by decide)
  | integer i => exact .number (number_signed i)
  | float x => exact .number (Double.inspect_of_plain (hp x rfl))
  | string text => exact .double (Text.Quoted.double_encode text)
  | symbol n => exact .symbol (hl n rfl)

-- ---------------------------------------------------------------------
-- Texts that are no literals
-- ---------------------------------------------------------------------

def IsNumeral (c : Char) : Prop := c = '-' ∨ c = '.' ∨ IsDigit c

instance (c : Char) : Decidable (IsNumeral c) := inferInstanceAs (Decidable (_ ∨ _ ∨ _))

theorem IsEnd.not_numeral (h : IsEnd c) : ¬ IsNumeral c := by
  rcases h with (rfl | rfl | rfl | rfl) | rfl | rfl | rfl | rfl <;> decide

theorem mem_sign (h : c ∈ sign negative) : c = '-' := by
  cases negative
  · cases h
  · simpa [sign] using h

theorem numeral_of_number (h : Number t l) : ∀ c ∈ t, IsNumeral c := by
  intro c hc
  cases h with
  | integer hds =>
    rcases List.mem_append.mp hc with hc | hc
    · exact .inl (mem_sign hc)
    · exact .inr (.inr (hds.2 c hc))
  | float hds hfs =>
    simp only [List.mem_append, List.mem_cons] at hc
    rcases hc with hc | hc | rfl | hc
    · exact .inl (mem_sign hc)
    · exact .inr (.inr (hds.2 c hc))
    · exact .inr (.inl rfl)
    · exact .inr (.inr (hfs.2 c hc))

theorem not_number_of_first (h : IsFirst c) : ¬ (c = '-' ∨ IsDigit c) := by
  rintro (rfl | hd)
  · exact absurd h (by decide)
  · exact h.not_digit hd

/-- Begins like a number and is none, up to where a literal ends. -/
structure Malformed (text : List Char) : Prop where
  starts : Begins (fun c => c = '-' ∨ IsDigit c) text
  letter : ∃ c ∈ text, ¬ IsNumeral c
  inside : ∀ c ∈ text, ¬ IsEnd c

theorem Written.number_or (h : Written t l) :
    Number t l ∨ Begins (fun c => ¬ (c = '-' ∨ IsDigit c)) t := by
  have hquote : ∀ {quote inside text}, ¬ (quote = '-' ∨ IsDigit quote) →
      Text.Quoted.Between quote inside t text → Begins (fun c => ¬ (c = '-' ∨ IsDigit c)) t := by
    intro quote inside text hq ht
    exact (Text.Quoted.between_starts quote inside).begins ht |>.mono fun c hc => hc ▸ hq
  have hword : ∀ {n}, Form.Word t n → Begins (fun c => ¬ (c = '-' ∨ IsDigit c)) t := by
    intro n ht
    exact ((Form.run_starts IsFirst).begins ht).mono fun _ => not_number_of_first
  cases h with
  | number h => exact .inl h
  | double h => exact .inr (hquote (by decide) h)
  | single h => exact .inr (hquote (by decide) h)
  | symbol h => exact .inr ⟨':', _, rfl, by decide⟩
  | constant h _ => exact .inr (hword h)
  | word h _ => exact .inr (hword h)

theorem Malformed.pins (h : Malformed text) : Form.Pins Written IsEnd text fun _ => False := by
  intro t l r s ht heq hr hs
  rcases ht.number_or with hn | hb
  · -- neither the number nor the text has an end inside
    have hnumeral := numeral_of_number hn
    have hends : ∀ {u}, Before IsEnd u → Before (fun c => ¬ ¬ IsEnd c) u :=
      fun hu => hu.mono fun _ => not_not_intro
    obtain ⟨rfl, -⟩ := run_append_inj (fun c hc he => IsEnd.not_numeral he (hnumeral c hc))
      h.inside (hends hr) (hends hs) heq
    obtain ⟨c, hc, hletter⟩ := h.letter
    exact absurd (hnumeral c hc) hletter
  · obtain ⟨c, hc, hn⟩ := h.starts.meet hb heq.symm
    exact absurd hc hn

theorem malformed_exponent {negative : Bool} {rank : Fin Double.ranks}
    (h : ¬ Double.Plain (.finite negative rank)) :
    Malformed (Double.inspect (.finite negative rank)) := by
  obtain ⟨c, u, p, htext, hc, hup⟩ := Double.exponentText_splits
    (Double.shortest Double.shown.tie rank)
  rw [Double.inspect_of_not_plain h, htext]
  refine ⟨?_, ⟨'e', by simp, by decide⟩, ?_⟩
  · cases negative
    · exact ⟨c, _, rfl, .inr hc⟩
    · exact ⟨'-', _, rfl, .inl rfl⟩
  · intro x hx
    have hx : x = 'e' ∨ IsNumeral x := by
      simp only [List.mem_append, List.mem_cons] at hx hup
      rcases hx with hx | rfl | hx | rfl | hx
      · exact .inr (.inl (mem_sign hx))
      · exact .inr (.inr (.inr hc))
      · exact .inr (hup x (.inl hx))
      · exact .inl rfl
      · exact .inr (hup x (.inr hx))
    rintro he
    rcases hx with rfl | hx
    · exact absurd he (by decide)
    · exact IsEnd.not_numeral he hx

theorem word_or_malformed {x : Double} (h : ¬ x.Plain) :
    (∃ word, Written x.inspect (.string word)) ∨ Malformed x.inspect := by
  cases x with
  | nan => exact .inl ⟨_, .word (word_of_list rfl rfl) (by simp [constants])⟩
  | infinite negative =>
    cases negative
    · exact .inl ⟨_, .word (word_of_list rfl rfl) (by simp [constants])⟩
    · exact .inr ⟨⟨'-', _, rfl, .inl rfl⟩, ⟨'i', by simp [Double.inspect], by decide⟩,
        by simp [Double.inspect, IsEnd, IsSpace]⟩
  | finite negative rank => exact .inr (malformed_exponent h)

/-- The shown form of a literal is read as one, if not as an equal one, or is malformed. -/
theorem written_or_malformed {l : Literal} (hl : l.Regular) :
    (∃ k, Written l.inspect k ∧ ((k.toValue == l.toValue) = true → l.Plain)) ∨
      Malformed l.inspect := by
  by_cases hp : l.Plain
  · exact .inl ⟨l, written_inspect hl hp, fun _ => hp⟩
  · obtain ⟨x, rfl, hx⟩ : ∃ x, l = .float x ∧ ¬ x.Plain := by simpa [Plain] using hp
    refine (word_or_malformed hx).imp_left ?_
    rintro ⟨word, hw⟩
    exact ⟨.string word, hw, fun h => by cases h⟩

theorem inspect_begins {l : Literal} (hl : l.Regular) : Begins IsLead l.inspect := by
  rcases written_or_malformed hl with ⟨k, hw, -⟩ | hm
  · exact written_starts.begins hw
  · exact hm.starts.mono fun _ hc => .inr (.inr (.inr (.inl hc)))

/-- What is read where a literal is shown equals it only if its float is plain. -/
theorem pins_inspect {l : Literal} (hl : l.Regular) :
    Form.Pins Written IsEnd l.inspect fun k => (k.toValue == l.toValue) = true → l.Plain := by
  rcases written_or_malformed hl with ⟨k, hw, hk⟩ | hm
  · have hpins := Form.pins_of_reads (fun size => ⟨scan, reads_scan size⟩) hw
    exact hpins.mono fun _ he => he ▸ hk
  · exact hm.pins.mono fun _ => False.elim

end Literal

end Dispatch
