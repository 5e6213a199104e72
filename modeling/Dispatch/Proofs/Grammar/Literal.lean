import Dispatch.Literal
import Dispatch.Proofs.Grammar.Words

/-!
# Literals

How literals are written, as forms, and `Literal.reads_scan`: the scan of literals reads them. No
two kinds of literals begin with the same character, so the order in which they are tried does not
matter. Words and numbers are read to their ends, so what stands behind them is part of the law.
-/

namespace Dispatch

namespace Text.Quoted

open Located

def escapes : List (Char × Char) := [('\\', '\\'), ('"', '"'), ('n', '\n'), ('t', '\t')]

inductive Escaped : Form (List Char)
  | nil : Escaped [] []
  | plain : c ≠ '"' → c ≠ '\\' → Escaped t s → Escaped (c :: t) (c :: s)
  | escape : (m, c) ∈ escapes → Escaped t s → Escaped ('\\' :: m :: t) (c :: s)

inductive Raw : Form (List Char)
  | intro : '\'' ∉ t → Raw t t

inductive Between (quote : Char) (inside : Form (List Char)) : Form String
  | intro : inside t s → Between quote inside (quote :: (t ++ [quote])) (String.ofList s)

abbrev Double : Form String := Between '"' Escaped

abbrev Single : Form String := Between '\'' Raw

theorem unescapeMark_iff {m c : Char} : unescapeMark m = some c ↔ (m, c) ∈ escapes := by
  unfold unescapeMark escapes
  split <;> simp_all [eq_comm]

theorem escaped_sound (h : escaped s = .ok (text, rest)) : ∃ t, s = t ++ rest ∧ Escaped t text := by
  fun_induction escaped s generalizing text with
  | case1 => cases h; exact ⟨[], rfl, .nil⟩
  | case2 => cases h; exact ⟨[], rfl, .nil⟩
  | case3 m s c hm ih =>
    obtain ⟨⟨text', r⟩, hs, he⟩ := map_eq_ok_iff.mp h
    cases he
    obtain ⟨t, rfl, ht⟩ := ih hs
    exact ⟨'\\' :: m :: t, rfl, .escape (unescapeMark_iff.mp hm) ht⟩
  | case4 => cases h
  | case5 => cases h
  | case6 c s hq hpair hlone ih =>
    have hb : c ≠ '\\' := by
      rintro rfl
      cases s with
      | nil => exact hlone rfl rfl
      | cons m s => exact hpair m s rfl rfl
    obtain ⟨⟨text', r⟩, hs, he⟩ := map_eq_ok_iff.mp h
    cases he
    obtain ⟨t, rfl, ht⟩ := ih hs
    exact ⟨c :: t, rfl, .plain hq hb ht⟩

theorem escaped_complete (h : Escaped t text) (rest : List Char) :
    escaped (t ++ '"' :: rest) = .ok (text, '"' :: rest) := by
  induction h with
  | nil => rfl
  | plain hq hb _ ih =>
    rw [List.cons_append, escaped.eq_5]
    · rw [ih]
      rfl
    all_goals simp_all
  | escape hm _ ih =>
    simp only [List.cons_append, escaped, unescapeMark_iff.mpr hm, ih]
    rfl

/-- Where an escape spoils the text, a quote at its front closes it as an empty one. -/
theorem body_sound (h : body s = .ok (text, rest)) :
    ∃ t, s = t ++ '"' :: rest ∧ Escaped t text := by
  unfold body at h
  cases he : escaped s with
  | error miss =>
    rw [optional_of_error he] at h
    obtain ⟨r, rfl, hr⟩ := after_eq_ok_iff.mp h
    cases hr
    exact ⟨[], rfl, .nil⟩
  | ok result =>
    rw [optional_of_ok he] at h
    obtain ⟨r, hrest, hr⟩ := after_eq_ok_iff.mp h
    cases hr
    obtain ⟨t, ht, hform⟩ := escaped_sound he
    exact ⟨t, by rw [ht, hrest], hform⟩

theorem body_complete (h : Escaped t text) (rest : List Char) :
    body (t ++ '"' :: rest) = .ok (text, rest) := by
  rw [body, optional_of_ok (escaped_complete h rest)]
  rfl

theorem rawBody_sound (h : rawBody s = .ok (text, rest)) :
    ∃ t, s = t ++ '\'' :: rest ∧ Raw t text := by
  obtain ⟨r, hdrop, hr⟩ := after_eq_ok_iff.mp h
  cases hr
  refine ⟨s.takeWhile (· ≠ '\''), by rw [← hdrop, List.takeWhile_append_dropWhile], .intro ?_⟩
  exact fun hmem => absurd (of_mem_takeWhile hmem) (by decide)

theorem rawBody_complete (h : Raw t text) (rest : List Char) :
    rawBody (t ++ '\'' :: rest) = .ok (text, rest) := by
  obtain ⟨h⟩ := h
  have ht : ∀ c ∈ t, decide (c ≠ '\'') = true := by
    intro c hc
    rw [decide_eq_true_eq]
    rintro rfl
    exact h hc
  have hquote : Before (fun c => decide (c ≠ '\'') = false) ('\'' :: rest) :=
    before_cons.mpr (by decide)
  rw [rawBody, takeWhile_run ht hquote, dropWhile_run ht hquote]
  exact after_eq_ok_iff.mpr ⟨rest, rfl, rfl⟩

theorem reads_between {quote : Char} {inside : Form (List Char)} {scan : Located (List Char)}
    (sound : ∀ s text rest, scan s = .ok (text, rest) →
      ∃ t, s = t ++ quote :: rest ∧ inside t text)
    (complete : ∀ t text rest, inside t text → scan (t ++ quote :: rest) = .ok (text, rest))
    (size : Nat) (next : Char → Prop) :
    (after quote (map String.ofList scan)).toScan.Reads size (Between quote inside) next where
  sound s x rest hs := by
    obtain ⟨s, rfl, hx⟩ := after_eq_ok_iff.mp (toScan_eq_some_iff.mp hs)
    obtain ⟨⟨text, r⟩, hb, he⟩ := map_eq_ok_iff.mp hx
    cases he
    obtain ⟨t, rfl, ht⟩ := sound s text rest hb
    exact ⟨quote :: (t ++ [quote]), by simp, .intro ht⟩
  complete t x rest ht _ _ := by
    obtain @⟨t, text, ht⟩ := ht
    refine toScan_eq_some_iff.mpr (after_eq_ok_iff.mpr ⟨t ++ quote :: rest, by simp, ?_⟩)
    rw [map, complete t text rest ht]
    rfl

theorem reads_double (size : Nat) (next : Char → Prop) : double.toScan.Reads size Double next :=
  reads_between (fun _ _ _ => body_sound) (fun _ _ rest h => body_complete h rest) size next

theorem reads_single (size : Nat) (next : Char → Prop) : single.toScan.Reads size Single next :=
  reads_between (fun _ _ _ => rawBody_sound) (fun _ _ rest h => rawBody_complete h rest) size next

theorem between_starts (quote : Char) (inside : Form (List Char)) :
    (Between quote inside).Starts (· = quote) := by
  rintro t x ⟨-⟩
  exact ⟨_, _, rfl, rfl⟩

end Text.Quoted

-- ---------------------------------------------------------------------
-- Numbers
-- ---------------------------------------------------------------------

open Located

namespace Literal

def Digits (s : List Char) : Prop := s ≠ [] ∧ ∀ c ∈ s, IsDigit c

def sign (negative : Bool) : List Char := if negative then ['-'] else []

theorem signed_eq (i : Int) :
    Text.signed i = sign (decide (i < 0)) ++ Nat.toDigits 10 i.natAbs := by
  simp only [Text.signed, sign, decide_eq_true_eq]
  split <;> rfl

/-- Digits with a minus or without, and with a fraction or without. An integer has 64 bits; a
float is the double nearest to what the digits say. -/
inductive Number : Form Literal
  | integer {negative : Bool} {ds : List Char} {i : Int64} : Digits ds →
      Text.ofSigned negative ds = i.toInt → Number (sign negative ++ ds) (.integer i)
  | float {negative : Bool} {ds fs : List Char} : Digits ds → Digits fs →
      Number (sign negative ++ (ds ++ '.' :: fs))
        (.float ((Decimal.ofDigits ds fs).toDouble negative))

theorem ofInt?_eq_some_iff {n : Int} {l : Literal} :
    ofInt? n = some l ↔ ∃ i : Int64, n = i.toInt ∧ l = .integer i := by
  unfold ofInt?
  constructor
  · intro h
    split at h
    · rename_i hn
      cases h
      exact ⟨_, (Int64.toInt_ofInt_of_le hn.1 (Int.lt_of_le_of_lt hn.2 (by decide))).symm, rfl⟩
    · cases h
  · rintro ⟨i, rfl, rfl⟩
    rw [if_pos ⟨Int64.minValue_le_toInt i, Int64.toInt_le i⟩, Int64.ofInt_toInt]

theorem Digits.head (h : Digits ds) : ∃ c u, ds = c :: u ∧ IsDigit c := by
  obtain ⟨hne, hd⟩ := h
  cases ds with
  | nil => exact absurd rfl hne
  | cons c u => exact ⟨c, u, rfl, hd c (by simp)⟩

theorem digits_run (h : Digits ds) (hr : Before (¬ IsDigit ·) r) :
    (ds ++ r).takeWhile Char.isDigit = ds ∧ (ds ++ r).dropWhile Char.isDigit = r := by
  have hd : ∀ c ∈ ds, c.isDigit = true := fun c hc => Scan.isDigit_iff.mpr (h.2 c hc)
  have hr : Before (Char.isDigit · = false) r := by
    refine hr.mono fun c hc => ?_
    rw [← Bool.not_eq_true, Scan.isDigit_iff]
    exact hc
  exact ⟨takeWhile_run hd hr, dropWhile_run hd hr⟩

theorem digits_sound (h : digits s = .ok (ds, r)) :
    s = ds ++ r ∧ Digits ds ∧ Before (¬ IsDigit ·) r := by
  unfold digits at h
  split at h
  · cases h
  · rename_i hne
    cases h
    refine ⟨List.takeWhile_append_dropWhile.symm, ⟨by simpa using hne, ?_⟩, ?_⟩
    · exact fun _ hc => Scan.isDigit_iff.mp (of_mem_takeWhile hc)
    · refine (before_dropWhile Char.isDigit s).mono fun c hc => ?_
      rw [← Scan.isDigit_iff, hc]
      exact Bool.false_ne_true

theorem digits_complete (hd : Digits ds) (hr : Before (¬ IsDigit ·) r) :
    digits (ds ++ r) = .ok (ds, r) := by
  obtain ⟨ht, hdrop⟩ := digits_run hd hr
  have hne : ds.isEmpty = false := by simpa using hd.1
  simp only [digits, ht, hdrop, hne]
  rfl

theorem fraction_cases (s : List Char) : fraction s = .ok (none, s) ∨
    ∃ fs rest, Digits fs ∧ s = '.' :: (fs ++ rest) ∧ fraction s = .ok (some fs, rest) := by
  cases hs : after '.' digits s with
  | error miss => exact .inl (optional_of_error hs)
  | ok result =>
    have hfraction := optional_of_ok hs
    obtain ⟨t, rfl, ht⟩ := after_eq_ok_iff.mp hs
    obtain ⟨rfl, hfs, -⟩ := digits_sound ht
    exact .inr ⟨_, _, hfs, rfl, hfraction⟩

theorem fraction_of_before (h : Before (· ≠ '.') s) : fraction s = .ok (none, s) := by
  rcases fraction_cases s with he | ⟨fs, rest, -, rfl, -⟩
  · exact he
  · exact absurd rfl (before_cons.mp h)

theorem fraction_digits (hf : Digits fs) (hr : Before (¬ IsDigit ·) r) :
    fraction ('.' :: (fs ++ r)) = .ok (some fs, r) :=
  optional_of_ok (after_eq_ok_iff.mpr ⟨_, rfl, digits_complete hf hr⟩)

theorem number_cases (s : List Char) : ∃ (negative : Bool) (t : List Char),
    s = sign negative ++ t ∧ number s = unsigned s negative t := by
  cases s with
  | nil => exact ⟨false, [], rfl, rfl⟩
  | cons c t =>
    by_cases hc : c = '-'
    · subst hc
      exact ⟨true, t, rfl, rfl⟩
    · refine ⟨false, c :: t, rfl, ?_⟩
      simp [number, optional_one_cons, hc, ok_bind]

theorem number_digits (negative : Bool) (hd : Digits ds) (hr : Before (¬ IsDigit ·) r)
    (hf : fraction r = .ok (fs, rest)) : number.toScan (sign negative ++ (ds ++ r)) =
      (ofDigits? negative ds fs).map (·, rest) := by
  have hunsigned (front : List Char) : (unsigned front negative (ds ++ r)).toOption =
      (ofDigits? negative ds fs).map (·, rest) := by
    simp only [unsigned, digits_complete hd hr, ok_bind, hf]
    cases ofDigits? negative ds fs <;> rfl
  cases negative with
  | true => exact hunsigned ('-' :: (ds ++ r))
  | false =>
    obtain ⟨c, u, rfl, hc⟩ := hd.head
    have hminus : c ≠ '-' := by
      rintro rfl
      exact absurd hc (by decide)
    simpa [toScan, number, sign, optional_one_cons, hminus, ok_bind] using hunsigned (c :: u ++ r)

theorem number_splits (h : number s = .ok result) : ∃ (negative : Bool) (ds r : List Char),
    s = sign negative ++ (ds ++ r) ∧ Digits ds ∧ Before (¬ IsDigit ·) r := by
  obtain ⟨negative, t, hs, hnumber⟩ := number_cases s
  rw [hnumber, unsigned] at h
  cases ht : digits t with
  | error miss =>
    rw [ht] at h
    cases h
  | ok split =>
    obtain ⟨rfl, hds, hr⟩ := digits_sound ht
    exact ⟨negative, _, _, hs, hds, hr⟩

theorem reads_number (size : Nat) :
    number.toScan.Reads size Number fun c => ¬ IsDigit c ∧ c ≠ '.' where
  sound s l rest hs := by
    obtain ⟨negative, ds, r, rfl, hds, hr⟩ := number_splits (toScan_eq_some_iff.mp hs)
    rcases fraction_cases r with he | ⟨fs, r', hfs, rfl, he⟩
    · rw [number_digits negative hds hr he, ofDigits?, Option.map_eq_some_iff] at hs
      obtain ⟨l', hl, he⟩ := hs
      cases he
      obtain ⟨i, hi, rfl⟩ := ofInt?_eq_some_iff.mp hl
      exact ⟨sign negative ++ ds, by rw [List.append_assoc], .integer hds hi⟩
    · rw [number_digits negative hds hr he] at hs
      cases hs
      exact ⟨sign negative ++ (ds ++ '.' :: fs), by simp, .float hds hfs⟩
  complete t l rest ht _ hn := by
    have hdigit : Before (¬ IsDigit ·) rest := hn.mono fun _ h => h.1
    cases ht with
    | @integer negative ds i hds hi =>
      have hpoint := fraction_of_before (hn.mono fun _ h => h.2 : Before (· ≠ '.') rest)
      rw [List.append_assoc, number_digits negative hds hdigit hpoint, ofDigits?,
        ofInt?_eq_some_iff.mpr ⟨i, hi, rfl⟩, Option.map_some]
    | @float negative ds fs hds hfs =>
      have hpoint : Before (¬ IsDigit ·) ('.' :: (fs ++ rest)) := before_cons.mpr (by decide)
      rw [List.append_assoc, List.append_assoc, List.cons_append,
        number_digits negative hds hpoint (fraction_digits hfs hdigit), ofDigits?, Option.map_some]

theorem number_starts : Number.Starts fun c => c = '-' ∨ IsDigit c := by
  have hsign : ∀ (negative : Bool) (ds u : List Char), Digits ds →
      ∃ c v, sign negative ++ (ds ++ u) = c :: v ∧ (c = '-' ∨ IsDigit c) := by
    intro negative ds u hds
    obtain ⟨d, v, rfl, hd⟩ := hds.head
    cases negative with
    | true => exact ⟨'-', _, rfl, .inl rfl⟩
    | false => exact ⟨d, _, rfl, .inr hd⟩
  rintro t l (⟨hds, -⟩ | ⟨hds, -⟩)
  · simpa using hsign _ _ [] hds
  · exact hsign _ _ _ hds

-- ---------------------------------------------------------------------
-- Literals
-- ---------------------------------------------------------------------

def constants : List (String × Literal) :=
  [("nil", .nil), ("true", .boolean true), ("false", .boolean false)]

inductive Written : Form Literal
  | double : Text.Quoted.Double t text → Written t (.string text)
  | single : Text.Quoted.Single t text → Written t (.string text)
  | symbol : Form.Word t n → Written (':' :: t) (.symbol n)
  | number : Number t l → Written t l
  | constant : Form.Word t word → (word, l) ∈ constants → Written t l
  | word : Form.Word t word → (∀ l, (word, l) ∉ constants) → Written t (.string word)

abbrev Unquoted : Form Literal :=
  .Either (.After ':' (.Mapped .symbol Form.Word)) (.Either Number (.Mapped ofWord Form.Word))

abbrev Choice : Form Literal :=
  .Either (.Mapped .string Text.Quoted.Double) <|
  .Either (.Mapped .string Text.Quoted.Single) Unquoted

theorem ofWord_eq_iff {word : String} {l : Literal} :
    ofWord word = l ↔ (word, l) ∈ constants ∨ (∀ k, (word, k) ∉ constants) ∧ l = .string word := by
  simp only [ofWord, constants, List.mem_cons, Prod.mk.injEq, List.not_mem_nil, or_false]
  grind

theorem written_iff_choice (t : List Char) (l : Literal) : Written t l ↔ Choice t l := by
  constructor
  · intro h
    cases h with
    | double h => exact .first (.intro h)
    | single h => exact .second (.first (.intro h))
    | symbol h => exact .second (.second (.first (.intro (.intro h))))
    | number h => exact .second (.second (.second (.first h)))
    | constant h hl =>
      rw [← ofWord_eq_iff.mpr (.inl hl)]
      exact .second (.second (.second (.second (.intro h))))
    | word h hl =>
      rw [← ofWord_eq_iff.mpr (.inr ⟨hl, rfl⟩)]
      exact .second (.second (.second (.second (.intro h))))
  · rintro (⟨⟨h⟩⟩ | ⟨⟨⟨h⟩⟩ | ⟨⟨⟨⟨h⟩⟩⟩ | ⟨h | ⟨⟨h⟩⟩⟩⟩⟩)
    · exact .double h
    · exact .single h
    · exact .symbol h
    · exact .number h
    · rename_i word
      rcases ofWord_eq_iff.mp (rfl : ofWord word = _) with hl | ⟨hl, he⟩
      · exact .constant h hl
      · rw [he]
        exact .word h hl

def IsLead (c : Char) : Prop :=
  c = '"' ∨ c = '\'' ∨ c = ':' ∨ (c = '-' ∨ IsDigit c) ∨ IsFirst c

instance (c : Char) : Decidable (IsLead c) := inferInstanceAs (Decidable (_ ∨ _))

theorem IsLead.not_space (h : IsLead c) : ¬ IsSpace c := by
  rintro (rfl | rfl | rfl | rfl) <;> exact absurd h (by decide)

def IsEnd (c : Char) : Prop := IsSpace c ∨ c = ',' ∨ c = ')' ∨ c = '}' ∨ c = '='

instance (c : Char) : Decidable (IsEnd c) := inferInstanceAs (Decidable (_ ∨ _))

theorem IsEnd.not_part (h : IsEnd c) : ¬ IsPart c ∧ c ≠ '.' := by
  rcases h with (rfl | rfl | rfl | rfl) | rfl | rfl | rfl | rfl <;> decide

theorem word_starts : Form.Starts (.Mapped ofWord Form.Word) IsFirst := (Form.run_starts _).mapped _

theorem unquoted_starts :
    Unquoted.Starts fun c => c = ':' ∨ (c = '-' ∨ IsDigit c) ∨ IsFirst c :=
  (Form.after_starts _ _).either (number_starts.either word_starts)

theorem single_starts : Form.Starts (.Mapped Literal.string Text.Quoted.Single) (· = '\'') :=
  (Text.Quoted.between_starts _ _).mapped _

theorem double_starts : Form.Starts (.Mapped Literal.string Text.Quoted.Double) (· = '"') :=
  (Text.Quoted.between_starts _ _).mapped _

theorem written_starts : Form.Starts Written IsLead := by
  have hchoice : Choice.Starts IsLead := double_starts.either (single_starts.either unquoted_starts)
  exact fun t l h => hchoice t l ((written_iff_choice t l).mp h)

theorem reads_unquoted (size : Nat) :
    (Scan.orElse (Scan.after ':' (Scan.map .symbol Scan.identifier))
      (Scan.orElse number.toScan (Scan.map ofWord Scan.identifier))).Reads size Unquoted IsEnd := by
  have hword := ((Scan.reads_identifier size).map ofWord).mono
    (fun _ (h : IsEnd _) => h.not_part.1) (Nat.le_refl _)
  have hnumber := (reads_number size).mono
    (fun _ (h : IsEnd _) => ⟨fun hd => h.not_part.1 (.inr hd), h.not_part.2⟩) (Nat.le_refl _)
  have hsymbol := (((Scan.reads_identifier size).map Literal.symbol).after ':').mono
    (fun _ (h : IsEnd _) => h.not_part.1) (Nat.le_succ _)
  refine hsymbol.orElse (hnumber.orElse hword number_starts word_starts ?_) (Form.after_starts _ _)
    (number_starts.either word_starts) ?_
  · rintro c hc (rfl | hd)
    · exact absurd hc (by decide)
    · exact hc.not_digit hd
  · rintro c hc rfl
    exact absurd hc (by decide)

theorem scan_eq : scan =
    Scan.orElse (Scan.map .string Text.Quoted.double.toScan)
      (Scan.orElse (Scan.map .string Text.Quoted.single.toScan)
        (Scan.orElse (Scan.after ':' (Scan.map .symbol Scan.identifier))
          (Scan.orElse number.toScan (Scan.map ofWord Scan.identifier)))) := by
  simp [scan, read, Scan.identifier]

theorem reads_scan (size : Nat) : scan.Reads size Written IsEnd := by
  rw [scan_eq]
  have hsingle := (Text.Quoted.reads_single size IsEnd).map Literal.string
  have hdouble := (Text.Quoted.reads_double size IsEnd).map Literal.string
  refine (hdouble.orElse (hsingle.orElse (reads_unquoted size) single_starts unquoted_starts ?_)
    double_starts (single_starts.either unquoted_starts) ?_).congr written_iff_choice
  · rintro c hc rfl
    exact absurd hc (by decide)
  · rintro c hc rfl
    exact absurd hc (by decide)

end Literal

end Dispatch
