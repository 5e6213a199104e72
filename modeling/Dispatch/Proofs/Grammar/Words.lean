import Dispatch.Text.Basic
import Dispatch.Proofs.Grammar.Items

/-!
# Words

Identifiers, constants and the names of methods. Letters and digits are those of ASCII. A word is
read to its end, so what may follow is anything but a part of a word.
-/

namespace Dispatch

def IsUpper (c : Char) : Prop := 'A' ≤ c ∧ c ≤ 'Z'

def IsDigit (c : Char) : Prop := '0' ≤ c ∧ c ≤ '9'

def IsFirst (c : Char) : Prop := IsUpper c ∨ ('a' ≤ c ∧ c ≤ 'z') ∨ c = '_'

def IsPart (c : Char) : Prop := IsFirst c ∨ IsDigit c

def IsMark (c : Char) : Prop := c = '?' ∨ c = '!' ∨ c = '='

instance (c : Char) : Decidable (IsUpper c) := inferInstanceAs (Decidable (_ ∧ _))
instance (c : Char) : Decidable (IsDigit c) := inferInstanceAs (Decidable (_ ∧ _))
instance (c : Char) : Decidable (IsFirst c) := inferInstanceAs (Decidable (_ ∨ _ ∨ _))
instance (c : Char) : Decidable (IsPart c) := inferInstanceAs (Decidable (_ ∨ _))
instance (c : Char) : Decidable (IsMark c) := inferInstanceAs (Decidable (_ ∨ _ ∨ _))

theorem IsFirst.not_digit (h : IsFirst c) : ¬ IsDigit c := by
  rintro ⟨-, hd⟩
  rcases h with ⟨hc, -⟩ | ⟨hc, -⟩ | rfl
  · exact absurd (Char.le_trans hc hd) (by decide)
  · exact absurd (Char.le_trans hc hd) (by decide)
  · exact absurd hd (by decide)

theorem IsFirst.not_space (h : IsFirst c) : ¬ IsSpace c := by
  rintro (rfl | rfl | rfl | rfl) <;> exact absurd h (by decide)

namespace Form

inductive Run (first : Char → Prop) : Form String
  | intro {c : Char} {u : List Char} : first c → (∀ d ∈ u, IsPart d) →
      Run first (c :: u) (String.ofList (c :: u))

/-- `[A-Za-z_][A-Za-z0-9_]*` -/
abbrev Word : Form String := Run IsFirst

/-- `[A-Z][A-Za-z0-9_]*` -/
abbrev Constant : Form String := Run IsUpper

inductive MethodName : Form String
  | plain : Word t name → MethodName t name
  | marked : Word t name → IsMark c → MethodName (t ++ [c]) (name.push c)

theorem run_starts (first : Char → Prop) : (Run first).Starts first := by
  rintro t x ⟨hc, -⟩
  exact ⟨_, _, rfl, hc⟩

theorem word_parts (h : Word t n) : ∀ c ∈ t, IsPart c := by
  obtain ⟨hc, hu⟩ := h
  exact List.forall_mem_cons.mpr ⟨.inl hc, hu⟩

theorem methodName_starts : MethodName.Starts IsFirst := by
  rintro t x (⟨hw⟩ | ⟨hw, -⟩)
  · exact run_starts _ _ _ hw
  · obtain ⟨c, u, rfl, hc⟩ := run_starts _ _ _ hw
    exact ⟨c, _, rfl, hc⟩

end Form

-- ---------------------------------------------------------------------
-- Reading
-- ---------------------------------------------------------------------

namespace Scan

theorem between_iff (first last c : Char) :
    (decide (first ≤ c) && decide (c ≤ last)) = true ↔ first ≤ c ∧ c ≤ last := by simp

theorem isUpper_iff {c : Char} : c.isUpper = true ↔ IsUpper c := decide_eq_true_iff

theorem isLower_iff {c : Char} : c.isLower = true ↔ 'a' ≤ c ∧ c ≤ 'z' := between_iff 'a' 'z' c

theorem isDigit_iff {c : Char} : c.isDigit = true ↔ IsDigit c := between_iff '0' '9' c

theorem isWordStart_iff {c : Char} : isWordStart c = true ↔ IsFirst c := by
  change (c.isUpper || c.isLower || decide (c = '_')) = true ↔ _
  simp only [Bool.or_eq_true, isUpper_iff, isLower_iff, decide_eq_true_iff, IsFirst, or_assoc]

theorem isWordPart_iff {c : Char} : isWordPart c = true ↔ IsPart c := by
  change (c.isUpper || c.isLower || c.isDigit || decide (c = '_')) = true ↔ _
  rw [IsPart, IsFirst, ← or_assoc, or_right_comm]
  simp only [Bool.or_eq_true, isUpper_iff, isLower_iff, isDigit_iff, decide_eq_true_iff]

theorem isMark_iff {c : Char} : isMark c = true ↔ IsMark c := by
  simp [isMark, IsMark, or_assoc]

theorem isIdentifier_iff {name : String} :
    isIdentifier name = true ↔ Form.Word name.toList name := by
  unfold isIdentifier
  split
  · rename_i c u h
    simp only [Bool.and_eq_true, List.all_eq_true, isWordStart_iff, isWordPart_iff]
    constructor
    · rintro ⟨hc, hu⟩
      have hw : Form.Word (c :: u) (String.ofList (c :: u)) := .intro hc hu
      rwa [← h, String.ofList_toList] at hw
    · rw [h]
      rintro ⟨hc, hu⟩
      exact ⟨hc, hu⟩
  · rename_i h
    rw [h]
    exact ⟨fun hf => (nomatch hf), fun hw => (nomatch hw)⟩

theorem run_of_list {first : Char → Prop} {c : Char} {u : List Char} (hc : first c)
    (hu : u.all isWordPart = true) : Form.Run first (c :: u) (String.ofList (c :: u)) :=
  .intro hc fun d hd => isWordPart_iff.mp (List.all_eq_true.mp hu d hd)

instance (name : String) : Decidable (Form.Word name.toList name) :=
  decidable_of_iff _ isIdentifier_iff

/-- The two scans of words differ in the characters that a word begins with. -/
theorem reads_run {start : Char → Bool} {first : Char → Prop} {scan : Scan String}
    (hstart : ∀ c, start c = true ↔ first c) (hnil : scan [] = none)
    (hcons : ∀ c s, scan (c :: s) =
      if start c then some (String.ofList (c :: s.takeWhile isWordPart), s.dropWhile isWordPart)
      else none) (size : Nat) :
    Reads scan size (.Run first) (¬ IsPart ·) where
  sound s x rest hs := by
    cases s with
    | nil => rw [hnil] at hs; cases hs
    | cons c s =>
      rw [hcons] at hs
      split at hs
      · rename_i hc
        cases hs
        refine ⟨c :: s.takeWhile isWordPart, by simp, .intro ((hstart c).mp hc) ?_⟩
        intro d hd
        exact isWordPart_iff.mp (of_mem_takeWhile hd)
      · cases hs
  complete t x rest ht _ hn := by
    obtain @⟨c, u, hc, hu⟩ := ht
    have hu : ∀ d ∈ u, isWordPart d = true := fun d hd => isWordPart_iff.mpr (hu d hd)
    have hn : Before (isWordPart · = false) rest := by
      refine hn.mono fun d hd => ?_
      rw [← Bool.not_eq_true, isWordPart_iff]
      exact hd
    rw [List.cons_append, hcons, if_pos ((hstart c).mpr hc), takeWhile_run hu hn,
      dropWhile_run hu hn]

theorem reads_identifier (size : Nat) : Reads identifier size .Word (¬ IsPart ·) :=
  reads_run (fun _ => isWordStart_iff) rfl identifier_cons size

theorem reads_constant (size : Nat) : Reads constant size .Constant (¬ IsPart ·) :=
  reads_run (fun _ => isUpper_iff) rfl (fun _ _ => rfl) size

theorem reads_methodName (size : Nat) :
    Reads methodName size .MethodName fun c => ¬ IsPart c ∧ ¬ IsMark c where
  sound s x rest hs := by
    rw [methodName_eq] at hs
    split at hs
    · rename_i name c r hw
      obtain ⟨t, rfl, ht⟩ := (reads_identifier size).sound s name (c :: r) hw
      split at hs <;> cases hs
      · rename_i hc
        exact ⟨t ++ [c], by simp, .marked ht (isMark_iff.mp hc)⟩
      · exact ⟨t, rfl, .plain ht⟩
    · obtain ⟨t, rfl, ht⟩ := (reads_identifier size).sound s x rest hs
      exact ⟨t, rfl, .plain ht⟩
  complete t x rest ht hl hn := by
    cases ht with
    | plain ht =>
      have hw := (reads_identifier size).complete t x rest ht hl (hn.mono fun _ h => h.1)
      cases rest with
      | nil => simp only [methodName_eq, hw]
      | cons c r =>
        have hc : ¬ isMark c = true := fun h => (before_cons.mp hn).2 (isMark_iff.mp h)
        simp only [methodName_eq, hw, if_neg hc]
    | @marked t name c ht hc =>
      have hpart : ¬ IsPart c := by
        rcases hc with rfl | rfl | rfl <;> decide
      have hw := (reads_identifier t.length).complete t name (c :: rest) ht (Nat.le_refl _)
        (before_cons.mpr hpart)
      rw [List.append_assoc, List.singleton_append]
      simp only [methodName_eq, hw, if_pos (isMark_iff.mpr hc)]

end Scan

theorem IsSpace.isBlank (h : IsSpace c) : Text.isBlank c = true := by
  rcases h with rfl | rfl | rfl | rfl <;> decide

theorem IsPart.range (h : IsPart c) : 33 ≤ c.toNat ∧ c.toNat ≤ 122 := by
  have hle : ∀ {a b : Char}, a ≤ b → a.toNat ≤ b.toNat := fun h => h
  rcases h with (⟨h, h'⟩ | ⟨h, h'⟩ | rfl) | ⟨h, h'⟩
  · exact ⟨Nat.le_trans (by decide) (hle h), Nat.le_trans (hle h') (by decide)⟩
  · exact ⟨Nat.le_trans (by decide) (hle h), Nat.le_trans (hle h') (by decide)⟩
  · decide
  · exact ⟨Nat.le_trans (by decide) (hle h), Nat.le_trans (hle h') (by decide)⟩

theorem IsPart.not_blank (h : IsPart c) : ¬ Text.isBlank c = true := by
  intro hb
  have hc := h.range
  simp [Text.isBlank, Text.blankRanges] at hb
  omega

theorem IsMark.not_blank (h : IsMark c) : ¬ Text.isBlank c = true := by
  rcases h with rfl | rfl | rfl <;> decide

theorem Space.blank (ha : Space a) : Text.blank a = true :=
  List.all_eq_true.mpr fun c hc => (ha c hc).isBlank

theorem blank_skip (s : List Char) : Text.blank (Scan.skip s) = Text.blank s := by
  obtain ⟨a, ha, he⟩ := Scan.exists_skip s
  rw [he, Text.blank_append, ha.blank, Bool.true_and, ← he]

theorem before_of_blank {p : Char → Prop} (h : Text.blank s = true)
    (hp : ∀ c, Text.isBlank c = true → p c) : Before p s :=
  fun c hc => hp c (List.all_eq_true.mp h c (List.mem_of_head? hc))

theorem before_bracketed {form : Form α} {p : Char → Prop} (ha : Space a)
    (ht : form.Bracketed '(' ')' t xs) (hp : ∀ c, IsSpace c → p c) (hopen : p '(')
    (u : List Char) : Before p (a ++ t ++ u) ∧ Before p (Scan.skip (a ++ t ++ u)) := by
  obtain ⟨c, v, rfl, rfl⟩ := Form.bracketed_starts _ _ _ _ _ ht
  have hfirst : Before (¬ IsSpace ·) ('(' :: v ++ u) := before_cons.mpr (by decide)
  rw [List.append_assoc, Scan.skip_run ha hfirst]
  exact ⟨before_append (fun c hc => hp c (ha c hc)) (before_cons.mpr hopen),
    before_cons.mpr hopen⟩

theorem before_brackets {form : Form α} {p : Char → Prop}
    (ht : (form.Bracketed '(' ')').Perhaps t o) (hu : Text.blank u = true)
    (hp : ∀ c, Text.isBlank c = true → p c) (hopen : p '(') :
    Before p (t ++ u) ∧ Before p (Scan.skip (t ++ u)) := by
  cases ht with
  | absent =>
    have hskip : Text.blank (Scan.skip u) = true := by rw [blank_skip, hu]
    exact ⟨before_of_blank hu hp, before_of_blank hskip hp⟩
  | present ha ht => exact before_bracketed ha ht (fun c hc => hp c hc.isBlank) hopen u

section
variable {form : Form α} {o : Option (List α)}

theorem before_brackets_name (ht : (form.Bracketed '(' ')').Perhaps t o)
    (hu : Text.blank u = true) : Before (fun c => ¬ IsPart c ∧ ¬ IsMark c) (t ++ u) :=
  (before_brackets ht hu (fun _ hc => ⟨fun h => h.not_blank hc, fun h => h.not_blank hc⟩)
    (by decide)).1

theorem optional_brackets {scan : Scan (List α)}
    (hr : scan.Reads size (form.Bracketed '(' ')') fun _ => True)
    (ht : (form.Bracketed '(' ')').Perhaps t o) (hl : t.length ≤ size) (hu : Text.blank u = true) :
    Scan.optional (Scan.spaced scan) (t ++ u) = (o, u) := by
  have hopen : Before (· ≠ '(') (Scan.skip u) := by
    refine before_of_blank (by rw [blank_skip, hu]) ?_
    rintro c hc rfl
    exact absurd hc (by decide)
  refine Scan.optional_complete hr (Form.bracketed_starts _ _ _) ?_ ht hl (fun _ _ => trivial) hopen
  rintro c rfl
  decide

end

end Dispatch
