import Dispatch.Text.Scan

/-!
# Forms and the scans that read them

A form says which texts are written for which values. It does not say how they are found: a text
of a form is the whole text, and a form of parts is the texts of its parts in a row.

`Scan.Reads` ties a scan to a form. What the scan takes is of the form; and a text of the form is
taken as a whole if what stands behind it begins with a character that may follow, whatever else
comes after. So ordered choice and optional parts, which look at a text from its front, are
compared with forms part by part.
-/

namespace Dispatch

abbrev Form (α : Type) := List Char → α → Prop

def IsSpace (c : Char) : Prop := c = ' ' ∨ c = '\t' ∨ c = '\r' ∨ c = '\n'

instance (c : Char) : Decidable (IsSpace c) := inferInstanceAs (Decidable (_ ∨ _))

def Space (s : List Char) : Prop := ∀ c ∈ s, IsSpace c

/-- The text is at its end or goes on with such a character. -/
def Before (next : Char → Prop) (s : List Char) : Prop := ∀ c ∈ s.head?, next c

namespace Form

/-- Every text of the form begins with such a character. -/
def Starts (form : Form α) (first : Char → Prop) : Prop :=
  ∀ t x, form t x → ∃ c u, t = c :: u ∧ first c

inductive Mapped (f : α → β) (form : Form α) : Form β
  | intro : form t x → Mapped f form t (f x)

inductive After (c : Char) (form : Form α) : Form α
  | intro : form t x → After c form (c :: t) x

inductive Either (first second : Form α) : Form α
  | first : first t x → Either first second t x
  | second : second t x → Either first second t x

inductive Spaced (form : Form α) : Form α
  | intro : Space a → form t x → Spaced form (a ++ t) x

inductive Padded (form : Form α) : Form α
  | intro : Space a → form t x → Space b → Padded form (a ++ (t ++ b)) x

inductive Commas (form : Form α) : Form (List α)
  | one : form t x → Commas form t [x]
  | more : form t x → Commas form u xs → Commas form (t ++ ',' :: u) (x :: xs)

inductive Bracketed (opening closing : Char) (form : Form α) : Form (List α)
  | empty : Space a → Bracketed opening closing form (opening :: (a ++ [closing])) []
  | items : Commas (Padded form) t xs → Space a →
      Bracketed opening closing form (opening :: (t ++ (a ++ [closing]))) xs

inductive Perhaps (form : Form α) : Form (Option α)
  | absent : Perhaps form [] none
  | present : Space a → form t x → Perhaps form (a ++ t) (some x)

section
variable {α β : Type} {form form' : Form α} {p q : Char → Prop}

theorem Starts.mono (hf : form.Starts p) (h : ∀ c, p c → q c) : form.Starts q := by
  intro t x ht
  obtain ⟨c, u, rfl, hc⟩ := hf t x ht
  exact ⟨c, u, rfl, h c hc⟩

theorem Starts.mapped (hf : form.Starts p) (f : α → β) : (Mapped f form).Starts p := by
  rintro t _ ⟨ht⟩
  exact hf t _ ht

theorem Starts.either (hf : form.Starts p) (hf' : form'.Starts q) :
    (Either form form').Starts fun c => p c ∨ q c := by
  rintro t x (ht | ht)
  · exact hf.mono (fun _ => .inl) t x ht
  · exact hf'.mono (fun _ => .inr) t x ht

theorem after_starts (c : Char) (form : Form α) : (After c form).Starts (· = c) := by
  rintro _ x ⟨-⟩
  exact ⟨c, _, rfl, rfl⟩

end

end Form

-- ---------------------------------------------------------------------
-- Space and what follows
-- ---------------------------------------------------------------------

@[simp] theorem before_nil {next : Char → Prop} : Before next [] := by simp [Before]

@[simp] theorem before_cons {next : Char → Prop} : Before next (c :: s) ↔ next c := by
  simp [Before]

theorem Before.mono (h : Before p s) (hpq : ∀ c, p c → q c) : Before q s :=
  fun c hc => hpq c (h c hc)

theorem before_append (ha : ∀ c ∈ a, next c) (h : Before next s) : Before next (a ++ s) := by
  cases a with
  | nil => exact h
  | cons c a => exact before_cons.mpr (ha c (by simp))

theorem space_nil : Space [] := by simp [Space]

theorem Space.append (ha : Space a) (hb : Space b) : Space (a ++ b) := by
  intro c hc
  rcases List.mem_append.mp hc with h | h
  · exact ha c h
  · exact hb c h

theorem of_mem_takeWhile {p : Char → Bool} {s : List Char} (h : c ∈ s.takeWhile p) :
    p c = true := List.all_eq_true.mp List.all_takeWhile c h

theorem before_dropWhile (p : Char → Bool) (s : List Char) :
    Before (p · = false) (s.dropWhile p) := by
  intro c hc
  have := List.head?_dropWhile_not p s
  rw [hc] at this
  simpa using this

theorem takeWhile_run {p : Char → Bool} (ht : ∀ c ∈ t, p c = true) (hr : Before (p · = false) r) :
    (t ++ r).takeWhile p = t := by
  rw [List.takeWhile_append_of_pos ht]
  cases r with
  | nil => simp
  | cons c r => simp [before_cons.mp hr]

theorem dropWhile_run {p : Char → Bool} (ht : ∀ c ∈ t, p c = true) (hr : Before (p · = false) r) :
    (t ++ r).dropWhile p = r := by
  rw [List.dropWhile_append_of_pos ht]
  cases r with
  | nil => rfl
  | cons c r => simp [before_cons.mp hr]

namespace Scan

theorem isSpace_iff {c : Char} : isSpace c = true ↔ IsSpace c := by
  simp [isSpace, IsSpace, or_assoc]

theorem isSpace_eq_false_iff {c : Char} : isSpace c = false ↔ ¬ IsSpace c := by
  rw [← isSpace_iff, Bool.not_eq_true]

theorem skip_run (ha : Space a) (h : Before (¬ IsSpace ·) s) : skip (a ++ s) = s :=
  dropWhile_run (fun c hc => isSpace_iff.mpr (ha c hc))
    (h.mono fun _ => isSpace_eq_false_iff.mpr)

theorem exists_skip (s : List Char) : ∃ a, Space a ∧ s = a ++ skip s :=
  ⟨s.takeWhile isSpace, fun _ hc => isSpace_iff.mp (of_mem_takeWhile hc),
    List.takeWhile_append_dropWhile.symm⟩

theorem after_eq_some_iff {c : Char} {s : List Char} {scan : Scan α} {result : α × List Char} :
    after c scan s = some result ↔ ∃ t, s = c :: t ∧ scan t = some result := by
  cases s with
  | nil => simp [after]
  | cons d s =>
    by_cases h : d = c <;> simp [after, h]

-- ---------------------------------------------------------------------
-- Reading
-- ---------------------------------------------------------------------

/-- The scan reads the form: it takes nothing else, and it takes each of its texts of up to `size`
characters in front of an end or a character in `next`. -/
structure Reads (scan : Scan α) (size : Nat) (form : Form α) (next : Char → Prop) : Prop where
  sound (s : List Char) (x : α) (rest : List Char) : scan s = some (x, rest) →
    ∃ t, s = t ++ rest ∧ form t x
  complete (t : List Char) (x : α) (rest : List Char) : form t x → t.length ≤ size →
    Before next rest → scan (t ++ rest) = some (x, rest)

section
variable {α β : Type} {scan first second : Scan α} {form form' : Form α}
  {next next' start start' : Char → Prop} {size size' : Nat}

theorem Reads.mono (hr : Reads scan size form next) (h : ∀ c, next' c → next c)
    (hsize : size' ≤ size) : Reads scan size' form next' where
  sound := hr.sound
  complete t x rest ht hl hn := hr.complete t x rest ht (Nat.le_trans hl hsize) (hn.mono h)

theorem Reads.congr (hr : Reads scan size form next) (h : ∀ t x, form' t x ↔ form t x) :
    Reads scan size form' next where
  sound s x rest hs := by
    obtain ⟨t, rfl, ht⟩ := hr.sound s x rest hs
    exact ⟨t, rfl, (h t x).mpr ht⟩
  complete t x rest ht hl hn := hr.complete t x rest ((h t x).mp ht) hl hn

theorem Reads.whole (hr : Reads scan size form next) (hl : s.length ≤ size) :
    scan s = some (x, []) ↔ form s x := by
  constructor
  · intro h
    obtain ⟨t, rfl, ht⟩ := hr.sound s x [] h
    rwa [List.append_nil]
  · intro h
    have := hr.complete s x [] h hl before_nil
    rwa [List.append_nil] at this

theorem Reads.declines (hr : Reads scan size form next) (hf : form.Starts start)
    (h : Before (¬ start ·) s) : scan s = none := by
  cases hs : scan s with
  | none => rfl
  | some result =>
    obtain ⟨t, rfl, ht⟩ := hr.sound s result.1 result.2 hs
    obtain ⟨c, u, rfl, hc⟩ := hf t _ ht
    exact absurd hc (before_cons.mp h)

theorem Reads.map (hr : Reads scan size form next) (f : α → β) :
    Reads (Scan.map f scan) size (.Mapped f form) next where
  sound s y rest hs := by
    simp only [Scan.map, Option.map_eq_some_iff] at hs
    obtain ⟨⟨x, r⟩, hx, he⟩ := hs
    cases he
    obtain ⟨t, rfl, ht⟩ := hr.sound s x r hx
    exact ⟨t, rfl, .intro ht⟩
  complete t y rest ht hl hn := by
    obtain ⟨ht⟩ := ht
    simp only [Scan.map, hr.complete t _ rest ht hl hn, Option.map_some]

theorem Reads.after (hr : Reads scan size form next) (c : Char) :
    Reads (Scan.after c scan) (size + 1) (.After c form) next where
  sound s x rest hs := by
    obtain ⟨s, rfl, hx⟩ := after_eq_some_iff.mp hs
    obtain ⟨t, rfl, ht⟩ := hr.sound s x rest hx
    exact ⟨c :: t, rfl, .intro ht⟩
  complete t x rest ht hl hn := by
    obtain ⟨ht⟩ := ht
    rename_i t
    exact after_eq_some_iff.mpr
      ⟨t ++ rest, rfl, hr.complete t x rest ht (Nat.le_of_succ_le_succ hl) hn⟩

theorem Reads.choice (hr : Reads first size form next) (hr' : Reads second size form' next)
    (h : ∀ t x rest, form' t x → Before next rest → first (t ++ rest) = none) :
    Reads (Scan.orElse first second) size (.Either form form') next where
  sound s x rest hs := by
    simp only [Scan.orElse] at hs
    split at hs
    · rename_i result hx
      cases hs
      obtain ⟨t, rfl, ht⟩ := hr.sound s x rest hx
      exact ⟨t, rfl, .first ht⟩
    · obtain ⟨t, rfl, ht⟩ := hr'.sound s x rest hs
      exact ⟨t, rfl, .second ht⟩
  complete t x rest ht hl hn := by
    cases ht with
    | first ht => simp only [Scan.orElse, hr.complete t x rest ht hl hn]
    | second ht => simp only [Scan.orElse, h t x rest ht hn, hr'.complete t x rest ht hl hn]

theorem Reads.orElse (hr : Reads first size form next) (hr' : Reads second size form' next)
    (hf : form.Starts start) (hf' : form'.Starts start') (h : ∀ c, start' c → ¬ start c) :
    Reads (Scan.orElse first second) size (.Either form form') next := by
  refine hr.choice hr' fun t x rest ht _ => ?_
  obtain ⟨c, u, rfl, hc⟩ := hf' t x ht
  exact hr.declines hf (before_cons.mpr (h c hc) : Before (¬ start ·) (c :: u ++ rest))

theorem Reads.spaced (hr : Reads scan size form next) (hf : form.Starts (¬ IsSpace ·)) :
    Reads (Scan.spaced scan) size (.Spaced form) next where
  sound s x rest hs := by
    obtain ⟨a, ha, he⟩ := exists_skip s
    obtain ⟨t, ht, hform⟩ := hr.sound (skip s) x rest hs
    exact ⟨a ++ t, by rw [he, ht, List.append_assoc], .intro ha hform⟩
  complete t x rest ht hl hn := by
    obtain ⟨ha, ht⟩ := ht
    rename_i a t
    obtain ⟨c, u, rfl, hc⟩ := hf t x ht
    have hstart : Before (¬ IsSpace ·) (c :: u ++ rest) := before_cons.mpr hc
    rw [List.length_append] at hl
    rw [Scan.spaced, List.append_assoc, skip_run ha hstart]
    exact hr.complete _ x rest ht (by omega) hn

theorem Reads.padded (hr : Reads scan size form next) (hf : form.Starts (¬ IsSpace ·))
    (hnext : ∀ c, IsSpace c → next c) :
    Reads (Scan.padded scan) size (.Padded form) fun c => next c ∧ ¬ IsSpace c where
  sound s x rest hs := by
    simp only [Scan.padded, Option.map_eq_some_iff] at hs
    obtain ⟨⟨x, r⟩, hx, he⟩ := hs
    cases he
    obtain ⟨a, ha, hs⟩ := exists_skip s
    obtain ⟨b, hb, hrest⟩ := exists_skip r
    obtain ⟨t, ht, hform⟩ := hr.sound (skip s) x r hx
    refine ⟨a ++ (t ++ b), ?_, .intro ha hform hb⟩
    rw [hs, ht, List.append_assoc, List.append_assoc, ← hrest]
  complete t x rest ht hl hn := by
    obtain ⟨ha, ht, hb⟩ := ht
    rename_i a t b
    obtain ⟨c, u, rfl, hc⟩ := hf t x ht
    simp only [List.length_append] at hl
    have hstart : Before (¬ IsSpace ·) (c :: u ++ (b ++ rest)) := before_cons.mpr hc
    have hbehind : Before next (b ++ rest) :=
      before_append (fun c hc => hnext c (hb c hc)) (hn.mono fun _ h => h.1)
    have hskip : skip (b ++ rest) = rest := skip_run hb (hn.mono fun _ h => h.2)
    rw [Scan.padded, List.append_assoc, List.append_assoc, skip_run ha hstart,
      hr.complete _ x (b ++ rest) ht (by omega) hbehind]
    simp only [Option.map_some, hskip]

end

end Scan

end Dispatch
