import Dispatch.Proofs.Grammar.Form

/-!
# Lists in brackets and optional parts

A list scan backs out of a comma with no item behind it, and an optional scan of a part that does
not fit. `Reads.bracketed` and `optional_complete` show that backing out loses no text of the
form: what is left then begins with a character that nothing after it can take.
-/

namespace Dispatch

theorem Form.bracketed_starts (opening closing : Char) (form : Form α) :
    (form.Bracketed opening closing).Starts (· = opening) := by
  rintro _ xs (⟨-⟩ | ⟨-, -⟩)
  · exact ⟨opening, _, rfl, rfl⟩
  · exact ⟨opening, _, rfl, rfl⟩

theorem Form.Padded.exists_inner {form : Form α} (h : form.Padded t x) : ∃ u, form u x := by
  obtain ⟨-, ht, -⟩ := h
  exact ⟨_, ht⟩

theorem Form.commas_forall {form : Form α} {p : α → Prop} (h : form.Padded.Commas t xs)
    (hp : ∀ t x, form t x → p x) : ∀ x ∈ xs, p x := by
  have hpadded {t x} (h : form.Padded t x) : p x := by
    obtain ⟨u, hu⟩ := h.exists_inner
    exact hp u x hu
  induction h with
  | one h => simpa using hpadded h
  | more h _ ih => simpa using ⟨hpadded h, ih⟩

theorem Form.bracketed_forall {form : Form α} {p : α → Prop}
    (h : form.Bracketed opening closing t xs) (hp : ∀ t x, form t x → p x) : ∀ x ∈ xs, p x := by
  cases h with
  | empty _ => simp
  | items h _ => exact commas_forall h hp

namespace Scan

variable {α : Type} {scan : Scan α} {form : Form α} {next start : Char → Prop} {size : Nat}

theorem more_of_before {rounds : Nat} (h : Before (· ≠ ',') s) :
    more scan rounds s = ([], s) := by
  cases rounds with
  | zero => rfl
  | succ n =>
    cases s with
    | nil => rfl
    | cons c s =>
      unfold more
      split
      · simp_all
      · rfl

theorem more_sound (hr : Reads scan size form next) (rounds : Nat) (s : List Char) :
    ((more scan rounds s).1 = [] ∧ (more scan rounds s).2 = s) ∨
      ∃ u, s = ',' :: (u ++ (more scan rounds s).2) ∧ form.Commas u (more scan rounds s).1 := by
  induction rounds generalizing s with
  | zero => exact .inl ⟨rfl, rfl⟩
  | succ n ih =>
    unfold more
    split
    · rename_i rounds s heq
      cases heq
      split
      · rename_i x rest hx
        obtain ⟨t, rfl, ht⟩ := hr.sound s x rest hx
        refine .inr ?_
        rcases ih rest with ⟨hxs, hs⟩ | ⟨u, hs, hu⟩
        · exact ⟨t, by simp [hs], by simpa [hxs] using .one ht⟩
        · exact ⟨t ++ ',' :: u, by rw [List.append_assoc, List.cons_append, ← hs], .more ht hu⟩
      · exact .inl ⟨rfl, rfl⟩
    · exact .inl ⟨rfl, rfl⟩

theorem items_sound (hr : Reads scan size form next) (s : List Char) :
    ((items scan s).1 = [] ∧ (items scan s).2 = s) ∨
      ∃ t, s = t ++ (items scan s).2 ∧ form.Commas t (items scan s).1 := by
  unfold items
  split
  · rename_i x rest hx
    obtain ⟨t, rfl, ht⟩ := hr.sound s x rest hx
    refine .inr ?_
    rcases more_sound hr rest.length rest with ⟨hxs, hs⟩ | ⟨u, hs, hu⟩
    · exact ⟨t, by simp [hs], by simpa [hxs] using .one ht⟩
    · exact ⟨t ++ ',' :: u, by rw [List.append_assoc, List.cons_append, ← hs], .more ht hu⟩
  · exact .inl ⟨rfl, rfl⟩

/-- Every round takes a comma, so as many rounds as there are characters are enough. -/
theorem more_complete (hr : Reads scan size form next) (hcomma : next ',')
    (hu : form.Commas u xs) (hl : u.length ≤ size) (hn : Before next rest)
    (hstop : Before (· ≠ ',') rest) (rounds : Nat) (hrounds : (u ++ rest).length < rounds) :
    more scan rounds (',' :: (u ++ rest)) = (xs, rest) := by
  induction hu generalizing rounds with
  | @one t x ht =>
    obtain ⟨n, rfl⟩ : ∃ n, rounds = n + 1 := ⟨rounds - 1, by omega⟩
    simp only [more, hr.complete t x rest ht hl hn, more_of_before hstop]
  | @more t x u xs ht hu ih =>
    obtain ⟨n, rfl⟩ : ∃ n, rounds = n + 1 := ⟨rounds - 1, by omega⟩
    simp only [List.length_append, List.length_cons] at hl hrounds
    have hx := hr.complete t x (',' :: (u ++ rest)) ht (by omega) (before_cons.mpr hcomma)
    have hxs := ih (by omega) n (by simp; omega)
    rw [List.append_assoc, List.cons_append]
    simp only [more, hx, hxs]

theorem items_complete (hr : Reads scan size form next) (hcomma : next ',')
    (ht : form.Commas t xs) (hl : t.length ≤ size) (hn : Before next rest)
    (hstop : Before (· ≠ ',') rest) : items scan (t ++ rest) = (xs, rest) := by
  cases ht with
  | @one _ x ht => simp only [items, hr.complete t x rest ht hl hn, more_of_before hstop]
  | @more t x u xs ht hu =>
    simp only [List.length_append, List.length_cons] at hl
    have hx := hr.complete t x (',' :: (u ++ rest)) ht (by omega) (before_cons.mpr hcomma)
    have hxs := more_complete hr hcomma hu (by omega) hn hstop
      (',' :: (u ++ rest)).length (by simp)
    rw [List.append_assoc, List.cons_append]
    simp only [items, hx, hxs]

-- ---------------------------------------------------------------------
-- Brackets
-- ---------------------------------------------------------------------

theorem commas_append_space (ht : form.Padded.Commas t xs) (ha : Space a) :
    form.Padded.Commas (t ++ a) xs := by
  induction ht with
  | one h =>
    obtain ⟨hb, ht, hc⟩ := h
    rw [List.append_assoc, List.append_assoc]
    exact .one (.intro hb ht (hc.append ha))
  | more h _ ih =>
    rw [List.append_assoc, List.cons_append]
    exact .more h ih

theorem padded_declines {closing : Char} (hr : Reads (padded scan) size form.Padded next)
    (hf : form.Starts fun c => ¬ IsSpace c ∧ c ≠ closing) (hc : ¬ IsSpace closing)
    (ha : Space a) (rest : List Char) : padded scan (a ++ closing :: rest) = none := by
  cases h : padded scan (a ++ closing :: rest) with
  | none => rfl
  | some result =>
    obtain ⟨t, ht, hform⟩ := hr.sound _ result.1 result.2 h
    obtain ⟨hb, hform, -⟩ := hform
    rename_i b t c
    obtain ⟨d, u, rfl, hd, hne⟩ := hf t _ hform
    have hleft : skip (a ++ closing :: rest) = closing :: rest :=
      skip_run ha (before_cons.mpr hc)
    have hright : skip (b ++ d :: (u ++ c ++ result.2)) = d :: (u ++ c ++ result.2) :=
      skip_run hb (before_cons.mpr hd)
    rw [List.append_assoc, List.cons_append, List.cons_append] at ht
    rw [ht, hright] at hleft
    exact absurd (List.cons.inj hleft).1 hne

theorem bracketed_cons (opening closing : Char) (scan : Scan α) (s : List Char) :
    bracketed opening closing scan (opening :: s) =
      after closing (fun rest => some ((items (padded scan) s).1, rest))
        (skip (items (padded scan) s).2) := by
  simp only [bracketed, after, if_pos]

theorem Reads.bracketed (opening : Char) {closing : Char}
    (hr : Reads (Scan.padded scan) size form.Padded fun c => c = ',' ∨ c = closing)
    (hf : form.Starts fun c => ¬ IsSpace c ∧ c ≠ closing) (hc : ¬ IsSpace closing)
    (hcomma : closing ≠ ',') :
    Reads (Scan.bracketed opening closing scan) (size + 1) (form.Bracketed opening closing)
      fun _ => True where
  sound s xs rest hs := by
    obtain ⟨s, rfl, -⟩ := after_eq_some_iff.mp hs
    rw [bracketed_cons, after_eq_some_iff] at hs
    obtain ⟨r, hskip, hr'⟩ := hs
    cases hr'
    obtain ⟨a, ha, he⟩ := exists_skip (items (Scan.padded scan) s).2
    rw [hskip] at he
    rcases items_sound hr s with ⟨hxs, hs⟩ | ⟨t, hs, ht⟩
    · refine ⟨opening :: (a ++ [closing]), ?_, hxs ▸ .empty ha⟩
      rw [← hs, he]
      simp
    · refine ⟨opening :: (t ++ (a ++ [closing])), ?_, .items ht ha⟩
      rw [hs, he]
      simp
  complete t xs rest ht hl _ := by
    cases ht with
    | empty ha =>
      rename_i a
      have hnone := padded_declines hr hf hc ha rest
      have hitems : items (Scan.padded scan) (a ++ closing :: rest) =
          ([], a ++ closing :: rest) := by simp only [items, hnone]
      have hskip : skip (a ++ closing :: rest) = closing :: rest :=
        skip_run ha (before_cons.mpr hc)
      rw [List.cons_append, List.append_assoc, List.singleton_append, bracketed_cons, hitems,
        hskip, after_eq_some_iff]
      exact ⟨rest, rfl, rfl⟩
    | items ht ha =>
      rename_i t a
      simp only [List.length_cons, List.length_append] at hl
      have hclosing : Before (fun c => c = ',' ∨ c = closing) (closing :: rest) :=
        before_cons.mpr (.inr rfl)
      have hitems := items_complete hr (.inl rfl) (commas_append_space ht ha)
        (by rw [List.length_append]; omega) hclosing (before_cons.mpr hcomma)
      have hskip : skip (closing :: rest) = closing :: rest :=
        skip_run space_nil (before_cons.mpr hc)
      rw [List.cons_append, List.append_assoc, List.append_assoc, List.singleton_append,
        ← List.append_assoc t, bracketed_cons, hitems, hskip, after_eq_some_iff]
      exact ⟨rest, rfl, rfl⟩

theorem optional_sound (hr : Reads scan size form next) (s : List Char) :
    ∃ t, s = t ++ (optional (spaced scan) s).2 ∧ form.Perhaps t (optional (spaced scan) s).1 := by
  unfold optional spaced
  split
  · rename_i x rest hx
    obtain ⟨a, ha, he⟩ := exists_skip s
    obtain ⟨t, ht, hform⟩ := hr.sound _ x rest hx
    exact ⟨a ++ t, by rw [he, ht, List.append_assoc], .present ha hform⟩
  · exact ⟨[], rfl, .absent⟩

theorem optional_present (hr : Reads scan size form next) (hf : form.Starts start)
    (hstart : ∀ c, start c → ¬ IsSpace c) (ha : Space a) (ht : form t x) (hl : t.length ≤ size)
    (hn : Before next rest) : optional (spaced scan) (a ++ t ++ rest) = (some x, rest) := by
  obtain ⟨c, u, rfl, hc⟩ := hf t x ht
  have hfirst : Before (¬ IsSpace ·) (c :: u ++ rest) := before_cons.mpr (hstart c hc)
  rw [List.append_assoc]
  simp only [optional, spaced, skip_run ha hfirst, hr.complete _ x rest ht hl hn]

theorem optional_complete (hr : Reads scan size form next) (hf : form.Starts start)
    (hstart : ∀ c, start c → ¬ IsSpace c) (ht : form.Perhaps t o) (hl : t.length ≤ size)
    (hn : Before next rest) (hstop : Before (¬ start ·) (skip rest)) :
    optional (spaced scan) (t ++ rest) = (o, rest) := by
  cases ht with
  | absent => simp only [List.nil_append, optional, spaced, hr.declines hf hstop]
  | present ha ht =>
    rw [List.length_append] at hl
    exact optional_present hr hf hstart ha ht (by omega) hn

end Scan

end Dispatch
