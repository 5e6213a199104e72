import Dispatch.Call.Basic
import Dispatch.Proofs.Pairs
import Dispatch.Proofs.Grammar.Literal

/-!
# Values as they are written

Literals and hashes in braces, with hashes as keys and values to any depth. A pair with a colon is
tried before one with an arrow and begins with the same characters as a word that is a key, so the
two are told apart by what stands behind the word. `Value.reads_scan` is by induction on the depth:
what stands in braces is shorter by two characters.
-/

namespace Dispatch

namespace Form

/-- `name: value` -/
inductive Keyword (value : Form Value) : Form (String × Value)
  | intro : Word t n → value.Spaced u v → Keyword value (t ++ ':' :: u) (n, v)

/-- `key => value` -/
inductive Arrow (value : Form Value) : Form (Value × Value)
  | intro : value t k → Space a → value.Spaced u v →
      Arrow value (t ++ (a ++ '=' :: '>' :: u)) (k, v)

inductive Pair (value : Form Value) : Form (Value × Value)
  | keyword : Keyword value t (n, v) → Pair value t (.symbol n, v)
  | arrow : Arrow value t e → Pair value t e

end Form

inductive Value.Written : Form Value
  | literal : Literal.Written t l → Written t l.toValue
  | hash : (Form.Pair Written).Bracketed '{' '}' t ps → Pairs.Merged ps qs → Written t (.hash qs)

namespace Value

def IsLead (c : Char) : Prop := c = '{' ∨ Literal.IsLead c

instance (c : Char) : Decidable (IsLead c) := inferInstanceAs (Decidable (_ ∨ _))

theorem IsLead.not_space (h : IsLead c) : ¬ IsSpace c := by
  rcases h with rfl | h
  · decide
  · exact h.not_space

abbrev Choice : Form Value :=
  .Either (.Mapped collect ((Form.Pair Written).Bracketed '{' '}'))
    (.Mapped Literal.toValue Literal.Written)

theorem written_iff_choice (t : List Char) (v : Value) : Written t v ↔ Choice t v := by
  constructor
  · rintro (h | ⟨h, hm⟩)
    · exact .second (.intro h)
    · rw [← Pairs.merged_iff_collect.mp hm]
      exact .first (.intro h)
  · rintro (⟨⟨h⟩⟩ | ⟨⟨h⟩⟩)
    · exact .hash h (Pairs.merged_collect _)
    · exact .literal h

theorem written_starts : Form.Starts Written IsLead := by
  have hchoice : Form.Starts Choice IsLead :=
    .either (.mapped (Form.bracketed_starts _ _ _) _) (.mapped Literal.written_starts _)
  exact fun t v h => hchoice t v ((written_iff_choice t v).mp h)

theorem Written.word_or (h : Written t v) :
    (∃ n, Form.Word t n) ∨ ∃ c u, t = c :: u ∧ ¬ IsFirst c := by
  cases h with
  | hash h _ =>
    obtain ⟨_, u, rfl, rfl⟩ := Form.bracketed_starts _ _ _ _ _ h
    exact .inr ⟨_, u, rfl, by decide⟩
  | literal h =>
    cases h with
    | double h =>
      obtain ⟨_, u, rfl, rfl⟩ := Text.Quoted.between_starts _ _ _ _ h
      exact .inr ⟨_, u, rfl, by decide⟩
    | single h =>
      obtain ⟨_, u, rfl, rfl⟩ := Text.Quoted.between_starts _ _ _ _ h
      exact .inr ⟨_, u, rfl, by decide⟩
    | symbol h => exact .inr ⟨_, _, rfl, by decide⟩
    | number h =>
      obtain ⟨c, u, rfl, rfl | hc⟩ := Literal.number_starts _ _ h
      · exact .inr ⟨_, u, rfl, by decide⟩
      · exact .inr ⟨c, u, rfl, fun hf => hf.not_digit hc⟩
    | constant h _ => exact .inl ⟨_, h⟩
    | word h _ => exact .inl ⟨_, h⟩

/-- No keyword begins where a value stands that no colon follows. -/
theorem keyword_declines (value : Scan Value) (ht : Written t v)
    (hn : Before (fun c => ¬ IsPart c ∧ c ≠ ':') rest) :
    keywordScan value (t ++ rest) = none := by
  rcases ht.word_or with ⟨n, hw⟩ | ⟨c, u, rfl, hc⟩
  · have hid := (Scan.reads_identifier t.length).complete t n rest hw (Nat.le_refl _)
      (hn.mono fun _ h => h.1)
    have hcolon : Scan.after ':' (Scan.map (n, ·) (Scan.spaced value)) rest = none := by
      cases rest with
      | nil => rfl
      | cons c rest => rw [Scan.after, if_neg (before_cons.mp hn).2]
    simp only [keywordScan, hid, hcolon]
  · have hid : Scan.identifier (c :: u ++ rest) = none :=
      (Scan.reads_identifier 0).declines (Form.run_starts _) (before_cons.mpr hc)
    simp only [keywordScan, hid]

section
variable {value : Scan Value} {form : Form Value} {size : Nat}

theorem reads_spaced (hr : value.Reads size form Literal.IsEnd) (hf : form.Starts IsLead) :
    (Scan.spaced value).Reads size form.Spaced Literal.IsEnd :=
  hr.spaced (hf.mono fun _ h => h.not_space)

theorem reads_keyword (hr : value.Reads size form Literal.IsEnd) (hf : form.Starts IsLead) :
    (keywordScan value).Reads size (.Keyword form) Literal.IsEnd where
  sound s x rest hs := by
    unfold keywordScan at hs
    split at hs
    · rename_i n r hid
      obtain ⟨t, rfl, ht⟩ := (Scan.reads_identifier 0).sound s n r hid
      have hbehind := ((reads_spaced hr hf).map (n, ·)).after ':'
      obtain ⟨_, rfl, ⟨⟨hu⟩⟩⟩ := hbehind.sound r x rest hs
      exact ⟨_, by simp, .intro ht hu⟩
    · cases hs
  complete t x rest ht hl hn := by
    obtain @⟨t, n, u, v, ht, hu⟩ := ht
    rw [List.length_append, List.length_cons] at hl
    have hbehind := ((reads_spaced hr hf).map (n, ·)).after ':'
    have hid := (Scan.reads_identifier t.length).complete t n (':' :: (u ++ rest)) ht
      (Nat.le_refl _) (before_cons.mpr (by decide))
    have hv := hbehind.complete (':' :: u) (n, v) rest (.intro (.intro hu))
      (by rw [List.length_cons]; omega) hn
    rw [List.cons_append] at hv
    rw [List.append_assoc, List.cons_append]
    simp only [keywordScan, hid, hv]

theorem reads_arrow (hr : value.Reads size form Literal.IsEnd) (hf : form.Starts IsLead) :
    (arrowScan value).Reads size (.Arrow form) Literal.IsEnd where
  sound s x rest hs := by
    unfold arrowScan at hs
    split at hs
    · rename_i k r hk
      obtain ⟨t, rfl, ht⟩ := hr.sound s k r hk
      obtain ⟨a, ha, hr'⟩ := Scan.exists_skip r
      have hbehind := (((reads_spaced hr hf).map (k, ·)).after '>').after '='
      obtain ⟨_, hskip, ⟨⟨⟨hu⟩⟩⟩⟩ := hbehind.sound _ x rest hs
      refine ⟨_, ?_, .intro ht ha hu⟩
      rw [hr', hskip]
      simp
    · cases hs
  complete t x rest ht hl hn := by
    obtain @⟨t, k, a, u, v, ht, ha, hu⟩ := ht
    simp only [List.length_append, List.length_cons] at hl
    have hbehind := (((reads_spaced hr hf).map (k, ·)).after '>').after '='
    have hk := hr.complete t k (a ++ '=' :: '>' :: (u ++ rest)) ht (by omega)
      (before_append (fun c hc => .inl (ha c hc)) (before_cons.mpr (by simp [Literal.IsEnd])))
    have hv := hbehind.complete ('=' :: '>' :: u) (k, v) rest (.intro (.intro (.intro hu)))
      (by simp only [List.length_cons]; omega) hn
    have hskip : Scan.skip (a ++ '=' :: '>' :: (u ++ rest)) = '=' :: '>' :: (u ++ rest) :=
      Scan.skip_run ha (before_cons.mpr (by decide))
    simp only [List.cons_append] at hv
    simp only [List.append_assoc, List.cons_append, arrowScan, hk, hskip, hv]

theorem pair_iff (t : List Char) (e : Value × Value) : Form.Pair form t e ↔
    Form.Either (.Mapped (fun (n, v) => (.symbol n, v)) (.Keyword form)) (.Arrow form) t e := by
  constructor
  · rintro (h | h)
    · exact .first (.intro h)
    · exact .second h
  · rintro (⟨⟨h⟩⟩ | h)
    · exact .keyword h
    · exact .arrow h

theorem reads_pair (hr : value.Reads size Written Literal.IsEnd) :
    (pairScan value).Reads size (.Pair Written) Literal.IsEnd := by
  have hkeyword := (reads_keyword hr written_starts).map fun (n, v) => (Value.symbol n, v)
  -- a word that is a key looks like a keyword up to what stands behind it
  refine (hkeyword.choice (reads_arrow hr written_starts) fun t e rest h _ => ?_).congr pair_iff
  obtain @⟨t, k, a, u, v, ht, ha, -⟩ := h
  have hnext : Before (fun c => ¬ IsPart c ∧ c ≠ ':') (a ++ '=' :: '>' :: (u ++ rest)) :=
    before_append (fun c hc => by rcases ha c hc with rfl | rfl | rfl | rfl <;> decide)
      (before_cons.mpr (by decide))
  have hnone := keyword_declines value ht hnext
  simp only [Scan.map, List.append_assoc, List.cons_append, hnone, Option.map_none]

theorem pair_starts : (Form.Pair Written).Starts IsLead := by
  rintro t e (⟨ht, -⟩ | ⟨ht, -, -⟩)
  · obtain ⟨c, u, rfl, hc⟩ := Form.run_starts _ _ _ ht
    exact ⟨c, _, rfl, .inr (.inr (.inr (.inr (.inr hc))))⟩
  · obtain ⟨c, u, rfl, hc⟩ := written_starts _ _ ht
    exact ⟨c, _, rfl, hc⟩

/-- Items that begin as values do and that may stand in front of a comma or a bracket. -/
theorem reads_bracketed {item : Scan α} {form : Form α} (hr : item.Reads size form Literal.IsEnd)
    (hf : form.Starts IsLead) (opening : Char) {closing : Char}
    (hc : closing = ')' ∨ closing = '}') :
    (Scan.bracketed opening closing item).Reads (size + 1) (form.Bracketed opening closing)
      fun _ => True := by
  obtain ⟨hend, hspace, hcomma, hlead⟩ :
      Literal.IsEnd closing ∧ ¬ IsSpace closing ∧ closing ≠ ',' ∧ ¬ IsLead closing := by
    rcases hc with rfl | rfl <;> exact ⟨by simp [Literal.IsEnd], by decide⟩
  have hnext : ∀ c, c = ',' ∨ c = closing → Literal.IsEnd c ∧ ¬ IsSpace c := by
    rintro c (rfl | rfl)
    · exact ⟨by simp [Literal.IsEnd], by decide⟩
    · exact ⟨hend, hspace⟩
  have hpadded := (hr.padded (hf.mono fun _ h => h.not_space) fun _ h => .inl h).mono hnext
    (Nat.le_refl _)
  refine hpadded.bracketed opening (hf.mono fun c h => ⟨h.not_space, ?_⟩) hspace hcomma
  rintro rfl
  exact hlead h

theorem reads_hash (hr : value.Reads size Written Literal.IsEnd) :
    (hashScan value).Reads (size + 1) (.Mapped collect ((Form.Pair Written).Bracketed '{' '}'))
      Literal.IsEnd := by
  have hpairs := reads_bracketed (reads_pair hr) pair_starts '{' (.inr rfl)
  exact (hpairs.mono (fun _ _ => trivial) (Nat.le_refl _)).map collect

end

-- ---------------------------------------------------------------------
-- Values
-- ---------------------------------------------------------------------

theorem reads_literal (size : Nat) :
    literalScan.Reads size (.Mapped Literal.toValue Literal.Written) Literal.IsEnd :=
  (Literal.reads_scan size).map Literal.toValue

theorem reads_scan (depth : Nat) : (scan depth).Reads depth Written Literal.IsEnd := by
  induction depth with
  | zero =>
    refine ⟨fun s v rest hs => ?_, fun t v rest ht hl _ => ?_⟩
    · obtain ⟨t, rfl, ⟨ht⟩⟩ := (reads_literal 0).sound s v rest hs
      exact ⟨t, rfl, .literal ht⟩
    · obtain ⟨c, u, rfl, -⟩ := written_starts t v ht
      cases hl
  | succ depth ih =>
    -- what stands in braces is shorter than the text, so it fits in the depth below
    refine ((reads_hash ih).orElse (reads_literal _) (.mapped (Form.bracketed_starts _ _ _) _)
      (.mapped Literal.written_starts _) ?_).congr written_iff_choice
    rintro c hc rfl
    exact absurd hc (by decide)

/-- A whole text is parsed as the value that it is written as, with space around it. -/
theorem parse_value_iff (text : String) :
    (∀ v, parse text = .ok v ↔ Form.Padded Written text.toList v) ∧
    (∀ e, parse text = .error e ↔
      e = .call text ∧ ∀ v, ¬ Form.Padded Written text.toList v) := by
  have hr := (reads_scan text.toList.length).padded (written_starts.mono fun _ h => h.not_space)
    fun _ h => .inl h
  have hw : ∀ v, _ ↔ Form.Padded Written text.toList v := fun v => hr.whole (Nat.le_refl _)
  simp only [parse, ← hw]
  cases h : Scan.padded (scan text.toList.length) text.toList with
  | none => simp [eq_comm]
  | some result =>
    obtain ⟨v, rest⟩ := result
    cases rest with
    | nil => simp
    | cons c rest => simp [eq_comm]

end Value

end Dispatch
