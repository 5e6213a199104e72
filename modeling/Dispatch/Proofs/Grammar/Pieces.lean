import Dispatch.Proofs.Grammar.Pinned
import Dispatch.Proofs.Grammar.Signature

/-!
# Pieces off the front of a text

A word, the name of a method or a literal is read from a piece of its own: alone it is read as in
front of other text, as long as that begins with what may stand behind a part of an expression;
and where there is none, the failure is at the front of the text, whatever was read in between. A
signature is read from every text, and from the longest piece that is of its form:
`reads_take_pieces`.
-/

namespace Dispatch

/-- Of the pieces of the form that a text begins with, none is longer. -/
structure Form.Longest (form : Form α) (s c : List Char) (x : α) : Prop where
  begins : c <+: s
  of_form : form c x
  longest (d : List Char) (y : α) : form d y → d <+: s → d.length ≤ c.length

namespace Located

def IsDivider (c : Char) : Prop := c = ',' ∨ c = ')' ∨ c = '}' ∨ IsSpace c

instance (c : Char) : Decidable (IsDivider c) := inferInstanceAs (Decidable (_ ∨ _))

theorem IsDivider.isEnd (h : IsDivider c) : Literal.IsEnd c := by
  rcases h with rfl | rfl | rfl | h
  · decide
  · decide
  · decide
  · exact .inl h

theorem IsDivider.not_mark (h : IsDivider c) : ¬ IsMark c := by
  rintro (rfl | rfl | rfl) <;> exact absurd h (by decide)

/-- Pieces of a form are read off the front of a text as if each stood alone, and where there is
none, a letter is missed at the front. -/
structure TakesPieces (read : Located α) (form : Form α) : Prop where
  alone (c : List Char) (x : α) : read c = .ok (x, []) ↔ form c x
  piece (s : List Char) (x : α) (rest : List Char) : read s = .ok (x, rest) →
    ∃ c, c ≠ [] ∧ s = c ++ rest ∧ read c = .ok (x, []) ∧
      ∀ more, Begins IsDivider more → read (c ++ more) = .ok (x, more)
  miss (s : List Char) (m : Miss) : read s = .error m → m = ⟨.letter, s⟩

theorem takesPieces_of_reads {read : Located α} {form : Form α} {first next : Char → Prop}
    (hr : ∀ size, read.toScan.Reads size form next) (hf : form.Starts first)
    (hnext : ∀ c, IsDivider c → next c)
    (hmiss : ∀ s m, read s = .error m → m = ⟨.letter, s⟩) : TakesPieces read form where
  alone c x := by rw [← toScan_eq_some_iff, (hr c.length).whole (Nat.le_refl _)]
  piece s x rest hs := by
    obtain ⟨c, hc, hform⟩ := (hr 0).sound s x rest (toScan_eq_some_iff.mpr hs)
    have hread : ∀ more, Before next more → read (c ++ more) = .ok (x, more) := fun more hm =>
      toScan_eq_some_iff.mp ((hr c.length).complete c x more hform (Nat.le_refl _) hm)
    refine ⟨c, ?_, hc, by simpa using hread [] before_nil, fun more hm => hread more ?_⟩
    · obtain ⟨d, u, rfl, -⟩ := hf c x hform
      simp
    · simpa using (hm.mono hnext).before []
  miss := hmiss

theorem map_eq_error_iff {f : α → β} {scan : Located α} :
    map f scan s = .error m ↔ scan s = .error m := by
  unfold map
  cases scan s <;> simp [Except.map]

theorem identifier_miss (h : identifier s = .error m) : m = ⟨.letter, s⟩ := by
  cases s with
  | nil => cases h; rfl
  | cons c s =>
    rw [identifier_cons] at h
    split at h <;> cases h
    rfl

theorem methodName_miss (h : methodName s = .error m) : m = ⟨.letter, s⟩ := by
  unfold methodName at h
  cases hw : identifier s with
  | ok result =>
    rw [hw] at h
    cases h
  | error miss =>
    rw [hw] at h
    cases h
    exact identifier_miss hw

/-- What the choice misses is what its last scan misses, and that is a word. -/
theorem literal_miss (h : Literal.read s = .error m) : m = ⟨.letter, s⟩ :=
  identifier_miss (map_eq_error_iff.mp (orElse_error (orElse_error (orElse_error
    (orElse_error h)))))

example : Text.Quoted.double "\"a\\q\"".toList = .error ⟨.character, "a\\q\"".toList⟩ ∧
    Literal.read "\"a\\q\"".toList = .error ⟨.letter, "\"a\\q\"".toList⟩ := ⟨rfl, rfl⟩

end Located

-- ---------------------------------------------------------------------
-- The longest piece
-- ---------------------------------------------------------------------

namespace Scan

theorem length_skip_le (h : r <:+ s) : (skip r).length ≤ (skip s).length := by
  obtain ⟨a, rfl⟩ := h
  induction a with
  | nil => exact Nat.le_refl _
  | cons c a ih =>
    cases hc : isSpace c with
    | true => simpa [skip, hc] using ih
    | false =>
      have := (List.dropWhile_suffix isSpace (l := r)).length_le
      simp [skip, hc]
      omega

theorem length_skip_append_le (ha : Space a) (s : List Char) :
    (skip (a ++ s)).length ≤ s.length := by
  have hskip : skip (a ++ s) = skip s :=
    List.dropWhile_append_of_pos fun c hc => isSpace_iff.mpr (ha c hc)
  rw [hskip]
  exact (List.dropWhile_suffix isSpace).length_le

theorem identifier_append (h : Form.Word t n) (r : List Char) :
    ∃ m, identifier (t ++ r) = some (m, r.dropWhile isWordPart) := by
  obtain @⟨c, u, hc, hu⟩ := h
  have hdrop : (u ++ r).dropWhile isWordPart = r.dropWhile isWordPart :=
    List.dropWhile_append_of_pos fun d hd => isWordPart_iff.mpr (hu d hd)
  simp [identifier_cons, isWordStart_iff.mpr hc, hdrop]

theorem optional_suffix {scan : Scan α} (hr : Reads scan size form next) (s : List Char) :
    (optional (spaced scan) s).2 <:+ s := by
  obtain ⟨t, ht, -⟩ := optional_sound hr s
  exact ⟨t, ht.symm⟩

/-- A name is taken at least as far as any name at the front. -/
theorem methodName_append (h : Form.MethodName t n) (r : List Char) :
    ∃ m rest, methodName (t ++ r) = some (m, rest) ∧ rest <:+ r := by
  cases h with
  | plain h =>
    obtain ⟨m, hm⟩ := identifier_append h r
    have hsuffix : r.dropWhile isWordPart <:+ r := List.dropWhile_suffix _
    cases hr : r.dropWhile isWordPart with
    | nil => exact ⟨m, [], by simp [methodName_eq, hm, hr], List.nil_suffix⟩
    | cons c rest =>
      rw [hr] at hm hsuffix
      cases hc : isMark c with
      | true =>
        refine ⟨m.push c, rest, ?_, (List.suffix_cons c rest).trans hsuffix⟩
        simp [methodName_eq, hm, hc]
      | false => exact ⟨m, c :: rest, by simp [methodName_eq, hm, hc], hsuffix⟩
  | @marked t n c h hc =>
    obtain ⟨m, hm⟩ := identifier_append h (c :: r)
    have hpart : isWordPart c = false := by
      rcases hc with rfl | rfl | rfl <;> decide
    refine ⟨m.push c, r, ?_, List.suffix_rfl⟩
    simp [methodName_eq, hm, hpart, isMark_iff.mpr hc]

theorem optional_methodName_append (h : Form.MethodName.Perhaps t n) (r : List Char) :
    (optional (spaced methodName) (t ++ r)).2 <:+ r := by
  cases h with
  | absent => exact optional_suffix (reads_methodName 0) r
  | present ha ht =>
    obtain ⟨m, rest, hm, hrest⟩ := methodName_append ht r
    have hfirst := ((Form.methodName_starts.begins ht).before r).mono fun _ h => h.not_space
    simpa [optional, spaced, skip_run ha hfirst, hm] using hrest

end Scan

namespace Signature

theorem length_rest_le (h : Front c sig) (hread : read (c ++ r) = .ok (sig', rest)) :
    rest.length ≤ r.length := by
  obtain @⟨s, n, t, ps, a, hname, hparams, ha⟩ := h
  rw [List.append_assoc, List.append_assoc] at hread
  cases hparams with
  | absent =>
    rw [read_eq] at hread
    cases hread
    have hname := Scan.optional_methodName_append hname (a ++ r)
    have hparams := Scan.optional_suffix (reads_params 0)
      (Scan.optional (Scan.spaced Scan.methodName) (s ++ (a ++ r))).2
    exact Nat.le_trans (Scan.length_skip_le (hparams.trans hname))
      (Scan.length_skip_append_le ha r)
  | @present b t ps hb ht =>
    -- the bracket ends the name, so that nothing longer is read as the name
    have hbehind := (before_bracketed hb ht (p := fun c => ¬ IsPart c ∧ ¬ IsMark c)
      (by rintro c (rfl | rfl | rfl | rfl) <;> decide) (by decide) (a ++ r)).1
    have hfirst := (before_bracketed hb ht (p := (¬ IsFirst ·))
      (by rintro c (rfl | rfl | rfl | rfl) <;> decide) (by decide) (a ++ r)).2
    have hn := Scan.optional_complete (Scan.reads_methodName s.length) Form.methodName_starts
      (fun _ h => h.not_space) hname (Nat.le_refl _) hbehind hfirst
    have hps := Scan.optional_present (reads_params t.length) (Form.bracketed_starts _ _ _)
      (by rintro c rfl; decide) hb ht (Nat.le_succ _)
      (fun _ _ => trivial : Before (fun _ => True) (a ++ r))
    simp only [read_eq, hn, hps] at hread
    cases hread
    exact Scan.length_skip_append_le ha r

theorem read_longest (s : List Char) : ∃ c sig rest, read s = .ok (sig, rest) ∧ s = c ++ rest ∧
    Front.Longest s c sig := by
  obtain ⟨c, sig, rest, hread, hs, hc⟩ := exists_read s
  refine ⟨c, sig, rest, hread, hs, ⟨rest, hs.symm⟩, hc, ?_⟩
  rintro d y hd ⟨r, rfl⟩
  have hle := length_rest_le hd hread
  have hlength := congrArg List.length hs
  simp only [List.length_append] at hlength
  omega

end Signature

namespace Located

/-- The words, names and literals at the front of a text are pieces of their own, and where there
is none the failure is at the front. A signature is read from every text, from the longest piece
of its form. -/
theorem reads_take_pieces :
    TakesPieces identifier Form.Word ∧ TakesPieces methodName Form.MethodName ∧
    TakesPieces Literal.read Literal.Written ∧
    ∀ s, ∃ c sig rest, Signature.read s = .ok (sig, rest) ∧ s = c ++ rest ∧
      Signature.Front.Longest s c sig := by
  refine ⟨?_, ?_, ?_, Signature.read_longest⟩
  · exact takesPieces_of_reads Scan.reads_identifier (Form.run_starts _)
      (fun _ h => h.isEnd.not_part.1) fun _ _ => identifier_miss
  · exact takesPieces_of_reads Scan.reads_methodName Form.methodName_starts
      (fun _ h => ⟨h.isEnd.not_part.1, h.not_mark⟩) fun _ _ => methodName_miss
  · exact takesPieces_of_reads Literal.reads_scan Literal.written_starts
      (fun _ h => h.isEnd) fun _ _ => literal_miss

/-- A number in front of a point, a quoted text with a bad escape, and a list that breaks off. -/
theorem read_broken_off :
    (Literal.read "12.".toList = .ok (.integer 12, ['.']) ∧
      Literal.read "12) x".toList = .ok (.integer 12, ") x".toList)) ∧
    (∃ m, Literal.read "\"a\\q\"".toList = .error m ∧ m.rest = "\"a\\q\"".toList) ∧
    Signature.read "f (a,".toList = .ok (⟨some "f", []⟩, "(a,".toList) ∧
      Signature.Front.Longest "f (a,".toList ['f', ' '] ⟨some "f", []⟩ := by
  obtain ⟨-, -, hliteral, hsignature⟩ := reads_take_pieces
  have hpoint : Literal.read "12.".toList = .ok (.integer 12, ['.']) := rfl
  have hescape : Literal.read "\"a\\q\"".toList = .error ⟨.letter, "\"a\\q\"".toList⟩ := rfl
  refine ⟨⟨hpoint, ?_⟩, ⟨_, hescape, ?_⟩, rfl, ?_⟩
  · obtain ⟨c, -, hc, -, hmore⟩ := hliteral.piece _ _ _ hpoint
    obtain rfl : ['1', '2'] = c := List.append_cancel_right hc
    exact hmore ") x".toList ⟨')', _, rfl, by decide⟩
  · rw [hliteral.miss _ _ hescape]
  · obtain ⟨c, sig, rest, hread, hc, hlongest⟩ := hsignature "f (a,".toList
    have htaken : Signature.read "f (a,".toList = .ok (⟨some "f", []⟩, "(a,".toList) := rfl
    rw [htaken] at hread
    cases hread
    obtain rfl : ['f', ' '] = c := List.append_cancel_right hc
    exact hlongest

end Located

end Dispatch
