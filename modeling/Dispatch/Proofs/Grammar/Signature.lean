import Dispatch.Signature.Basic
import Dispatch.Proofs.Grammar.Literal

/-!
# Signatures as they are written

How parameters and signatures are written, as forms, and `Signature.parse_signature_iff`: a text is
parsed as a signature exactly if it is written so and no parameter has the name of an earlier one.
A text that is written as a signature with a repeated name is told apart from one that is not
written so.
-/

namespace Dispatch

open Located

inductive Param.Written : Form Param
  | required : Form.Word t n → Written t ⟨n, .required⟩
  | optional : Form.Word t n → Space a → Literal.Written.Spaced u d →
      Written (t ++ (a ++ '=' :: u)) ⟨n, .optional d⟩
  | keyword : Form.Word t n → Space a → Literal.Written.Perhaps u k →
      Written (t ++ (a ++ ':' :: u)) ⟨n, .keyword k⟩

/-- A name, parameters in brackets, both or neither, and blanks at the end. -/
inductive Signature.Written : Form Signature
  | intro : Form.MethodName.Perhaps s n → (Param.Written.Bracketed '(' ')').Perhaps t ps →
      Text.blank u = true → Written (s ++ (t ++ u)) ⟨n, ps.getD []⟩

/-- The same with space at the end, as it may stand in front of other text. -/
inductive Signature.Front : Form Signature
  | intro : Form.MethodName.Perhaps s n → (Param.Written.Bracketed '(' ')').Perhaps t ps →
      Space a → Front (s ++ (t ++ a)) ⟨n, ps.getD []⟩

namespace ParamKind

theorem toScan_read : read.toScan =
    Scan.orElse (Scan.map .optional (Scan.after '=' (Scan.spaced Literal.scan)))
      (Scan.orElse
        (Scan.map .keyword
          (Scan.after ':' fun s => some (Scan.optional (Scan.spaced Literal.scan) s)))
        fun s => some (.required, s)) := by
  simp [read, Literal.scan]

theorem reads_default (size : Nat) : (Scan.after '=' (Scan.spaced Literal.scan)).Reads (size + 1)
    (.After '=' Literal.Written.Spaced) Literal.IsEnd :=
  ((Literal.reads_scan size).spaced (Literal.written_starts.mono fun _ h => h.not_space)).after '='

theorem read_sound (h : read.toScan s = some (kind, rest)) :
    (kind = .required ∧ rest = s) ∨
    (∃ u d, s = '=' :: (u ++ rest) ∧ Literal.Written.Spaced u d ∧ kind = .optional d) ∨
    ∃ u k, s = ':' :: (u ++ rest) ∧ Literal.Written.Perhaps u k ∧ kind = .keyword k := by
  simp only [toScan_read, Scan.orElse, Scan.map] at h
  split at h
  · rename_i hd
    cases h
    obtain ⟨⟨d, r⟩, hafter, he⟩ := Option.map_eq_some_iff.mp hd
    cases he
    obtain ⟨_, rfl, ⟨hu⟩⟩ := (reads_default 0).sound s d r hafter
    exact .inr (.inl ⟨_, d, rfl, hu, rfl⟩)
  · split at h
    · rename_i hk
      cases h
      obtain ⟨⟨k, r⟩, hafter, he⟩ := Option.map_eq_some_iff.mp hk
      cases he
      obtain ⟨t, rfl, ht⟩ := Scan.after_eq_some_iff.mp hafter
      obtain ⟨u, hs, hu⟩ := Scan.optional_sound (Literal.reads_scan 0) t
      rw [Option.some.inj ht] at hs hu
      exact .inr (.inr ⟨u, k, congrArg (':' :: ·) hs, hu, rfl⟩)
    · cases h
      exact .inl ⟨rfl, rfl⟩

theorem read_required (h : Before (fun c => c ≠ '=' ∧ c ≠ ':') s) :
    read.toScan s = some (.required, s) := by
  have hafter (c : Char) (hc : Before (· ≠ c) s) {α : Type} (scan : Scan α) :
      Scan.after c scan s = none := by
    cases s with
    | nil => rfl
    | cons d s => rw [Scan.after, if_neg (before_cons.mp hc)]
  simp only [toScan_read, Scan.orElse, Scan.map, hafter '=' (h.mono fun _ h => h.1),
    hafter ':' (h.mono fun _ h => h.2), Option.map_none]

theorem read_optional (hu : Literal.Written.Spaced u d) (hn : Before Literal.IsEnd rest) :
    read.toScan ('=' :: (u ++ rest)) = some (.optional d, rest) := by
  have hd := (reads_default u.length).complete ('=' :: u) d rest (.intro hu) (Nat.le_refl _) hn
  rw [List.cons_append] at hd
  simp only [toScan_read, Scan.orElse, Scan.map, hd, Option.map_some]

theorem read_keyword (hu : Literal.Written.Perhaps u k) (hn : Before Literal.IsEnd rest)
    (hstop : Before (¬ Literal.IsLead ·) (Scan.skip rest)) :
    read.toScan (':' :: (u ++ rest)) = some (.keyword k, rest) := by
  have hnone : Scan.after '=' (Scan.spaced Literal.scan) (':' :: (u ++ rest)) = none := rfl
  have hk : Scan.after ':' (fun s => some (Scan.optional (Scan.spaced Literal.scan) s))
      (':' :: (u ++ rest)) = some (k, rest) := by
    rw [Scan.after, if_pos rfl, Scan.optional_complete (Literal.reads_scan u.length)
      Literal.written_starts (fun _ h => h.not_space) hu (Nat.le_refl _) hn hstop]
  simp only [toScan_read, Scan.orElse, Scan.map, hnone, hk, Option.map_none, Option.map_some]

end ParamKind

-- ---------------------------------------------------------------------
-- Parameters
-- ---------------------------------------------------------------------

namespace Param

theorem written_starts : Form.Starts Written IsFirst := by
  have hword : ∀ {t u : List Char} {n : String}, Form.Word t n →
      ∃ c v, t ++ u = c :: v ∧ IsFirst c := by
    intro t u n ht
    obtain ⟨c, v, rfl, hc⟩ := Form.run_starts _ _ _ ht
    exact ⟨c, v ++ u, rfl, hc⟩
  rintro t p (ht | ⟨ht, -, -⟩ | ⟨ht, -, -⟩)
  · exact Form.run_starts _ _ _ ht
  · exact hword ht
  · exact hword ht

theorem toScan_read (s : List Char) : read.toScan s = (Scan.identifier s).bind fun name =>
    (ParamKind.read.toScan (Scan.skip name.2)).map fun k => (⟨name.1, k.1⟩, k.2) := by
  rw [toScan, read, toOption_bind, ← Scan.identifier]
  simp only [toOption_bind, toScan_spaced, Scan.spaced, Option.map_eq_bind]
  rfl

theorem read_word (ht : Form.Word t n) (ha : Space a)
    (hn : Before (fun c => ¬ IsPart c ∧ ¬ IsSpace c) s) : read.toScan (t ++ (a ++ s)) =
      (ParamKind.read.toScan s).map fun k => (⟨n, k.1⟩, k.2) := by
  have hpart : Before (¬ IsPart ·) (a ++ s) :=
    before_append (fun c hc => by rcases ha c hc with rfl | rfl | rfl | rfl <;> decide)
      (hn.mono fun _ h => h.1)
  have hword := (Scan.reads_identifier t.length).complete t n (a ++ s) ht (Nat.le_refl _) hpart
  simp only [toScan_read, hword, Option.bind_some, Scan.skip_run ha (hn.mono fun _ h => h.2)]

theorem read_parts (h : read.toScan s = some (p, rest)) : ∃ t b u, Form.Word t p.name ∧
    Space b ∧ s = t ++ (b ++ u) ∧ ParamKind.read.toScan u = some (p.kind, rest) := by
  rw [toScan_read, Option.bind_eq_some_iff] at h
  obtain ⟨⟨n, r⟩, hword, hrest⟩ := h
  obtain ⟨⟨k, r'⟩, hk, he⟩ := Option.map_eq_some_iff.mp hrest
  cases he
  obtain ⟨t, rfl, ht⟩ := (Scan.reads_identifier 0).sound s n r hword
  obtain ⟨b, hb, hr⟩ := Scan.exists_skip r
  exact ⟨t, b, _, ht, hb, by rw [← hr], hk⟩

theorem padded_sound (h : Scan.padded read.toScan s = some (p, rest)) :
    ∃ t, s = t ++ rest ∧ Written.Padded t p := by
  obtain ⟨⟨_, r⟩, hparam, he⟩ := Option.map_eq_some_iff.mp h
  cases he
  obtain ⟨n, k⟩ := p
  obtain ⟨a, ha, hs⟩ := Scan.exists_skip s
  obtain ⟨t, b, u, hword, hb, ht, hkind⟩ := read_parts hparam
  obtain ⟨c, hc, hr⟩ := Scan.exists_skip r
  rw [hs, ht]
  rcases ParamKind.read_sound hkind with ⟨rfl, rfl⟩ | ⟨u, d, rfl, hd, rfl⟩ | ⟨u, k, rfl, hd, rfl⟩
  · refine ⟨a ++ (t ++ (b ++ c)), ?_, .intro ha (.required hword) (hb.append hc)⟩
    simp only [List.append_assoc, ← hr]
  · refine ⟨a ++ (t ++ (b ++ '=' :: u) ++ c), ?_, .intro ha (.optional hword hb hd) hc⟩
    simp only [List.append_assoc, List.cons_append, ← hr]
  · refine ⟨a ++ (t ++ (b ++ ':' :: u) ++ c), ?_, .intro ha (.keyword hword hb hd) hc⟩
    simp only [List.append_assoc, List.cons_append, ← hr]

theorem padded_complete (h : Written.Padded t p) (hn : Before (fun c => c = ',' ∨ c = ')') rest) :
    Scan.padded read.toScan (t ++ rest) = some (p, rest) := by
  obtain @⟨a, t, _, b, ha, ht, hb⟩ := h
  obtain ⟨c, v, hc, hfirst⟩ := written_starts t p ht
  have hstart : Before (¬ IsSpace ·) (t ++ (b ++ rest)) := by
    rw [hc]
    exact before_cons.mpr fun h => hfirst.not_space h
  have hspace : Before (¬ IsSpace ·) rest := hn.mono (by rintro c (rfl | rfl) <;> decide)
  have hskip : Scan.skip (b ++ rest) = rest := Scan.skip_run hb hspace
  have hend : Before Literal.IsEnd (b ++ rest) :=
    before_append (fun c hc => .inl (hb c hc)) (hn.mono fun c h => .inr (h.imp_right .inl))
  rw [Scan.padded, List.append_assoc, List.append_assoc, Scan.skip_run ha hstart]
  -- the scan of a required parameter takes the space behind it, the others leave it
  cases ht with
  | required ht =>
    have hrest : Scan.skip rest = rest := Scan.skip_run space_nil hspace
    have hkind := ParamKind.read_required (s := rest) (hn.mono (by rintro c (rfl | rfl) <;> decide))
    have hword := read_word ht hb (hn.mono (by rintro c (rfl | rfl) <;> decide))
    simp only [hword, hkind, hrest, Option.map_some]
  | @optional t n a u d ht ha hu =>
    have hkind := ParamKind.read_optional hu hend
    have hword := read_word ht ha (before_cons.mpr (by decide) :
      Before _ ('=' :: (u ++ (b ++ rest))))
    simp only [List.append_assoc, List.cons_append, hword, hkind, hskip, Option.map_some]
  | @keyword t n a u k ht ha hu =>
    have hstop : Before (¬ Literal.IsLead ·) (Scan.skip (b ++ rest)) := by
      rw [hskip]
      exact hn.mono (by rintro c (rfl | rfl) <;> decide)
    have hkind := ParamKind.read_keyword hu hend hstop
    have hword := read_word ht ha (before_cons.mpr (by decide) :
      Before _ (':' :: (u ++ (b ++ rest))))
    simp only [List.append_assoc, List.cons_append, hword, hkind, hskip, Option.map_some]

theorem reads_padded (size : Nat) :
    (Scan.padded read.toScan).Reads size Written.Padded fun c => c = ',' ∨ c = ')' where
  sound _ _ _ h := padded_sound h
  complete _ _ _ h _ hn := padded_complete h hn

end Param

-- ---------------------------------------------------------------------
-- Signatures
-- ---------------------------------------------------------------------

namespace Signature

theorem reads_params (size : Nat) : (Scan.bracketed '(' ')' Param.read.toScan).Reads (size + 1)
    (Param.Written.Bracketed '(' ')') fun _ => True :=
  (Param.reads_padded size).bracketed '('
    (Param.written_starts.mono fun c h => ⟨h.not_space, by rintro rfl; exact absurd h (by decide)⟩)
    (by decide) (by decide)

theorem Front.written (h : Front c sig) (hu : Text.blank u = true) : Written (c ++ u) sig := by
  obtain ⟨hname, hparams, ha⟩ := h
  rw [List.append_assoc, List.append_assoc]
  exact .intro hname hparams (by rw [Text.blank_append, ha.blank, hu, Bool.true_and])

theorem exists_read (s : List Char) : ∃ c sig rest, read s = .ok (sig, rest) ∧ s = c ++ rest ∧
    Front c sig := by
  obtain ⟨t, hs, ht⟩ := Scan.optional_sound (Scan.reads_methodName 0) s
  obtain ⟨u, hr, hu⟩ := Scan.optional_sound (reads_params 0)
    (Scan.optional (Scan.spaced Scan.methodName) s).2
  obtain ⟨a, ha, hrest⟩ := Scan.exists_skip (Scan.optional
    (Scan.spaced (Scan.bracketed '(' ')' Param.read.toScan))
    (Scan.optional (Scan.spaced Scan.methodName) s).2).2
  refine ⟨t ++ (u ++ a), _, _, read_eq s, ?_, .intro ht hu ha⟩
  rw [List.append_assoc, List.append_assoc, ← hrest, ← hr, ← hs]

theorem front_of_read (h : read s = .ok (sig, rest)) : ∃ c, s = c ++ rest ∧ Front c sig := by
  obtain ⟨c, sig', rest', hread, hs, hc⟩ := exists_read s
  rw [hread] at h
  cases h
  exact ⟨c, hs, hc⟩

theorem written_of_read (h : read s = .ok (sig, rest)) (hb : Text.blank rest = true) :
    Written s sig := by
  obtain ⟨c, rfl, hc⟩ := front_of_read h
  exact hc.written hb

theorem read_of_written (h : Written s sig) :
    ∃ rest, read s = .ok (sig, rest) ∧ Text.blank rest = true := by
  obtain @⟨s, n, t, ps, u, hname, hparams, hu⟩ := h
  have hfirst := (before_brackets hparams hu (fun _ hc h => IsPart.not_blank (.inl h) hc)
    (by decide) : _ ∧ Before (¬ IsFirst ·) _).2
  have hn := Scan.optional_complete (Scan.reads_methodName s.length) Form.methodName_starts
    (fun _ h => h.not_space) hname (Nat.le_refl _) (before_brackets_name hparams hu) hfirst
  have hps := optional_brackets (reads_params t.length) hparams (Nat.le_succ _) hu
  refine ⟨Scan.skip u, ?_, by rw [blank_skip, hu]⟩
  simp only [read_eq, hn, hps]

/-- Of the parameters with the name of an earlier one, the first has this name. -/
def RepeatsFirst (ps : List Param) (n : String) : Prop :=
  ∃ before p after, ps = before ++ p :: after ∧ p.name = n ∧
    n ∈ before.map Param.name ∧ (before.map Param.name).Nodup

/-- The names in `seen` count as those of earlier parameters. -/
theorem repeatedName_eq_some_iff (seen : List String) (ps : List Param) :
    repeatedName seen ps = some n ↔ ∃ before p after, ps = before ++ p :: after ∧ p.name = n ∧
      (n ∈ before.map Param.name ∨ n ∈ seen) ∧ repeatedName seen before = none := by
  induction ps generalizing seen with
  | nil => simp [repeatedName]
  | cons p ps ih =>
    -- the list in front is empty if the first name was seen, and begins with `p` if not
    by_cases hp : p.name ∈ seen
    · rw [repeatedName, if_pos hp]
      constructor
      · rintro ⟨⟩
        exact ⟨[], p, ps, rfl, rfl, .inr hp, rfl⟩
      · rintro ⟨_ | ⟨q, before⟩, r, after, he, rfl, -, hnone⟩
        · cases he
          rfl
        · cases he
          rw [repeatedName, if_pos hp] at hnone
          cases hnone
    · rw [repeatedName, if_neg hp, ih]
      constructor
      · rintro ⟨before, q, after, rfl, hq, hn, hnone⟩
        refine ⟨p :: before, q, after, rfl, hq, ?_, by rw [repeatedName, if_neg hp, hnone]⟩
        simpa [or_assoc, or_left_comm] using hn
      · rintro ⟨_ | ⟨q, before⟩, r, after, he, rfl, hn, hnone⟩
        · cases he
          exact absurd hn (by simpa using hp)
        · cases he
          rw [repeatedName, if_neg hp] at hnone
          refine ⟨before, r, after, rfl, rfl, ?_, hnone⟩
          simpa [or_assoc, or_left_comm] using hn

theorem repeatsFirst_iff : repeatedName [] ps = some n ↔ RepeatsFirst ps n := by
  simp [repeatedName_eq_some_iff, repeatedName_eq_none_iff, RepeatsFirst]

theorem parse_of_written {text : String} (h : Written text.toList sig) :
    parse text = match repeatedName [] sig.params with
      | none => .ok sig
      | some n => .error (.duplicateParam n) := by
  obtain ⟨rest, hread, hb⟩ := read_of_written h
  exact parse_of_blank hread hb

theorem parse_of_not_written {text : String} (h : ∀ sig, ¬ Written text.toList sig) :
    parse text = .error (.signature text) := by
  obtain ⟨-, sig, rest, hread, -⟩ := exists_read text.toList
  exact parse_of_not_blank hread fun hb => h sig (written_of_read hread hb)

theorem Written.unique (h : Written s sig) (h' : Written s sig') : sig' = sig := by
  obtain ⟨rest, hread, -⟩ := read_of_written h
  obtain ⟨rest', hread', -⟩ := read_of_written h'
  rw [hread] at hread'
  cases hread'
  rfl

theorem parse_eq_ok_iff {text : String} : parse text = .ok sig ↔
    Written text.toList sig ∧ (sig.params.map Param.name).Nodup := by
  constructor
  · intro h
    by_cases hw : ∃ sig, Written text.toList sig
    · obtain ⟨sig', hw⟩ := hw
      rw [parse_of_written hw] at h
      split at h
      · rename_i hr
        cases h
        exact ⟨hw, ((repeatedName_eq_none_iff _ _).mp hr).1⟩
      · cases h
    · rw [parse_of_not_written fun sig h => hw ⟨sig, h⟩] at h
      cases h
  · rintro ⟨hw, hn⟩
    rw [parse_of_written hw, (repeatedName_eq_none_iff _ _).mpr ⟨hn, by simp⟩]

theorem parse_eq_error_iff {text : String} : parse text = .error e ↔
    (∃ sig n, Written text.toList sig ∧ RepeatsFirst sig.params n ∧ e = .duplicateParam n) ∨
    (∀ sig, ¬ Written text.toList sig) ∧ e = .signature text := by
  constructor
  · intro h
    by_cases hw : ∃ sig, Written text.toList sig
    · obtain ⟨sig, hw⟩ := hw
      rw [parse_of_written hw] at h
      split at h
      · cases h
      · rename_i n hr
        cases h
        exact .inl ⟨sig, n, hw, repeatsFirst_iff.mp hr, rfl⟩
    · have hw : ∀ sig, ¬ Written text.toList sig := fun sig h => hw ⟨sig, h⟩
      rw [parse_of_not_written hw] at h
      cases h
      exact .inr ⟨hw, rfl⟩
  · rintro (⟨sig, n, hw, hn, rfl⟩ | ⟨hw, rfl⟩)
    · rw [parse_of_written hw, repeatsFirst_iff.mpr hn]
    · exact parse_of_not_written hw

/-- A text is parsed as the signature that it is written as, if the names of the parameters differ.
If they do not, the error names the first that an earlier parameter has; a text that is not written
as a signature is refused as a whole. -/
theorem parse_signature_iff (text : String) :
    (∀ sig, parse text = .ok sig ↔
      Written text.toList sig ∧ (sig.params.map Param.name).Nodup) ∧
    (∀ e, parse text = .error e ↔
      (∃ sig n, Written text.toList sig ∧ RepeatsFirst sig.params n ∧ e = .duplicateParam n) ∨
      (∀ sig, ¬ Written text.toList sig) ∧ e = .signature text) :=
  ⟨fun _ => parse_eq_ok_iff, fun _ => parse_eq_error_iff⟩

end Signature

end Dispatch
