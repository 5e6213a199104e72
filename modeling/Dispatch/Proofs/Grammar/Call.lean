import Dispatch.Call.Perform
import Dispatch.Proofs.Grammar.Value

/-!
# Calls and settings as they are written

How arguments and calls are written, and `Call.parse_call_iff`: a text is parsed as a call exactly
if it is written so. `Arguments` says what becomes of the arguments: the keywords go into one hash,
wherever they stand, and the hash comes behind the others.

The name of a setting ends at the first equals sign, whatever signs its value holds. A word in front
of it is the name as it stands: `Setting.parse_word`.
-/

namespace Dispatch

namespace Call

inductive Arg.Written : Form Arg
  | keyword : Form.Keyword Value.Written t (n, v) → Written t (.keyword n v)
  | positional : Value.Written t v → Written t (.positional v)

inductive Parted : List Arg → List Value → Pairs → Prop
  | nil : Parted [] [] []
  | positional : Parted xs vs ps → Parted (.positional v :: xs) (v :: vs) ps
  | keyword : Parted xs vs ps → Parted (.keyword n v :: xs) vs ((.symbol n, v) :: ps)

inductive Arguments : List Arg → List Value → Prop
  | plain : Parted xs vs [] → Arguments xs vs
  | keywords : Parted xs vs ps → ps ≠ [] → Pairs.Merged ps qs → Arguments xs (vs ++ [.hash qs])

inductive Written : Form Call
  | intro : Space a → Form.Constant s n → Form.MethodName t m →
      (Arg.Written.Bracketed '(' ')').Perhaps u xs → Arguments (xs.getD []) vs →
      Text.blank w = true → Written (a ++ (s ++ '.' :: (t ++ (u ++ w)))) ⟨n, m, vs⟩

theorem parted_iff : Parted xs vs ps ↔
    xs.filterMap Arg.positional? = vs ∧ xs.filterMap Arg.pair? = ps := by
  constructor
  · intro h
    induction h with
    | nil => exact ⟨rfl, rfl⟩
    | positional _ ih => simp [List.filterMap_cons, Arg.positional?, Arg.pair?, ih]
    | keyword _ ih => simp [List.filterMap_cons, Arg.positional?, Arg.pair?, ih]
  · rintro ⟨rfl, rfl⟩
    induction xs with
    | nil => exact .nil
    | cons arg xs ih =>
      cases arg with
      | positional v => exact .positional ih
      | keyword n v => exact .keyword ih

theorem arguments_iff : Arguments xs vs ↔ gather xs = vs := by
  constructor
  · rintro (h | ⟨h, hne, hm⟩)
    · obtain ⟨hv, hp⟩ := parted_iff.mp h
      simp [gather, hv, hp]
    · obtain ⟨hv, hp⟩ := parted_iff.mp h
      simp [gather, hv, hp, hne, Value.collect, Pairs.merged_iff_collect.mp hm]
  · rintro rfl
    have h : Parted xs _ _ := parted_iff.mpr ⟨rfl, rfl⟩
    by_cases hne : xs.filterMap Arg.pair? = []
    · rw [hne] at h
      simpa [gather, hne] using Arguments.plain h
    · simpa [gather, hne, Value.collect] using Arguments.keywords h hne (Pairs.merged_collect _)

theorem arg_iff (t : List Char) (arg : Arg) : Arg.Written t arg ↔
    Form.Either (.Mapped (fun (n, v) => .keyword n v) (.Keyword Value.Written))
      (.Mapped .positional Value.Written) t arg := by
  constructor
  · rintro (h | h)
    · exact .first (.intro h)
    · exact .second (.intro h)
  · rintro (⟨⟨h⟩⟩ | ⟨⟨h⟩⟩)
    · exact .keyword h
    · exact .positional h

theorem reads_arg (depth : Nat) :
    (argScan (Value.scan depth)).Reads depth Arg.Written Literal.IsEnd := by
  have hvalue := Value.reads_scan depth
  have hkeyword := (Value.reads_keyword hvalue Value.written_starts).map
    fun (n, v) => Arg.keyword n v
  refine (hkeyword.choice (hvalue.map Arg.positional) fun t _ rest h hn => ?_).congr arg_iff
  obtain ⟨h⟩ := h
  have hnext : Before (fun c => ¬ IsPart c ∧ c ≠ ':') rest := by
    refine hn.mono fun c hc => ⟨hc.not_part.1, ?_⟩
    rintro rfl
    simp [Literal.IsEnd, IsSpace] at hc
  simp only [Scan.map, Value.keyword_declines _ h hnext, Option.map_none]

theorem arg_starts : Form.Starts Arg.Written Value.IsLead := by
  rintro t arg (h | h)
  · exact Value.pair_starts t _ (.keyword h)
  · exact Value.written_starts t _ h

theorem reads_args (depth : Nat) :
    (argsScan depth).Reads (depth + 1) (Arg.Written.Bracketed '(' ')') fun _ => True :=
  Value.reads_bracketed (reads_arg depth) arg_starts '(' (.inl rfl)

-- ---------------------------------------------------------------------
-- Calls
-- ---------------------------------------------------------------------

theorem written_of_scan {depth : Nat} (h : scan depth s = some (call, rest))
    (hb : Text.blank rest = true) : Written s call := by
  unfold scan at h
  split at h
  · cases h
  · rename_i receiver r hc
    obtain ⟨⟨method, r'⟩, hm, he⟩ := Option.map_eq_some_iff.mp h
    simp only [Prod.mk.injEq] at he
    obtain ⟨rfl, rfl⟩ := he
    obtain ⟨a, ha, hs⟩ := Scan.exists_skip s
    obtain ⟨t, ht, hreceiver⟩ := (Scan.reads_constant 0).sound _ receiver r hc
    obtain ⟨_, rfl, ⟨hmethod⟩⟩ := ((Scan.reads_methodName 0).after '.').sound r method r' hm
    obtain ⟨u, hr, hargs⟩ := Scan.optional_sound (reads_args depth) r'
    have hw := Written.intro ha hreceiver hmethod hargs (arguments_iff.mpr rfl) hb
    rwa [← hr, ← List.cons_append, ← ht, ← hs] at hw

theorem scan_of_written {depth : Nat} (h : Written s call) (hd : s.length ≤ depth) :
    ∃ rest, scan depth s = some (call, rest) ∧ Text.blank rest = true := by
  obtain @⟨a, s, receiver, t, method, u, args, vs, w, ha, hreceiver, hmethod, hargs, hvs, hw⟩ := h
  refine ⟨w, ?_, hw⟩
  simp only [List.length_append, List.length_cons] at hd
  obtain ⟨c, v, hs, hc⟩ := Form.run_starts _ _ _ hreceiver
  have hfirst : Before (¬ IsSpace ·) (s ++ '.' :: (t ++ (u ++ w))) := by
    rw [hs]
    exact before_cons.mpr (IsFirst.not_space (.inl hc))
  have h₁ := (Scan.reads_constant s.length).complete s receiver ('.' :: (t ++ (u ++ w))) hreceiver
    (Nat.le_refl _) (before_cons.mpr (by decide))
  have h₂ := ((Scan.reads_methodName t.length).after '.').complete ('.' :: t) method (u ++ w)
    (.intro hmethod) (Nat.le_refl _) (before_brackets_name hargs hw)
  have h₃ := optional_brackets (reads_args depth) hargs (by omega) hw
  rw [List.cons_append] at h₂
  simp only [scan, Scan.skip_run ha hfirst, h₁, h₂, h₃, Option.map_some, arguments_iff.mp hvs]

theorem parse_of_written {text : String} (h : Written text.toList call) :
    parse text = .ok call := by
  obtain ⟨rest, hs, hb⟩ := scan_of_written h (Nat.le_refl _)
  simp only [parse, hs, if_pos hb]

theorem parse_of_not_written {text : String} (h : ∀ call, ¬ Written text.toList call) :
    parse text = .error (.call text) := by
  simp only [parse]
  split
  · rename_i call rest hs
    rw [if_neg fun hb => h call (written_of_scan hs hb)]
  · rfl

theorem parse_eq_ok_iff {text : String} : parse text = .ok call ↔ Written text.toList call := by
  constructor
  · intro h
    by_cases hw : ∃ call, Written text.toList call
    · obtain ⟨call', hw⟩ := hw
      rw [parse_of_written hw] at h
      cases h
      exact hw
    · rw [parse_of_not_written fun call h => hw ⟨call, h⟩] at h
      cases h
  · exact parse_of_written

theorem parse_eq_error_iff {text : String} : parse text = .error e ↔
    e = .call text ∧ ∀ call, ¬ Written text.toList call := by
  constructor
  · intro h
    by_cases hw : ∃ call, Written text.toList call
    · obtain ⟨call, hw⟩ := hw
      rw [parse_of_written hw] at h
      cases h
    · have hw : ∀ call, ¬ Written text.toList call := fun call h => hw ⟨call, h⟩
      rw [parse_of_not_written hw] at h
      cases h
      exact ⟨rfl, hw⟩
  · rintro ⟨rfl, hw⟩
    exact parse_of_not_written hw

theorem parse_call_iff (text : String) :
    (∀ call, parse text = .ok call ↔ Written text.toList call) ∧
    (∀ e, parse text = .error e ↔ e = .call text ∧ ∀ call, ¬ Written text.toList call) :=
  ⟨fun _ => parse_eq_ok_iff, fun _ => parse_eq_error_iff⟩

end Call

-- ---------------------------------------------------------------------
-- Settings
-- ---------------------------------------------------------------------

theorem Text.trim_of_forall {s : List Char} (h : ∀ c ∈ s, ¬ isBlank c = true) : trim s = s := by
  have hdrop (t : List Char) (ht : ∀ c ∈ t, ¬ isBlank c = true) : t.dropWhile isBlank = t := by
    cases t with
    | nil => rfl
    | cons c t => exact List.dropWhile_cons_of_neg (ht c (by simp))
  rw [trim, hdrop s h, hdrop s.reverse (by simpa using h), List.reverse_reverse]

namespace Setting

theorem split?_eq_some_iff {s n u : List Char} :
    split? s = some (n, u) ↔ s = n ++ '=' :: u ∧ '=' ∉ n := by
  induction s generalizing n with
  | nil => simp [split?]
  | cons c s ih =>
    by_cases hc : c = '='
    · cases n with
      | nil => simp [split?, hc]
      | cons d n => grind [split?]
    · cases n with
      | nil => simp [split?, hc]
      | cons d n =>
        have hrest : split? s = some (n, u) ↔ s = n ++ '=' :: u ∧ '=' ∉ n := ih
        grind [split?, Option.map_eq_some_iff]

theorem parse_of_split {text : String} {n u : List Char} (h : split? text.toList = some (n, u)) :
    parse text = ((Value.parse (String.ofList u)).map
      (Setting.mk (String.ofList (Text.trim n)))).mapError (.settingValue (String.ofList n)) := by
  simp only [parse, h]
  cases Value.parse (String.ofList u) <;> rfl

theorem exists_value {text : String} {setting : Setting} (h : parse text = .ok setting) :
    ∃ u, Value.parse u = .ok setting.value := by
  cases hs : split? text.toList with
  | none => simp [parse, hs] at h
  | some split =>
    obtain ⟨n, u⟩ := split
    rw [parse_of_split hs] at h
    cases hv : Value.parse (String.ofList u) <;> rw [hv] at h <;> cases h
    exact ⟨_, hv⟩

theorem parse_word {attr : String} (h : Form.Word attr.toList attr) (text : String) :
    parse (attr ++ "=" ++ text) =
      ((Value.parse text).map (Setting.mk attr)).mapError (.settingValue attr) := by
  have hparts := Form.word_parts h
  have hsplit : split? (attr ++ "=" ++ text).toList = some (attr.toList, text.toList) := by
    refine split?_eq_some_iff.mpr ⟨by simp, fun hmem => ?_⟩
    exact absurd (hparts '=' hmem) (by decide)
  have htrim : Text.trim attr.toList = attr.toList :=
    Text.trim_of_forall fun c hc => (hparts c hc).not_blank
  rw [parse_of_split hsplit, htrim, String.ofList_toList, String.ofList_toList]

end Setting

end Dispatch
