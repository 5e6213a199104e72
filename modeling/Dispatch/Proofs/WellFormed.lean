import Dispatch.Proofs.Display.Signature
import Dispatch.Proofs.Display.Value
import Dispatch.Proofs.Grammar.Call

/-!
# Values that come out of texts

However deep it is nested, a value that was read from a text has words for symbols, numbers for
floats and distinct keys in its hashes. So its keys equal themselves and are found again
(`keysFound_of_wellFormed`). This goes for the values of settings and for the arguments of calls as
well; and of those only the last can be a hash that was gathered from keywords:
`parsed_values_are_wellFormed`.
-/

namespace Dispatch

theorem Pairs.Merged.distinct {ps qs : Pairs} (h : ps.Merged qs) : qs.Distinct := by
  rw [← merged_iff_collect.mp h]
  exact distinct_collect ps

theorem Pairs.Merged.mem_of_symbol {ps qs : Pairs} {n : String} {v : Value} (h : ps.Merged qs)
    (hmem : (.symbol n, v) ∈ qs) : (.symbol n, v) ∈ ps := by
  obtain ⟨-, k, hk, he⟩ := h.exists_of_mem hmem
  have hname : k = .symbol n := he.elim id fun he => Value.beq_symbol_iff.mp (Value.beq_symm he)
  rwa [hname] at hk

namespace Value

/-- Symbols are words, keys are distinct and floats are numbers, at any depth. -/
structure WellFormed (v : Value) : Prop extends Regular v where
  numbers : v.Numeric

/-- In the value and in every hash in it, a key equals itself and has its own value. -/
def KeysFound (v : Value) : Prop :=
  ∀ ps, Occurs (.hash ps) v → ∀ e ∈ ps, (e.1 == e.1) = true ∧ (hash ps).get? e.1 = some e.2

theorem wellFormed_literal {l : Literal} :
    WellFormed l.toValue ↔ l.Regular ∧ l ≠ .float .nan := by
  rw [← regular_literal, ← numeric_literal]
  exact ⟨fun h => ⟨h.toRegular, h.numbers⟩, fun h => ⟨h.1, h.2⟩⟩

theorem wellFormed_hash {ps : Pairs} :
    WellFormed (.hash ps) ↔ ps.Distinct ∧ ∀ e ∈ ps, e.1.WellFormed ∧ e.2.WellFormed := by
  constructor
  · rintro ⟨hregular, hnumbers⟩
    obtain ⟨hd, hparts⟩ := regular_hash.mp hregular
    refine ⟨hd, fun e he => ?_⟩
    have hn := numeric_hash.mp hnumbers e he
    exact ⟨⟨(hparts e he).1, hn.1⟩, ⟨(hparts e he).2, hn.2⟩⟩
  · rintro ⟨hd, h⟩
    refine ⟨regular_hash.mpr ⟨hd, fun e he => ?_⟩, numeric_hash.mpr fun e he => ?_⟩
    · exact ⟨(h e he).1.toRegular, (h e he).2.toRegular⟩
    · exact ⟨(h e he).1.numbers, (h e he).2.numbers⟩

theorem WellFormed.of_occurs {v w : Value} (h : v.WellFormed) (ho : Occurs w v) :
    w.WellFormed := by
  induction ho with
  | self => exact h
  | key he _ ih => exact ih ((wellFormed_hash.mp h).2 _ he).1
  | value he _ ih => exact ih ((wellFormed_hash.mp h).2 _ he).2

theorem keysFound_of_wellFormed {v : Value} (h : v.WellFormed) : v.KeysFound := by
  intro ps hps e he
  obtain ⟨hd, hparts⟩ := wellFormed_hash.mp (h.of_occurs hps)
  have hself : (e.1 == e.1) = true := beq_self_iff.mpr (hparts e he).1.numbers
  exact ⟨hself, hd.lookup_eq_some_iff.mpr ⟨e.1, he, hself⟩⟩

def PairWritten (e : Value × Value) : Prop := (∃ t, Written t e.1) ∧ ∃ t, Written t e.2

theorem pairWritten_of_pair (h : Form.Pair Written t e) : PairWritten e := by
  rcases h with ⟨hname, ⟨-, hv⟩⟩ | ⟨hk, -, ⟨-, hv⟩⟩
  · obtain ⟨hc, hu⟩ := hname
    exact ⟨⟨_, .literal (.symbol (.intro hc hu))⟩, _, hv⟩
  · exact ⟨⟨_, hk⟩, _, hv⟩

theorem pairWritten_of_merged {ps qs : Pairs} (hm : ps.Merged qs) (h : ∀ e ∈ ps, PairWritten e) :
    ∀ e ∈ qs, PairWritten e := by
  intro e he
  obtain ⟨⟨v, hv⟩, k, hk, -⟩ := hm.exists_of_mem he
  exact ⟨(h _ hv).1, (h _ hk).2⟩

theorem Written.literal_inv {l : Literal} (h : Written t l.toValue) :
    ∃ k : Literal, Literal.Written t k ∧ k.toValue = l.toValue := by
  generalize hv : l.toValue = v at h
  cases h with
  | literal hl => exact ⟨_, hl, rfl⟩
  | hash => cases l <;> cases hv

theorem Written.hash_inv {qs : Pairs} (h : Written t (.hash qs)) :
    ∃ ps, (Form.Pair Written).Bracketed '{' '}' t ps ∧ Pairs.Merged ps qs := by
  generalize hv : Value.hash qs = v at h
  cases h with
  | @literal _ l => cases l <;> cases hv
  | hash hpairs hm =>
    cases hv
    exact ⟨_, hpairs, hm⟩

/-- By induction on the value: what is left of a hash was written in its braces. -/
theorem Written.wellFormed (h : Written t v) : v.WellFormed := by
  induction v using literal_or_hash generalizing t with
  | literal l =>
    obtain ⟨k, hk, hv⟩ := h.literal_inv
    rw [← hv]
    exact wellFormed_literal.mpr ⟨hk.regular, hk.ne_nan⟩
  | hash qs ih =>
    obtain ⟨ps, hpairs, hm⟩ := h.hash_inv
    have hwritten := pairWritten_of_merged hm <|
      Form.bracketed_forall hpairs fun _ _ => pairWritten_of_pair
    refine wellFormed_hash.mpr ⟨hm.distinct, fun e he => ?_⟩
    obtain ⟨⟨_, hk⟩, _, hv⟩ := hwritten e he
    exact ⟨(ih e he).1 hk, (ih e he).2 hv⟩

theorem wellFormed_of_parse {text : String} (h : parse text = .ok v) : v.WellFormed := by
  obtain ⟨_, hv⟩ := (((parse_value_iff text).1 v).mp h).exists_inner
  exact hv.wellFormed

end Value

-- ---------------------------------------------------------------------
-- The arguments of a call
-- ---------------------------------------------------------------------

namespace Call

/-- A call as it is written, with its arguments one by one. -/
inductive Spelled (receiver method : String) (xs : List Arg) : List Char → Prop
  | intro : Space a → Form.Constant s receiver → Form.MethodName t method →
      (Arg.Written.Bracketed '(' ')').Perhaps u o → o.getD [] = xs → Text.blank w = true →
      Spelled receiver method xs (a ++ (s ++ '.' :: (t ++ (u ++ w))))

theorem written_iff_spelled : Written s call ↔
    ∃ xs, Spelled call.receiver call.method xs s ∧ Arguments xs call.args := by
  constructor
  · rintro ⟨ha, hs, ht, hu, hvs, hw⟩
    exact ⟨_, .intro ha hs ht hu rfl hw, hvs⟩
  · rintro ⟨_, ⟨ha, hs, ht, hu, rfl, hw⟩, hvs⟩
    exact .intro ha hs ht hu hvs hw

/-- Without keywords there are only the other arguments. The keywords make one more, behind them: a
hash that is not empty, and each of its pairs is a keyword. -/
structure Gathered (xs : List Arg) (args : List Value) : Prop where
  plain : (∀ n v, .keyword n v ∉ xs) → args = xs.filterMap Arg.positional?
  keywords (n : String) (v : Value) : .keyword n v ∈ xs → ∃ ps,
    args = xs.filterMap Arg.positional? ++ [.hash ps] ∧ ps ≠ [] ∧
      ∀ e ∈ ps, ∃ n, e.1 = .symbol n ∧ .keyword n e.2 ∈ xs

theorem mem_pairs {xs : List Arg} {e : Value × Value} : e ∈ xs.filterMap Arg.pair? ↔
    ∃ n, e.1 = .symbol n ∧ .keyword n e.2 ∈ xs := by
  rw [List.mem_filterMap]
  constructor
  · rintro ⟨x | ⟨n, v⟩, hx, he⟩ <;> cases he
    exact ⟨n, rfl, hx⟩
  · obtain ⟨k, v⟩ := e
    rintro ⟨n, rfl, hx⟩
    exact ⟨_, hx, rfl⟩

theorem gathered {args : List Value} (h : Arguments xs args) : Gathered xs args := by
  rcases h with h | ⟨h, hne, hm⟩ <;> obtain ⟨rfl, hpairs⟩ := parted_iff.mp h
  · refine ⟨fun _ => rfl, fun n v hx => ?_⟩
    have he : (Value.symbol n, v) ∈ xs.filterMap Arg.pair? := mem_pairs.mpr ⟨n, rfl, hx⟩
    simp [hpairs] at he
  · subst hpairs
    refine ⟨fun hnone => ?_, fun _ _ _ => ⟨_, rfl, hm.ne_nil hne, fun ⟨k, v⟩ he => ?_⟩⟩
    · obtain ⟨e, he⟩ := List.exists_mem_of_ne_nil _ hne
      obtain ⟨n, -, hx⟩ := mem_pairs.mp he
      exact absurd hx (hnone n e.2)
    · obtain ⟨⟨w, hw⟩, -⟩ := hm.exists_of_mem he
      obtain ⟨n, rfl, -⟩ : ∃ n, k = .symbol n ∧ _ := mem_pairs.mp hw
      exact mem_pairs.mp (hm.mem_of_symbol he)

section
variable {xs : List Arg} {args : List Value} {receiver method : String}

theorem Spelled.written (h : Spelled receiver method xs s) : ∀ x ∈ xs, ∃ t, Arg.Written t x := by
  obtain @⟨_, _, _, _, o, _, -, -, -, ho, rfl, -⟩ := h
  cases ho with
  | absent => simp
  | present _ ho => exact Form.bracketed_forall ho fun t _ ht => ⟨t, ht⟩

theorem pairs_written (h : ∀ x ∈ xs, ∃ t, Arg.Written t x) :
    ∀ e ∈ xs.filterMap Arg.pair?, Value.PairWritten e := by
  rintro ⟨k, v⟩ he
  obtain ⟨n, rfl, hx⟩ := mem_pairs.mp he
  obtain ⟨t, ht⟩ := h _ hx
  cases ht with
  | keyword ht => exact Value.pairWritten_of_pair (.keyword ht)

theorem positional_wellFormed (h : ∀ x ∈ xs, ∃ t, Arg.Written t x) :
    ∀ v ∈ xs.filterMap Arg.positional?, v.WellFormed := by
  intro v hv
  obtain ⟨x | ⟨n, w⟩, hx, he⟩ := List.mem_filterMap.mp hv <;> cases he
  obtain ⟨t, ht⟩ := h _ hx
  cases ht with
  | positional ht => exact ht.wellFormed

theorem args_wellFormed (ha : Arguments xs args) (h : ∀ x ∈ xs, ∃ t, Arg.Written t x) :
    ∀ v ∈ args, v.WellFormed := by
  have hpositional := positional_wellFormed h
  rcases ha with hp | ⟨hp, -, hm⟩ <;> obtain ⟨rfl, hpairs⟩ := parted_iff.mp hp
  · exact hpositional
  · subst hpairs
    have hkeywords := Value.pairWritten_of_merged hm (pairs_written h)
    refine List.forall_mem_append.mpr ⟨hpositional, List.forall_mem_singleton.mpr ?_⟩
    refine Value.wellFormed_hash.mpr ⟨hm.distinct, fun e he => ?_⟩
    obtain ⟨⟨_, hk⟩, _, hv⟩ := hkeywords e he
    exact ⟨hk.wellFormed, hv.wellFormed⟩

end

end Call

/-- Every value that is parsed from a text, as it stands, as that of a setting or as an argument of
a call, is well formed and all keys in it are found. The arguments of a call are those in its
brackets without a keyword, and one hash behind them if there are keywords. -/
theorem parsed_values_are_wellFormed (text : String) :
    (∀ v, Value.parse text = .ok v → v.WellFormed ∧ v.KeysFound) ∧
    (∀ setting, Setting.parse text = .ok setting →
      setting.value.WellFormed ∧ setting.value.KeysFound) ∧
    ∀ call, Call.parse text = .ok call → (∀ v ∈ call.args, v.WellFormed ∧ v.KeysFound) ∧
      ∃ xs, Call.Spelled call.receiver call.method xs text.toList ∧
        Call.Gathered xs call.args := by
  have hboth {v : Value} (h : v.WellFormed) : v.WellFormed ∧ v.KeysFound :=
    ⟨h, Value.keysFound_of_wellFormed h⟩
  refine ⟨fun v hv => hboth (Value.wellFormed_of_parse hv), fun setting hs => ?_, fun call hc => ?_⟩
  · obtain ⟨u, hu⟩ := Setting.exists_value hs
    exact hboth (Value.wellFormed_of_parse hu)
  · obtain ⟨xs, hxs, hargs⟩ := Call.written_iff_spelled.mp (Call.parse_eq_ok_iff.mp hc)
    refine ⟨fun v hv => hboth ?_, xs, hxs, Call.gathered hargs⟩
    exact Call.args_wellFormed hargs hxs.written v hv

/-- A hash alone, in a setting, and in a call behind itself under a keyword. -/
theorem nested_hash_wellFormed :
    let v : Value := .hash [(.symbol "a", .hash [])]
    let call : Call := ⟨"F", "f", [v, .hash [(.symbol "b", v)]]⟩
    let value := "\x7ba: \x7b\x7d\x7d"
    let text := "F.f(b: \x7ba: \x7b\x7d\x7d, \x7ba: \x7b\x7d\x7d)"
    (Value.parse value = .ok v ∧ v.WellFormed ∧ v.KeysFound) ∧
    (Setting.parse ("x" ++ "=" ++ value) = .ok ⟨"x", v⟩ ∧ v.WellFormed ∧ v.KeysFound) ∧
    Call.parse text = .ok call ∧ (∀ w ∈ call.args, w.WellFormed ∧ w.KeysFound) ∧
      ∃ xs, Call.Spelled "F" "f" xs text.toList ∧ Call.Gathered xs call.args := by
  intro v call value text
  have hspace : Space [' '] := by simp [Space, IsSpace]
  have hword {c : Char} (h : IsFirst c) : Form.Word [c] (String.ofList [c]) := .intro h (by simp)
  have hsingle (e : Value × Value) : Pairs.Merged [e] [e] :=
    Value.merged_self (List.pairwise_singleton _ _)
  have hempty : Value.Written ['{', '}'] (.hash []) := .hash (.empty space_nil) .nil
  have hinner := Form.Keyword.intro (hword (c := 'a') (by decide)) (.intro hspace hempty)
  have hv : Value.Written _ v :=
    .hash (.items (.one (.intro space_nil (.keyword hinner) space_nil)) space_nil) (hsingle _)
  have hkeyword := Form.Keyword.intro (hword (c := 'b') (by decide)) (.intro hspace hv)
  have hvalue : Value.parse value = .ok v := by
    rw [(Value.parse_value_iff value).1]
    simpa [value] using Form.padded_of_space space_nil hv
  have hsetting : Setting.parse ("x" ++ "=" ++ value) = .ok ⟨"x", v⟩ := by
    have hx : Form.Word "x".toList "x" := hword (c := 'x') (by decide)
    rw [Setting.parse_word hx, hvalue]
    rfl
  have hcall : Call.parse text = .ok call := by
    have hname : Form.Constant ['F'] "F" := .intro (by decide) (by simp)
    have hmethod : Form.MethodName ['f'] "f" := .plain (hword (by decide))
    have hargs : Call.Arg.Written.Bracketed '(' ')' _ _ :=
      .items (.more (.intro space_nil (.keyword hkeyword) space_nil)
        (.one (.intro hspace (.positional hv) space_nil))) space_nil
    have hw := Call.Written.intro space_nil hname hmethod (.present space_nil hargs)
      (.keywords (.keyword (.positional .nil)) (by simp) (hsingle _)) (w := []) rfl
    rw [Call.parse_eq_ok_iff]
    simpa [text] using hw
  obtain ⟨hvalues, -, -⟩ := parsed_values_are_wellFormed value
  obtain ⟨-, hsettings, -⟩ := parsed_values_are_wellFormed ("x" ++ "=" ++ value)
  obtain ⟨-, -, hcalls⟩ := parsed_values_are_wellFormed text
  exact ⟨⟨hvalue, hvalues v hvalue⟩, ⟨hsetting, hsettings _ hsetting⟩, hcall, hcalls call hcall⟩

end Dispatch
