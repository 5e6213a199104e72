import Dispatch.Proofs.Display.Literal
import Dispatch.Proofs.Grammar.Value
import Dispatch.Proofs.Keys

/-!
# Values as they are shown

A value whose symbols are words and whose hashes have distinct keys is read back from its shown
form exactly if all floats in it are plain, at any depth and in keys as well
(`parse_display_equal_iff`). Both directions go by induction on the value with the text behind it
left open. What is read where a hash is shown has as many pairs as the hash, each read from the
text of its own pair; so if the pairs are equal in the end, none was merged into another.
-/

namespace Dispatch

namespace Value

/-- As the value itself or in a hash in it, in keys and values at any depth. -/
inductive Occurs (w : Value) : Value → Prop
  | self : Occurs w w
  | key : e ∈ ps → Occurs w e.1 → Occurs w (.hash ps)
  | value : e ∈ ps → Occurs w e.2 → Occurs w (.hash ps)

structure Regular (v : Value) : Prop where
  symbols (n : String) : Occurs (.symbol n) v → Form.Word n.toList n
  keys (ps : Pairs) : Occurs (.hash ps) v → ps.Distinct

def Plain (v : Value) : Prop := ∀ x, Occurs (.float x) v → x.Plain

theorem occurs_literal {l : Literal} : Occurs w l.toValue ↔ w = l.toValue := by
  constructor
  · intro h
    cases l <;> cases h <;> rfl
  · rintro rfl
    exact .self

theorem regular_literal (l : Literal) : Regular l.toValue ↔ l.Regular := by
  constructor
  · rintro ⟨hsymbols, -⟩ n rfl
    exact hsymbols n .self
  · intro h
    refine ⟨fun n hn => ?_, fun ps hps => ?_⟩
    · rw [occurs_literal] at hn
      cases l <;> cases hn
      exact h n rfl
    · rw [occurs_literal] at hps
      cases l <;> cases hps

theorem regular_hash {ps : Pairs} :
    Regular (.hash ps) ↔ ps.Distinct ∧ ∀ e ∈ ps, e.1.Regular ∧ e.2.Regular := by
  constructor
  · rintro ⟨hsymbols, hkeys⟩
    refine ⟨hkeys ps .self, fun e he => ⟨⟨?_, ?_⟩, ⟨?_, ?_⟩⟩⟩
    · exact fun n hn => hsymbols n (.key he hn)
    · exact fun qs hqs => hkeys qs (.key he hqs)
    · exact fun n hn => hsymbols n (.value he hn)
    · exact fun qs hqs => hkeys qs (.value he hqs)
  · rintro ⟨hd, h⟩
    refine ⟨fun n hn => ?_, fun qs hqs => ?_⟩
    · cases hn with
      | key he hn => exact (h _ he).1.symbols n hn
      | value he hn => exact (h _ he).2.symbols n hn
    · cases hqs with
      | self => exact hd
      | key he hqs => exact (h _ he).1.keys qs hqs
      | value he hqs => exact (h _ he).2.keys qs hqs

theorem plain_literal (l : Literal) : Plain l.toValue ↔ l.Plain := by
  constructor
  · rintro h x rfl
    exact h x .self
  · intro h x hx
    rw [occurs_literal] at hx
    cases l <;> cases hx
    exact h x rfl

theorem forall_float_hash {p : Double → Prop} {ps : Pairs} :
    (∀ x, Occurs (.float x) (.hash ps) → p x) ↔ ∀ e ∈ ps,
      (∀ x, Occurs (.float x) e.1 → p x) ∧ ∀ x, Occurs (.float x) e.2 → p x := by
  constructor
  · exact fun h e he => ⟨fun x hx => h x (.key he hx), fun x hx => h x (.value he hx)⟩
  · intro h x hx
    cases hx with
    | key he hx => exact (h _ he).1 x hx
    | value he hx => exact (h _ he).2 x hx

theorem plain_hash {ps : Pairs} : Plain (.hash ps) ↔ ∀ e ∈ ps, e.1.Plain ∧ e.2.Plain :=
  forall_float_hash

def Numeric (v : Value) : Prop := ∀ x, Occurs (.float x) v → x ≠ .nan

theorem numeric_literal (l : Literal) : Numeric l.toValue ↔ l ≠ .float .nan := by
  constructor
  · rintro h rfl
    exact h .nan .self rfl
  · rintro h x hx rfl
    rw [occurs_literal] at hx
    cases l <;> cases hx
    exact h rfl

theorem numeric_hash {ps : Pairs} : Numeric (.hash ps) ↔ ∀ e ∈ ps, e.1.Numeric ∧ e.2.Numeric :=
  forall_float_hash

theorem Plain.numeric {v : Value} (h : v.Plain) : v.Numeric := by
  rintro x hx rfl
  exact h .nan hx

/-- A value equals itself exactly if there is no NaN in it. -/
theorem beq_self_iff {v : Value} : (v == v) = true ↔ v.Numeric := by
  induction v using literal_or_hash with
  | literal l =>
    rw [numeric_literal]
    refine ⟨?_, literal_beq_self⟩
    rintro h rfl
    exact (Double.beq_self_iff .nan).mp h rfl
  | hash ps ih =>
    rw [hash_beq_iff, List.forall₂_same, numeric_hash]
    exact forall₂_congr fun e he => and_congr (ih e he).1 (ih e he).2

-- ---------------------------------------------------------------------
-- Reading back
-- ---------------------------------------------------------------------

def shownPair (e : Value × Value) : List Char := e.1.inspect ++ '=' :: '>' :: e.2.inspect

theorem inspect_hash (ps : Pairs) :
    (hash ps).inspect = '{' :: (Text.listed (ps.map shownPair) ++ ['}']) := by
  have hpairs : inspectPairs ps = ps.map shownPair := by
    induction ps with
    | nil => rfl
    | cons e ps ih =>
      rw [inspectPairs, ih]
      rfl
  rw [inspect, hpairs]

theorem merged_self {ps : Pairs} (h : ps.Distinct) : Pairs.Merged ps ps := by
  induction ps with
  | nil => exact .nil
  | cons e ps ih =>
    obtain ⟨hne, hps⟩ := Pairs.distinct_cons.mp h
    exact Pairs.Merged.cons_of_forall hne (ih hps) e.2

theorem written_inspect {v : Value} (h : v.Regular) (hp : v.Plain) : Written v.inspect v := by
  induction v using literal_or_hash with
  | literal l =>
    exact .literal (Literal.written_inspect ((regular_literal _).mp h) ((plain_literal _).mp hp))
  | hash ps ih =>
    obtain ⟨hd, hparts⟩ := regular_hash.mp h
    rw [inspect_hash]
    refine .hash (Form.bracketed_listed _ _ (List.forall₂_same.mpr fun e he => ?_)) (merged_self hd)
    have hplain := plain_hash.mp hp e he
    have hk := (ih e he).1 (hparts e he).1 hplain.1
    have hv := (ih e he).2 (hparts e he).2 hplain.2
    exact .arrow (.intro hk space_nil (.intro space_nil hv))

-- ---------------------------------------------------------------------
-- Pinned values
-- ---------------------------------------------------------------------

theorem inspect_begins {v : Value} (h : v.Regular) : Begins IsLead v.inspect := by
  induction v using literal_or_hash with
  | literal l => exact (Literal.inspect_begins ((regular_literal _).mp h)).mono fun _ => .inr
  | hash ps _ =>
    rw [inspect_hash]
    exact ⟨'{', _, rfl, .inl rfl⟩

theorem inspect_word_or {v : Value} (h : v.Regular) :
    (∃ n, Form.Word v.inspect n) ∨ Begins (¬ IsFirst ·) v.inspect := by
  induction v using literal_or_hash with
  | literal l =>
    rcases Literal.written_or_malformed ((regular_literal _).mp h) with ⟨k, hw, -⟩ | hm
    · exact (Written.literal hw).word_or
    · exact .inr (hm.starts.mono fun _ hc hf => Literal.not_number_of_first hf hc)
  | hash ps _ =>
    rw [inspect_hash]
    exact .inr ⟨'{', _, rfl, by decide⟩

/-- What is read where the value is shown equals it only if the value is plain. -/
def Pinned (v : Value) : Prop :=
  Form.Pins Written Literal.IsEnd v.inspect fun w => (w == v) = true → v.Plain

theorem pinned_literal {l : Literal} (h : l.Regular) : Pinned l.toValue := by
  intro t w r s ht heq hr hs
  cases ht with
  | literal ht =>
    obtain ⟨htext, hl⟩ := Literal.pins_inspect h t _ r s ht heq hr hs
    exact ⟨htext, fun he => (plain_literal _).mpr (hl he)⟩
  | hash ht _ =>
    obtain ⟨c, rfl, hc⟩ := ((Form.bracketed_starts _ _ _).begins ht).meet
      (Literal.inspect_begins h) heq
    exact absurd hc (by decide)

/-- No word in front of a colon is read where a pair is shown. -/
theorem keyword_clash {k : Value} (h : k.Regular) (ht : Form.Word t n)
    (heq : t ++ ':' :: u = k.inspect ++ '=' :: s) : False := by
  rcases inspect_word_or h with ⟨n', hw⟩ | hb
  · obtain ⟨-, hrest⟩ := run_append_inj (Form.word_parts ht) (Form.word_parts hw)
      (before_cons.mpr (by decide)) (before_cons.mpr (by decide)) heq
    cases hrest
  · obtain ⟨c, hc, hn⟩ := ((Form.run_starts IsFirst).begins ht).meet hb heq
    exact absurd hc hn

theorem pins_pair {e : Value × Value} (h : e.1.Regular) (h' : e.2.Regular) (hk : Pinned e.1)
    (hv : Pinned e.2) : Form.Pins (.Pair Written) Literal.IsEnd (shownPair e) fun f =>
      PairEq f e → e.1.Plain ∧ e.2.Plain := by
  intro t f r s ht heq hr hs
  cases ht with
  | keyword ht =>
    obtain ⟨ht, -⟩ := ht
    simp only [shownPair, List.append_assoc, List.cons_append] at heq
    exact (keyword_clash h ht heq).elim
  | arrow ht =>
    obtain @⟨t, k, a, u, v, ht, ha, hu⟩ := ht
    simp only [shownPair, List.append_assoc, List.cons_append] at heq
    have harrow : ∀ u, Before Literal.IsEnd ('=' :: u) := fun u => before_cons.mpr (by decide)
    obtain ⟨rfl, hkey⟩ := hk t k _ _ ht heq
      (before_append (fun c hc => .inl (ha c hc)) (harrow _)) (harrow _)
    rw [List.append_cancel_left_eq] at heq
    obtain ⟨rfl, hrest⟩ := space_append_inj ha space_nil (before_cons.mpr (by decide))
      (before_cons.mpr (by decide)) heq
    rw [List.cons_inj_right, List.cons_inj_right] at hrest
    have hvalue := hv.spaced written_starts (inspect_begins h') (fun _ h => h.not_space) space_nil
    obtain ⟨rfl, hv⟩ := hvalue u v r s hu hrest hr hs
    exact ⟨rfl, fun hf => ⟨hkey hf.1, hv hf.2⟩⟩

theorem shownPair_begins {e : Value × Value} (h : e.1.Regular) : Begins IsLead (shownPair e) :=
  (inspect_begins h).append _

theorem pinned_hash {ps : Pairs} (h : ∀ e ∈ ps, e.1.Regular ∧ e.2.Regular)
    (hp : ∀ e ∈ ps, Pinned e.1 ∧ Pinned e.2) : Pinned (.hash ps) := by
  intro t w r s ht heq hr hs
  rw [inspect_hash] at heq ⊢
  cases ht with
  | literal ht =>
    obtain ⟨c, hc, rfl⟩ := (Literal.written_starts.begins ht).meet ⟨'{', _, rfl, rfl⟩ heq
    exact absurd hc (by decide)
  | @hash t es qs ht hm =>
    have hlead : ∀ c, IsLead c → ¬ IsSpace c ∧ c ≠ '}' := by
      refine fun c hc => ⟨hc.not_space, ?_⟩
      rintro rfl
      exact absurd hc (by decide)
    have hend : ∀ c, c = ',' ∨ c = '}' → Literal.IsEnd c ∧ ¬ IsSpace c := by
      rintro c (rfl | rfl) <;> decide
    have hpairs : ∀ e ∈ ps, ∀ a, Space a → (Form.Pair Written).Padded.Pins
        (fun c => c = ',' ∨ c = '}') (a ++ shownPair e)
        fun f => PairEq f e → e.1.Plain ∧ e.2.Plain := by
      intro e he a ha
      obtain ⟨hk, hv⟩ := h e he
      exact (pins_pair hk hv (hp e he).1 (hp e he).2).padded pair_starts (shownPair_begins hk)
        (fun _ h => h.not_space) (fun _ hc => .inl hc) hend ha
    obtain ⟨htext, hes⟩ := Form.bracketed_pins hpairs pair_starts
      (fun e he => shownPair_begins (h e he).1) hlead (by decide) (by decide)
      t es r s ht heq (fun _ _ => trivial) (fun _ _ => trivial)
    refine ⟨htext, fun hequal => plain_hash.mpr ?_⟩
    -- as many pairs are left as were read, so they are the pairs that were read
    have hqs := hash_beq_iff.mp hequal
    have hlength : qs.length = es.length := hqs.length_eq.trans hes.length_eq
    rw [hm.eq_of_length hlength] at hqs
    exact Form.forall_of_same hes hqs

theorem pinned {v : Value} (h : v.Regular) : Pinned v := by
  induction v using literal_or_hash with
  | literal l => exact pinned_literal ((regular_literal _).mp h)
  | hash ps ih =>
    obtain ⟨-, hparts⟩ := regular_hash.mp h
    exact pinned_hash hparts fun e he =>
      ⟨(ih e he).1 (hparts e he).1, (ih e he).2 (hparts e he).2⟩

theorem display_toList (v : Value) : v.display.toList = v.inspect := String.toList_ofList

theorem parse_of_plain {v : Value} (h : v.Regular) (hp : v.Plain) : parse v.display = .ok v := by
  rw [(parse_value_iff _).1, display_toList]
  exact Form.padded_of_space space_nil (written_inspect h hp)

theorem plain_of_parse {v w : Value} (h : v.Regular) (hparse : parse v.display = .ok w)
    (he : (w == v) = true) : v.Plain := by
  rw [(parse_value_iff _).1, display_toList] at hparse
  have hpins := (pinned h).padded written_starts (inspect_begins h) (fun _ h => h.not_space)
    (fun _ hc => .inl hc) (fun c (hc : Literal.IsEnd c ∧ ¬ IsSpace c) => hc) space_nil
  exact (hpins v.inspect w [] [] hparse rfl before_nil before_nil).2 he

/-- A value is parsed from its shown form, up to equality, exactly if all floats in it are plain;
and then as itself. -/
theorem parse_display_equal_iff {v : Value} (h : v.Regular) :
    ((∃ w, parse v.display = .ok w ∧ (w == v) = true) ↔ v.Plain) ∧
    (v.Plain → parse v.display = .ok v) := by
  refine ⟨⟨?_, fun hp => ⟨v, parse_of_plain h hp, beq_self_iff.mpr hp.numeric⟩⟩, parse_of_plain h⟩
  rintro ⟨w, hparse, he⟩
  exact plain_of_parse h hparse he

/-- Of two neighbours in a key only the one below `1e16` is parsed again. -/
theorem parse_display_nested :
    let v (rank : Fin Double.ranks) : Value :=
      .hash [(.hash [(.float (.finite false rank), .string "\"")], .symbol "n")]
    let below := v ⟨4846369599423283199, by decide⟩
    let bound := v ⟨4846369599423283200, by decide⟩
    (below.Regular ∧ parse below.display = .ok below) ∧
      bound.Regular ∧ ¬ ∃ w, parse bound.display = .ok w ∧ (w == bound) = true := by
  intro v below bound
  have hregular : ∀ rank, (v rank).Regular := by
    intro rank
    have hfloat : Regular (.float (.finite false rank)) :=
      (regular_literal (.float _)).mpr (by simp [Literal.Regular])
    have hstring : Regular (.string "\"") :=
      (regular_literal (.string _)).mpr (by simp [Literal.Regular])
    have hword : Form.Word "n".toList "n" := Literal.word_of_list rfl rfl
    have hsymbol : Regular (.symbol "n") :=
      (regular_literal (.symbol _)).mpr (by simpa [Literal.Regular] using hword)
    have hkey : Regular (.hash [(.float (.finite false rank), .string "\"")]) :=
      regular_hash.mpr ⟨List.pairwise_singleton _ _, by simpa using ⟨hfloat, hstring⟩⟩
    exact regular_hash.mpr ⟨List.pairwise_singleton _ _, by simpa using ⟨hkey, hsymbol⟩⟩
  have hplain : ∀ rank : Fin Double.ranks,
      (v rank).Plain ↔ Double.shown.isPlain rank = true := by
    intro rank
    have hfloat : Plain (.float (.finite false rank)) ↔ Double.Plain (.finite false rank) :=
      (plain_literal (.float _)).trans (by simp [Literal.Plain])
    have hstring : Plain (.string "\"") :=
      (plain_literal (.string _)).mpr (by simp [Literal.Plain])
    have hsymbol : Plain (.symbol "n") :=
      (plain_literal (.symbol _)).mpr (by simp [Literal.Plain])
    rw [Double.isPlain_iff]
    simp [v, plain_hash, hfloat, hstring, hsymbol, Double.Plain]
  refine ⟨⟨hregular _, ?_⟩, hregular _, fun h => ?_⟩
  · exact (parse_display_equal_iff (hregular _)).2 ((hplain _).mpr (by decide +kernel))
  · have hp := (parse_display_equal_iff (hregular _)).1.mp h
    exact absurd ((hplain _).mp hp) (by decide +kernel)

end Value

end Dispatch
