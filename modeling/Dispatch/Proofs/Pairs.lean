import Dispatch.Value

/-!
# Pairs

`lookup_eq_some_iff` and `lookup_eq_none_iff` read a lookup as a statement about where equal keys
stand among the pairs, without a word on the order in which the pairs are searched. Keywords are
looked up by symbols, which equal nothing but themselves, so for them the key itself stands there.

`Pairs.Merged` says what is left of pairs when each key stands once: the key at its first place,
with the value of its last pair. Storing the pairs one after the other gives just that, as
`merged_iff_collect` shows. Nothing is asked of equality, so a key that differs from itself stays
in each of its places.
-/

namespace Dispatch

namespace Value

theorem beq_symbol_iff {key : Value} {name : String} :
    (key == .symbol name) = true ↔ key = .symbol name := by
  cases key <;> simp [BEq.beq, beq]

end Value

namespace Pairs

def LastEqual (ps : Pairs) (key v : Value) : Prop :=
  ∃ before k after, ps = before ++ (k, v) :: after ∧ (k == key) = true ∧
    ∀ e ∈ after, ¬ (e.1 == key) = true

theorem lookup_eq_some_iff {ps : Pairs} {key v : Value} :
    lookup ps key = some v ↔ LastEqual ps key v := by
  simp only [lookup, Option.map_eq_some_iff, List.find?_eq_some_iff_append]
  constructor
  · rintro ⟨⟨k, w⟩, ⟨hk, after, before, hps, hn⟩, rfl⟩
    refine ⟨before.reverse, k, after.reverse, ?_, hk, ?_⟩
    · rw [← List.reverse_reverse ps, hps]
      simp
    · intro e he
      simpa using hn e (by simpa using he)
  · rintro ⟨before, k, after, rfl, hk, hn⟩
    refine ⟨(k, v), ⟨hk, after.reverse, before.reverse, by simp, ?_⟩, rfl⟩
    intro e he
    simpa using hn e (by simpa using he)

theorem lookup_eq_none_iff {ps : Pairs} {key : Value} :
    lookup ps key = none ↔ ∀ e ∈ ps, ¬ (e.1 == key) = true := by
  simp [lookup]

def Has (ps : Pairs) (key : Value) : Prop := ∃ e ∈ ps, e.1 = key

def Last (ps : Pairs) (key v : Value) : Prop :=
  ∃ before after, ps = before ++ (key, v) :: after ∧ ¬ Has after key

theorem lookup_symbol_eq_some_iff {ps : Pairs} {name : String} {v : Value} :
    lookup ps (.symbol name) = some v ↔ Last ps (.symbol name) v := by
  simp only [lookup_eq_some_iff, LastEqual, Value.beq_symbol_iff]
  constructor
  · rintro ⟨before, _, after, hps, rfl, hn⟩
    exact ⟨before, after, hps, fun ⟨e, he, hk⟩ => hn e he hk⟩
  · rintro ⟨before, after, hps, hn⟩
    exact ⟨before, _, after, hps, rfl, fun e he hk => hn ⟨e, he, hk⟩⟩

theorem lookup_symbol_eq_none_iff {ps : Pairs} {name : String} :
    lookup ps (.symbol name) = none ↔ ¬ Has ps (.symbol name) := by
  simp only [lookup_eq_none_iff, Value.beq_symbol_iff, Has, not_exists, not_and]

-- ---------------------------------------------------------------------
-- Collecting
-- ---------------------------------------------------------------------

/-- The value of the last pair with an equal key, or the given one if there is no such pair. -/
def lastValue (key v : Value) (ps : Pairs) : Value :=
  ((ps.filter fun e => key == e.1).getLast?.map Prod.snd).getD v

inductive Merged : Pairs → Pairs → Prop
  | nil : Merged [] []
  | cons : Merged (ps.filter fun e => !(k == e.1)) qs →
      Merged ((k, v) :: ps) ((k, lastValue k v ps) :: qs)

theorem lastValue_cons (key v : Value) (e : Value × Value) (ps : Pairs) :
    lastValue key v (e :: ps) = lastValue key (if key == e.1 then e.2 else v) ps := by
  by_cases h : key == e.1
  · cases hps : ps.filter fun e => key == e.1 with
    | nil => simp [lastValue, h, hps]
    | cons f fs => simp [lastValue, h, hps, List.getLast?_cons]
  · simp [lastValue, h]

theorem foldl_insert_cons (key v : Value) (acc ps : Pairs) :
    ps.foldl (fun acc e => insert e.1 e.2 acc) ((key, v) :: acc) =
      (key, lastValue key v ps) ::
        (ps.filter fun e => !(key == e.1)).foldl (fun acc e => insert e.1 e.2 acc) acc := by
  induction ps generalizing v acc with
  | nil => rfl
  | cons e ps ih =>
    by_cases h : key == e.1
    · simp [insert, h, ih, lastValue_cons]
    · simp [insert, h, ih, lastValue_cons]

theorem collect_cons (key v : Value) (ps : Pairs) :
    collect ((key, v) :: ps) =
      (key, lastValue key v ps) :: collect (ps.filter fun e => !(key == e.1)) :=
  foldl_insert_cons key v [] ps

-- by the number of pairs: what a key leaves over is no part of the list, only shorter
theorem merged_collect : ∀ ps : Pairs, Merged ps (collect ps)
  | [] => .nil
  | (key, v) :: ps => by
    rw [collect_cons]
    exact .cons (merged_collect _)
termination_by ps => ps.length
decreasing_by exact Nat.lt_succ_of_le (List.length_filter_le _ _)

theorem merged_iff_collect : Merged ps qs ↔ collect ps = qs := by
  constructor
  · intro h
    induction h with
    | nil => rfl
    | cons _ ih => rw [collect_cons, ih]
  · rintro rfl
    exact merged_collect ps

theorem lastValue_cases (key v : Value) (ps : Pairs) :
    lastValue key v ps = v ∨ ∃ k, (k, lastValue key v ps) ∈ ps ∧ (key == k) = true := by
  cases hl : (ps.filter fun e => key == e.1).getLast? with
  | none => simp [lastValue, hl]
  | some e =>
    have hmem := List.mem_filter.mp (List.mem_of_getLast? hl)
    have hvalue : lastValue key v ps = e.2 := by simp [lastValue, hl]
    exact .inr ⟨e.1, hvalue ▸ hmem.1, hmem.2⟩

theorem Merged.ne_nil (h : Merged ps qs) (hne : ps ≠ []) : qs ≠ [] := by
  cases h with
  | nil => exact absurd rfl hne
  | cons _ => exact List.cons_ne_nil _ _

theorem Merged.exists_of_mem (h : Merged ps qs) (he : e ∈ qs) :
    (∃ v, (e.1, v) ∈ ps) ∧ ∃ k, (k, e.2) ∈ ps ∧ (k = e.1 ∨ (e.1 == k) = true) := by
  induction h with
  | nil => cases he
  | @cons qs k v ps _ ih =>
    rcases List.mem_cons.mp he with rfl | he
    · refine ⟨⟨v, List.mem_cons_self⟩, ?_⟩
      rcases lastValue_cases k v ps with hv | ⟨l, hl, hk⟩
      · exact ⟨k, by rw [hv]; exact List.mem_cons_self, .inl rfl⟩
      · exact ⟨l, List.mem_cons_of_mem _ hl, .inr hk⟩
    · have hkept {f : Value × Value} (hf : f ∈ ps.filter fun e => !(k == e.1)) :
          f ∈ (k, v) :: ps := List.mem_cons_of_mem _ (List.mem_filter.mp hf).1
      obtain ⟨⟨w, hw⟩, l, hl, hk⟩ := ih he
      exact ⟨⟨w, hkept hw⟩, l, hkept hl, hk⟩

variable {k : Value} {ps qs : Pairs}

theorem lastValue_of_forall (h : ∀ e ∈ ps, ¬ (k == e.1) = true) (v : Value) :
    lastValue k v ps = v := by
  have hnone : (ps.filter fun e => k == e.1) = [] := by simpa [List.filter_eq_nil_iff] using h
  rw [lastValue, hnone]
  rfl

theorem filter_of_forall (h : ∀ e ∈ ps, ¬ (k == e.1) = true) :
    (ps.filter fun e => !(k == e.1)) = ps := by simpa [List.filter_eq_self] using h

theorem Merged.cons_of_forall (h : ∀ e ∈ ps, ¬ (k == e.1) = true) (hm : Merged ps qs) (v : Value) :
    Merged ((k, v) :: ps) ((k, v) :: qs) := by
  have hcons := Merged.cons (v := v) ((filter_of_forall h).symm ▸ hm)
  rwa [lastValue_of_forall h] at hcons

theorem Merged.length_le (h : Merged ps qs) : qs.length ≤ ps.length := by
  induction h with
  | nil => exact Nat.le_refl _
  | cons _ ih => exact Nat.succ_le_succ (Nat.le_trans ih (List.length_filter_le _ _))

/-- If as many pairs are left as there were, none was merged into another. -/
theorem Merged.eq_of_length (h : Merged ps qs) (hl : qs.length = ps.length) : qs = ps := by
  induction h with
  | nil => rfl
  | @cons qs k v ps hm ih =>
    have hle := hm.length_le
    have hfilter := List.length_filter_le (fun e => !(k == e.1)) ps
    have hlength : (ps.filter fun e => !(k == e.1)).length = ps.length := by
      simp only [List.length_cons] at hl
      omega
    have hnone : ∀ e ∈ ps, ¬ (k == e.1) = true := by
      simpa using List.length_filter_eq_length_iff.mp hlength
    rw [ih (by simp only [List.length_cons] at hl; omega), filter_of_forall hnone,
      lastValue_of_forall hnone]

end Pairs

end Dispatch
