import Dispatch.Proofs.Equality
import Dispatch.Proofs.Pairs

/-!
# Keys

Storing looks for an equal key from the front, looking up from the back. On pairs with distinct
keys the two find the same pair (`lookup_insert`), and collecting never makes others. So collecting
does not change what a lookup finds, whatever keys are repeated, and what it leaves is read off
from lookups: `collected_collect`.
-/

namespace Dispatch

namespace Pairs

def keys (ps : Pairs) : List Value := ps.map Prod.fst

def Distinct (ps : Pairs) : Prop := ps.keys.Pairwise fun k l => ¬ (k == l) = true

instance (ps : Pairs) : Decidable ps.Distinct :=
  inferInstanceAs (Decidable (List.Pairwise _ _))

@[simp] theorem keys_cons (e : Value × Value) (ps : Pairs) : keys (e :: ps) = e.1 :: keys ps := rfl

theorem distinct_nil : Distinct [] := .nil

theorem distinct_cons {e : Value × Value} {ps : Pairs} :
    Distinct (e :: ps) ↔ (∀ f ∈ ps, ¬ (e.1 == f.1) = true) ∧ Distinct ps := by
  simp [Distinct, keys]

theorem lookup_cons (e : Value × Value) (ps : Pairs) (key : Value) :
    lookup (e :: ps) key = (lookup ps key).or (if e.1 == key then some e.2 else none) := by
  simp only [lookup, List.reverse_cons, List.find?_append, List.find?_singleton]
  cases List.find? (fun f => f.1 == key) ps.reverse <;> cases e.1 == key <;> rfl

theorem insert_cons_of_eq (h : (e.1 == key) = true) (v : Value) (ps : Pairs) :
    insert key v (e :: ps) = (e.1, v) :: ps := by
  rw [insert, if_pos h]

theorem insert_cons_of_ne (h : ¬ (e.1 == key) = true) (v : Value) (ps : Pairs) :
    insert key v (e :: ps) = e :: insert key v ps := by
  rw [insert, if_neg h]

theorem keys_insert (key v : Value) (ps : Pairs) : keys (insert key v ps) =
    if (keys ps).any (· == key) then keys ps else keys ps ++ [key] := by
  induction ps with
  | nil => rfl
  | cons e ps ih =>
    by_cases he : (e.1 == key) = true
    · simp [insert_cons_of_eq he, he]
    · rw [insert_cons_of_ne he, keys_cons, ih, keys_cons, List.any_cons,
        eq_false_of_ne_true he, Bool.false_or]
      split <;> rfl

theorem Distinct.insert (h : Distinct ps) (key v : Value) : Distinct (insert key v ps) := by
  rw [Distinct, keys_insert]
  split
  · exact h
  · rename_i hn
    refine List.pairwise_append.mpr ⟨h, List.pairwise_singleton _ _, ?_⟩
    simpa using hn

theorem any_keys_insert (key v other : Value) (ps : Pairs) :
    (keys (insert key v ps)).any (· == other) =
      ((keys ps).any (· == other) || key == other) := by
  rw [keys_insert]
  split
  · rename_i hk
    obtain ⟨k, hm, hk⟩ := List.any_eq_true.mp hk
    by_cases ho : (key == other) = true
    · have : (keys ps).any (· == other) = true :=
        List.any_eq_true.mpr ⟨k, hm, Value.beq_trans hk ho⟩
      simp [this]
    · simp [ho]
  · simp

/-- With distinct keys the pair that storing finds first is the one that looking up finds. -/
theorem lookup_insert (h : Distinct ps) (key v other : Value) :
    lookup (insert key v ps) other = if key == other then some v else lookup ps other := by
  induction ps with
  | nil => simp [insert, lookup]
  | cons e ps ih =>
    obtain ⟨hd, hps⟩ := distinct_cons.mp h
    by_cases he : (e.1 == key) = true
    · have hsame : (e.1 == other) = (key == other) := by
        rw [Bool.eq_iff_iff]
        exact ⟨Value.beq_trans (Value.beq_symm he), Value.beq_trans he⟩
      rw [insert_cons_of_eq he, lookup_cons, lookup_cons, hsame]
      by_cases ho : (key == other) = true
      · have hnone : lookup ps other = none := lookup_eq_none_iff.mpr fun f hf hfo =>
          hd f hf (Value.beq_trans (hsame.trans ho) (Value.beq_symm hfo))
        simp [ho, hnone]
      · simp [ho]
    · rw [insert_cons_of_ne he, lookup_cons, lookup_cons, ih hps]
      split <;> simp

def insertAll (acc es : Pairs) : Pairs := es.foldl (fun acc (k, v) => insert k v acc) acc

theorem Distinct.insertAll (h : Distinct acc) (es : Pairs) : Distinct (insertAll acc es) := by
  induction es generalizing acc with
  | nil => exact h
  | cons e es ih => exact ih (h.insert e.1 e.2)

theorem lookup_insertAll (h : Distinct acc) (es : Pairs) (key : Value) :
    lookup (insertAll acc es) key = (lookup es key).or (lookup acc key) := by
  induction es generalizing acc with
  | nil => rfl
  | cons e es ih =>
    have hstep : lookup (insertAll acc (e :: es)) key =
        (lookup es key).or (lookup (insert e.1 e.2 acc) key) := ih (h.insert e.1 e.2)
    rw [hstep, lookup_insert h, lookup_cons, Option.or_assoc]
    split <;> simp

/-- The keys that equal no key in front of them; those in `before` stand in front of all. -/
def newKeys (before : List Value) : List Value → List Value
  | [] => []
  | k :: ks =>
    if before.any (· == k) then newKeys (k :: before) ks else k :: newKeys (k :: before) ks

theorem keys_insertAll (es : Pairs) (hb : ∀ k, (keys acc).any (· == k) = before.any (· == k)) :
    keys (insertAll acc es) = keys acc ++ newKeys before (keys es) := by
  induction es generalizing acc before with
  | nil => simp [insertAll, newKeys, keys]
  | cons e es ih =>
    have hstep : keys (insertAll acc (e :: es)) =
        keys (insert e.1 e.2 acc) ++ newKeys (e.1 :: before) (keys es) := by
      refine ih fun k => ?_
      rw [any_keys_insert, hb, List.any_cons, Bool.or_comm]
    rw [hstep, keys_insert, hb, keys_cons, newKeys]
    split <;> simp

-- ---------------------------------------------------------------------
-- Looking up among distinct keys
-- ---------------------------------------------------------------------

theorem Distinct.lookup_eq_some_iff (h : Distinct ps) :
    lookup ps key = some v ↔ ∃ k, (k, v) ∈ ps ∧ (k == key) = true := by
  rw [Pairs.lookup_eq_some_iff]
  constructor
  · rintro ⟨before, k, after, rfl, hk, -⟩
    exact ⟨k, by simp, hk⟩
  · rintro ⟨k, hm, hk⟩
    obtain ⟨before, after, rfl⟩ := List.append_of_mem hm
    refine ⟨before, k, after, rfl, hk, fun e he hek => ?_⟩
    simp only [Distinct, keys, List.map_append, List.map_cons] at h
    have hafter := (List.pairwise_cons.mp (List.pairwise_append.mp h).2.1).1
    exact hafter e.1 (List.mem_map_of_mem he) (Value.beq_trans hk (Value.beq_symm hek))

theorem Distinct.perm (h : Distinct ps) (hp : ps.Perm qs) : Distinct qs :=
  (hp.map Prod.fst).pairwise h fun hkl hlk => hkl (Value.beq_symm hlk)

theorem lookup_perm (h : Distinct ps) (hp : ps.Perm qs) (key : Value) :
    lookup ps key = lookup qs key := by
  refine Option.ext fun v => ?_
  simp only [h.lookup_eq_some_iff, (h.perm hp).lookup_eq_some_iff, hp.mem_iff]

-- ---------------------------------------------------------------------
-- Collecting
-- ---------------------------------------------------------------------

theorem distinct_collect (ps : Pairs) : Distinct (collect ps) :=
  distinct_nil.insertAll ps

theorem lookup_collect (ps : Pairs) (key : Value) : lookup (collect ps) key = lookup ps key :=
  (lookup_insertAll distinct_nil ps key).trans Option.or_none

theorem keys_collect (ps : Pairs) : keys (collect ps) = newKeys [] (keys ps) :=
  keys_insertAll ps fun _ => rfl

/-- What is left of pairs when each key stands once: the first of equal keys in its place, with
the value of the last. -/
structure Collected (ps qs : Pairs) : Prop where
  distinct : qs.Distinct
  keys : qs.keys = newKeys [] ps.keys
  values (k v : Value) : (k, v) ∈ qs → (k == k) = true → ps.LastEqual k v
  lookups (k : Value) : (Value.hash qs).get? k = (Value.hash ps).get? k

theorem collected_collect (ps : Pairs) : Collected ps (collect ps) where
  distinct := distinct_collect ps
  keys := keys_collect ps
  values k v hm hk := by
    rw [← lookup_eq_some_iff, ← lookup_collect, (distinct_collect ps).lookup_eq_some_iff]
    exact ⟨k, hm, hk⟩
  lookups := lookup_collect ps

end Pairs

namespace Value

theorem foldl_insert (ps es : Pairs) :
    es.foldl (fun h (k, v) => h.insert k v) (hash ps) = hash (Pairs.insertAll ps es) := by
  induction es generalizing ps with
  | nil => rfl
  | cons e es ih => exact ih _

/-- Collecting leaves each key at its first place with its last value, and every lookup as it was.
Keys that are distinct stay so however many pairs are stored after that. -/
theorem collect_keeps_first_keys_and_last_values (ps : Pairs) :
    (∃ qs, collect ps = hash qs ∧ Pairs.Collected ps qs) ∧
    ∀ qs : Pairs, qs.Distinct → ∀ es : Pairs,
      ∃ rs, es.foldl (fun h (k, v) => h.insert k v) (hash qs) = hash rs ∧ Pairs.Distinct rs :=
  ⟨⟨_, rfl, Pairs.collected_collect ps⟩, fun qs h es => ⟨_, foldl_insert qs es, h.insertAll es⟩⟩

/-- Both zeros are one key, and a NaN is the same key as no other. -/
theorem collect_zeros_and_nans :
    let zero (negative : Bool) : Value := .float (.finite negative ⟨0, by decide⟩)
    let nan : Value := .float .nan
    let ps : Pairs :=
      [(zero false, .boolean true), (nan, .nil), (zero true, .boolean false), (nan, .symbol "n")]
    let qs : Pairs := [(zero false, .boolean false), (nan, .nil), (nan, .symbol "n")]
    collect ps = hash qs ∧ Pairs.Collected ps qs ∧ qs.Distinct ∧
      ∃ rs, [(nan, zero true)].foldl (fun h (k, v) => h.insert k v) (hash qs) = hash rs ∧
        Pairs.Distinct rs := by
  intro zero nan ps qs
  have he : collect ps = hash qs := rfl
  obtain ⟨⟨_, h, hc⟩, hd⟩ := collect_keeps_first_keys_and_last_values ps
  cases he.symm.trans h
  exact ⟨he, hc, hc.distinct, hd qs hc.distinct _⟩

end Value

end Dispatch
