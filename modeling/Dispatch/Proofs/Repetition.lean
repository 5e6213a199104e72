import Dispatch.Proofs.Display.Value

/-!
# Repeated keys

Nothing keeps a hash from being made with a key in more than one of its pairs. Storing under such a
key changes the first of the pairs while looking up still finds the last, so what was stored is not
found. That is the only case: `insert_is_found_unless_repeated`.
-/

namespace Dispatch

namespace Pairs

def Repeats (ps : Pairs) (key : Value) : Prop := 1 < ps.countP fun e => e.1 == key

instance (ps : Pairs) (key : Value) : Decidable (ps.Repeats key) :=
  inferInstanceAs (Decidable (_ < _))

section
variable {ps : Pairs} {key other : Value} {e : Value × Value}

theorem repeats_cons_of_eq (h : (e.1 == key) = true) :
    Repeats (e :: ps) key ↔ lookup ps key ≠ none := by
  simp [Repeats, h, lookup_eq_none_iff]

theorem repeats_cons_of_ne (h : ¬ (e.1 == key) = true) :
    Repeats (e :: ps) key ↔ Repeats ps key := by
  simp [Repeats, h]

/-- The value goes to the first pair, and is looked for in the last. -/
theorem lookup_insert_self (hk : (key == key) = true) (v : Value) (ps : Pairs) :
    lookup (insert key v ps) key = if ps.Repeats key then lookup ps key else some v := by
  induction ps with
  | nil => simp [insert, lookup, Repeats, hk]
  | cons e ps ih =>
    by_cases he : (e.1 == key) = true
    · simp only [insert_cons_of_eq he, lookup_cons, he, if_true, repeats_cons_of_eq he]
      cases lookup ps key <;> simp
    · simp only [insert_cons_of_ne he, lookup_cons, ih, he, repeats_cons_of_ne he]
      split <;> simp

theorem lookup_insert_of_ne (h : ¬ (other == key) = true) (v : Value) (ps : Pairs) :
    lookup (insert key v ps) other = lookup ps other := by
  induction ps with
  | nil =>
    have hne : ¬ (key == other) = true := fun hk => h (Value.beq_symm hk)
    simp [insert, lookup, hne]
  | cons e ps ih =>
    by_cases he : (e.1 == key) = true
    · have hne : ¬ (e.1 == other) = true := fun ho =>
        h (Value.beq_trans (Value.beq_symm ho) he)
      simp [insert_cons_of_eq he, lookup_cons, hne]
    · simp [insert_cons_of_ne he, lookup_cons, ih]

end

end Pairs

namespace Value

/-- What is stored under a key with no NaN in it is found, unless the hash holds the key more than
once: then the key keeps the value that it had. Every key that differs keeps its value anyway. -/
theorem insert_is_found_unless_repeated (ps : Pairs) {key : Value} (hk : key.Numeric) (v : Value) :
    (¬ ps.Repeats key → ((hash ps).insert key v).get? key = some v) ∧
    (ps.Repeats key → ((hash ps).insert key v).get? key = (hash ps).get? key) ∧
    ∀ other, ¬ (other == key) = true →
      ((hash ps).insert key v).get? other = (hash ps).get? other := by
  have hself := Pairs.lookup_insert_self (beq_self_iff.mpr hk) v ps
  refine ⟨fun h => ?_, fun h => ?_, fun other ho => Pairs.lookup_insert_of_ne ho v ps⟩
  · rwa [if_neg h] at hself
  · rwa [if_pos h] at hself

/-- Of two equal zeros as keys the second is found, also after storing under either of them. A NaN
is another key. -/
theorem insert_repeated_zeros :
    let zero (negative : Bool) : Value := .float (.finite negative ⟨0, by decide⟩)
    let ps : Pairs := [(zero false, .nil), (.float .nan, .symbol "n"), (zero true, .symbol "z")]
    let qs : Pairs := [(zero false, .nil), (.float .nan, .symbol "n")]
    (zero true).Numeric ∧ ps.Repeats (zero true) ∧ ¬ qs.Repeats (zero true) ∧
      ((hash ps).insert (zero true) (.string "new")).get? (zero true) =
        (hash ps).get? (zero true) ∧
      ((hash qs).insert (zero true) (.string "new")).get? (zero true) = some (.string "new") ∧
      ¬ (Value.float .nan == zero true) = true ∧
      ((hash ps).insert (zero true) (.string "new")).get? (.float .nan) =
        (hash ps).get? (.float .nan) := by
  intro zero ps qs
  have hk : (zero true).Numeric := beq_self_iff.mp rfl
  have hp : ps.Repeats (zero true) := by decide
  have hq : ¬ qs.Repeats (zero true) := by decide
  have hn : ¬ (Value.float .nan == zero true) = true := by decide
  obtain ⟨-, hkept, hothers⟩ := insert_is_found_unless_repeated ps hk (.string "new")
  exact ⟨hk, hp, hq, hkept hp, (insert_is_found_unless_repeated qs hk _).1 hq, hn,
    hothers _ hn⟩

/-- With two pairs for one key the stored value is not the one that is found. -/
theorem inserted_value_not_found : ¬ ∀ (ps : Pairs) (key v : Value), key.Numeric →
    ((hash ps).insert key v).get? key = some v := by
  intro h
  have hk : (Value.symbol "k").Numeric := beq_self_iff.mp rfl
  have hfound := h [(.symbol "k", .integer 1), (.symbol "k", .integer 2)] _ (.integer 3) hk
  have hkept : ((hash [(.symbol "k", .integer 1), (.symbol "k", .integer 2)]).insert
      (.symbol "k") (.integer 3)).get? (.symbol "k") = some (.integer 2) := rfl
  rw [hkept] at hfound
  cases hfound

end Value

end Dispatch
