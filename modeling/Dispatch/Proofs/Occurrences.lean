import Mathlib.Data.List.Induction

/-!
# First and last occurrences

What is done to a class or an object is a list of operations. The place of a name goes by its
first occurrence, and `eraseDups` keeps the names in the order of those; what the name stands for
goes by the last one, and `LastWith` is the last element with a property.
-/

namespace Dispatch

def LastWith (P : α → Prop) (l : List α) (x : α) : Prop :=
  ∃ before after, l = before ++ x :: after ∧ P x ∧ ∀ y ∈ after, ¬ P y

section
variable {P : α → Prop} {l before after : List α} {x y : α}

theorem LastWith.mem (h : LastWith P l x) : x ∈ l ∧ P x := by
  obtain ⟨before, after, rfl, hx, -⟩ := h
  exact ⟨by simp, hx⟩

theorem lastWith_congr {Q : α → Prop} (h : ∀ y ∈ l, P y ↔ Q y) :
    LastWith P l x ↔ LastWith Q l x := by
  constructor
  · rintro ⟨before, after, rfl, hx, hn⟩
    exact ⟨before, after, rfl, (h x (by simp)).mp hx,
      fun y hy hq => hn y hy ((h y (by simp [hy])).mpr hq)⟩
  · rintro ⟨before, after, rfl, hx, hn⟩
    exact ⟨before, after, rfl, (h x (by simp)).mpr hx,
      fun y hy hp => hn y hy ((h y (by simp [hy])).mp hp)⟩

theorem not_lastWith_nil : ¬ LastWith P [] x := by
  rintro ⟨before, after, hl, -⟩
  simp at hl

theorem lastWith_cons :
    LastWith P (x :: l) y ↔ LastWith P l y ∨ (∀ z ∈ l, ¬ P z) ∧ P x ∧ y = x := by
  constructor
  · rintro ⟨before, after, hl, hy, hn⟩
    cases before with
    | nil =>
      cases hl
      exact .inr ⟨hn, hy, rfl⟩
    | cons z before =>
      cases hl
      exact .inl ⟨before, after, rfl, hy, hn⟩
  · rintro (⟨before, after, rfl, hy, hn⟩ | ⟨hn, hx, rfl⟩)
    · exact ⟨x :: before, after, rfl, hy, hn⟩
    · exact ⟨[], l, rfl, hx, hn⟩

theorem concat_eq_append_cons (h : l ++ [x] = before ++ y :: after) :
    (y = x ∧ after = []) ∨ ∃ rest, after = rest ++ [x] ∧ l = before ++ y :: rest := by
  rcases List.eq_nil_or_concat after with rfl | ⟨rest, z, rfl⟩
  · exact .inl ⟨(List.singleton_inj.mp (List.append_inj_right' h rfl)).symm, rfl⟩
  · have hz : l ++ [x] = (before ++ y :: rest) ++ [z] := by simpa using h
    obtain rfl : x = z := List.singleton_inj.mp (List.append_inj_right' hz rfl)
    exact .inr ⟨rest, by simp, List.append_inj_left' hz rfl⟩

theorem lastWith_concat (hx : P x) : LastWith P (l ++ [x]) y ↔ y = x := by
  constructor
  · rintro ⟨before, after, hl, -, hn⟩
    rcases concat_eq_append_cons hl with ⟨rfl, -⟩ | ⟨rest, rfl, -⟩
    · rfl
    · exact absurd hx (hn x (by simp))
  · rintro rfl
    exact ⟨l, [], rfl, hx, by simp⟩

theorem lastWith_concat_of_not (hx : ¬ P x) : LastWith P (l ++ [x]) y ↔ LastWith P l y := by
  constructor
  · rintro ⟨before, after, hl, hy, hn⟩
    rcases concat_eq_append_cons hl with ⟨rfl, -⟩ | ⟨rest, rfl, rfl⟩
    · exact absurd hy hx
    · exact ⟨before, rest, rfl, hy, fun z hz => hn z (by simp [hz])⟩
  · rintro ⟨before, after, rfl, hy, hn⟩
    refine ⟨before, after ++ [x], by simp, hy, ?_⟩
    simpa [or_imp, forall_and] using ⟨hn, hx⟩

theorem lastWith_map {f : β → α} {l : List β} :
    LastWith P (l.map f) x ↔ ∃ y, LastWith (fun z => P (f z)) l y ∧ f y = x := by
  induction l using List.reverseRecOn with
  | nil => simp [not_lastWith_nil]
  | append_singleton l y ih =>
    rw [List.map_append, List.map_singleton]
    by_cases hy : P (f y)
    · simp [lastWith_concat hy, lastWith_concat (P := fun z => P (f z)) hy, eq_comm]
    · simp [lastWith_concat_of_not hy, lastWith_concat_of_not (P := fun z => P (f z)) hy, ih]

theorem exists_lastWith : (∃ x, LastWith P l x) ↔ ∃ x ∈ l, P x := by
  induction l using List.reverseRecOn with
  | nil => simp [not_lastWith_nil]
  | append_singleton l x ih =>
    by_cases hx : P x
    · simp [lastWith_concat hx, hx]
    · simp [lastWith_concat_of_not hx, ih, hx]

end

section
variable [BEq α] [LawfulBEq α] {l before after : List α} {x : α}

theorem eraseDups_concat (l : List α) (x : α) :
    (l ++ [x]).eraseDups = if x ∈ l then l.eraseDups else l.eraseDups ++ [x] := by
  rw [List.eraseDups_append]
  split <;> simp_all [List.removeAll, List.eraseDups_cons]

/-- An element stands behind those that occur before its first occurrence. -/
theorem getElem?_eraseDups (hx : x ∉ before) :
    (before ++ x :: after).eraseDups[before.eraseDups.length]? = some x := by
  simp [List.eraseDups_append, List.removeAll, hx, List.eraseDups_cons]

end

end Dispatch
