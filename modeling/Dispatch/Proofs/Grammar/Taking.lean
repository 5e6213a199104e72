import Dispatch.Proofs.Grammar.Pinned

/-!
# Texts that a scan takes

What a printer writes is taken back by a scan piece by piece: each piece as a whole in front of an
end or of a character that the printer may put there. This is less than reading a form, since it
says nothing of other texts, and it is enough where a text is known: `bracketed_takes`.
-/

namespace Dispatch

namespace Text

theorem joined_comma (t : List Char) (ts : List (List Char)) :
    joined [','] (t :: ts) = t ++ ts.flatMap (',' :: ·) := by
  induction ts generalizing t with
  | nil => simp
  | cons u ts ih => simp [joined, ih]

theorem length_le_joined (h : t ∈ ts) (separator : List Char) :
    t.length ≤ (joined separator ts).length := by
  fun_induction joined separator ts with
  | case1 => cases h
  | case2 u => exact Nat.le_of_eq (congrArg List.length (List.mem_singleton.mp h))
  | case3 u v ts ih =>
    simp only [List.length_append]
    rcases List.mem_cons.mp h with rfl | h
    · omega
    · have := ih h
      omega

end Text

namespace Scan

/-- The scan takes the text as a whole in front of an end or a character in `next`. -/
def Takes (scan : Scan α) (next : Char → Prop) (t : List Char) (x : α) : Prop :=
  ∀ rest, Before next rest → scan (t ++ rest) = some (x, rest)

section
variable {α β : Type} {scan other : Scan α} {next next' : Char → Prop} {t rest : List Char}
  {x : α} {c : Char}

theorem Takes.mono (h : Takes scan next t x) (hn : ∀ c, next' c → next c) :
    Takes scan next' t x := fun rest hr => h rest (hr.mono hn)

theorem Takes.whole (h : Takes scan next t x) : scan t = some (x, []) := by
  simpa using h [] before_nil

theorem Takes.map (h : Takes scan next t x) (f : α → β) : Takes (Scan.map f scan) next t (f x) := by
  intro rest hr
  rw [Scan.map, h rest hr, Option.map_some]

theorem Takes.after (h : Takes scan next t x) (c : Char) :
    Takes (Scan.after c scan) next (c :: t) x :=
  fun rest hr => after_eq_some_iff.mpr ⟨t ++ rest, rfl, h rest hr⟩

theorem Takes.first (h : Takes scan next t x) : Takes (orElse scan other) next t x := by
  intro rest hr
  simp only [orElse, h rest hr]

theorem Takes.second (h : Takes scan next t x) (hd : ∀ rest, other (t ++ rest) = none) :
    Takes (orElse other scan) next t x := by
  intro rest hr
  simp only [orElse, hd rest, h rest hr]

theorem Takes.spaced (h : Takes scan next t x) (hb : Begins (¬ IsSpace ·) t) :
    Takes (Scan.spaced scan) next t x := by
  intro rest hr
  have hskip : skip (t ++ rest) = t ++ rest := skip_run space_nil (hb.before rest)
  rw [Scan.spaced, hskip, h rest hr]

theorem Takes.padded (h : Takes scan next t x) (hb : Begins (¬ IsSpace ·) t)
    (hn : ∀ c, next c → ¬ IsSpace c) : Takes (Scan.padded scan) next t x := by
  intro rest hr
  have hfront : skip (t ++ rest) = t ++ rest := skip_run space_nil (hb.before rest)
  have hback : skip rest = rest := skip_run space_nil (hr.mono hn)
  simp only [Scan.padded, hfront, h rest hr, Option.map_some, hback]

theorem after_of_begins {first : Char → Prop} (h : Begins first t) (hc : ¬ first c)
    (rest : List Char) : after c scan (t ++ rest) = none := by
  obtain ⟨d, u, rfl, hd⟩ := h
  have hne : ¬ d = c := fun he => hc (he ▸ hd)
  simp only [List.cons_append, after, if_neg hne]

theorem map_after_of_begins {first : Char → Prop} (h : Begins first t) (hc : ¬ first c) (f : α → β)
    (scan : Scan α) (rest : List Char) : Scan.map f (Scan.after c scan) (t ++ rest) = none := by
  rw [Scan.map, after_of_begins h hc, Option.map_none]

end

section
variable {α β : Type} {item : Scan β} {next : Char → Prop} {text : α → List Char} {value : α → β}
  {xs : List α} {rest : List Char}

def separated (text : α → List Char) (xs : List α) : List Char := xs.flatMap fun x => ',' :: text x

theorem before_separated (text : α → List Char) (hcomma : next ',') (hr : Before next rest)
    (xs : List α) : Before next (separated text xs ++ rest) := by
  cases xs with
  | nil => exact hr
  | cons x xs => exact before_cons.mpr hcomma

theorem length_le_separated (text : α → List Char) (xs : List α) :
    xs.length ≤ (separated text xs).length := by
  induction xs with
  | nil => exact Nat.zero_le _
  | cons x xs ih =>
    rw [separated] at ih
    simp only [separated, List.flatMap_cons, List.length_append, List.length_cons]
    omega

theorem more_takes (h : ∀ x ∈ xs, Takes item next (text x) (value x)) (hcomma : next ',')
    (hr : Before next rest) (hstop : Before (· ≠ ',') rest) (rounds : Nat)
    (hrounds : xs.length ≤ rounds) :
    more item rounds (separated text xs ++ rest) = (xs.map value, rest) := by
  induction xs generalizing rounds with
  | nil => exact more_of_before hstop
  | cons x xs ih =>
    obtain ⟨n, rfl⟩ : ∃ n, rounds = n + 1 := Nat.exists_eq_add_one.mpr (by simp at hrounds; omega)
    have hx := h x (by simp) _ (before_separated text hcomma hr xs)
    have hxs := ih (fun y hy => h y (List.mem_cons_of_mem _ hy)) n (by simpa using hrounds)
    simp only [separated, List.flatMap_cons, List.cons_append, List.append_assoc] at hx hxs ⊢
    simp only [more, hx, hxs, List.map_cons]

theorem items_takes {x : α} (h : ∀ y ∈ x :: xs, Takes item next (text y) (value y))
    (hcomma : next ',') (hr : Before next rest) (hstop : Before (· ≠ ',') rest) :
    items item (Text.joined [','] ((x :: xs).map text) ++ rest) = ((x :: xs).map value, rest) := by
  have hjoined : Text.joined [','] ((x :: xs).map text) = text x ++ separated text xs := by
    rw [List.map_cons, Text.joined_comma, List.flatMap_map, separated]
  have hx := h x (by simp) _ (before_separated text hcomma hr xs)
  have hrounds : xs.length ≤ (separated text xs ++ rest).length := by
    have := length_le_separated text xs
    rw [List.length_append]
    omega
  have hxs := more_takes (fun y hy => h y (List.mem_cons_of_mem _ hy)) hcomma hr hstop _ hrounds
  rw [hjoined, List.append_assoc]
  simp only [items, hx, hxs, List.map_cons]

theorem bracketed_takes (opening : Char) {closing : Char} {next' : Char → Prop} (value : α → β)
    (h : ∀ x ∈ xs, Takes item (fun c => c = ',' ∨ c = closing) (text x) (value x))
    (hb : ∀ x ∈ xs, Begins (¬ IsSpace ·) (text x)) (hd : ∀ rest, item (closing :: rest) = none)
    (hc : ¬ IsSpace closing) (hcomma : closing ≠ ',') :
    Takes (bracketed opening closing item) next'
      (opening :: (Text.joined [','] (xs.map text) ++ [closing])) (xs.map value) := by
  intro rest _
  have hskip : skip (closing :: rest) = closing :: rest := skip_run space_nil (before_cons.mpr hc)
  have hitems : items (padded item) (Text.joined [','] (xs.map text) ++ closing :: rest) =
      (xs.map value, closing :: rest) := by
    cases xs with
    | nil =>
      have hnone : padded item (closing :: rest) = none := by rw [padded, hskip, hd]; rfl
      simp only [List.map_nil, Text.joined_nil, List.nil_append, items, hnone]
    | cons x xs =>
      have hnext : ∀ c, c = ',' ∨ c = closing → ¬ IsSpace c := by
        rintro c (rfl | rfl)
        · decide
        · exact hc
      exact items_takes (fun y hy => (h y hy).padded (hb y hy) hnext) (.inl rfl)
        (before_cons.mpr (.inr rfl)) (before_cons.mpr hcomma)
  rw [List.cons_append, List.append_assoc, List.singleton_append, bracketed_cons, hitems, hskip,
    after_eq_some_iff]
  exact ⟨rest, rfl, rfl⟩

end

end Scan

end Dispatch
