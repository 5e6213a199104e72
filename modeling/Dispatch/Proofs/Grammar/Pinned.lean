import Dispatch.Text.Basic
import Dispatch.Proofs.Grammar.Items
import Mathlib.Data.List.Forall2

/-!
# Pinned texts

A text is pinned in a form if, wherever it stands in front of an end that may follow, whatever is
read there in the form is the text itself. What it is read as is known as far as its value, which
need not be the one that the text was made from; a text that nothing can be read from is pinned,
too. The parts of a text are pinned one after the other, each by what stands behind it, so a list
in brackets is read item by item from the items it was joined from: `bracketed_pins`.
-/

namespace Dispatch

def Begins (first : Char → Prop) (t : List Char) : Prop := ∃ c u, t = c :: u ∧ first c

theorem Begins.append (h : Begins first t) (u : List Char) : Begins first (t ++ u) := by
  obtain ⟨c, t, rfl, hc⟩ := h
  exact ⟨c, t ++ u, rfl, hc⟩

theorem Begins.before (h : Begins first t) (u : List Char) : Before first (t ++ u) := by
  obtain ⟨c, t, rfl, hc⟩ := h
  exact before_cons.mpr hc

theorem Begins.mono (h : Begins p t) (hpq : ∀ c, p c → q c) : Begins q t := by
  obtain ⟨c, u, rfl, hc⟩ := h
  exact ⟨c, u, rfl, hpq c hc⟩

theorem Begins.meet (h : Begins p t) (h' : Begins q u) (heq : t ++ r = u ++ s) :
    ∃ c, p c ∧ q c := by
  obtain ⟨c, t, rfl, hc⟩ := h
  obtain ⟨d, u, rfl, hd⟩ := h'
  obtain ⟨rfl, -⟩ := List.cons.inj heq
  exact ⟨c, hc, hd⟩

theorem Form.Starts.begins {form : Form α} (hf : form.Starts first) (h : form t x) :
    Begins first t := hf t x h

/-- A run of characters of one kind ends where another run in its place does. -/
theorem run_append_inj {p : Char → Prop} {t u r s : List Char} (ht : ∀ c ∈ t, p c)
    (hu : ∀ c ∈ u, p c) (hr : Before (¬ p ·) r) (hs : Before (¬ p ·) s) (h : t ++ r = u ++ s) :
    t = u ∧ r = s := by
  induction t generalizing u with
  | nil =>
    cases u with
    | nil => exact ⟨rfl, h⟩
    | cons d u =>
      rw [List.nil_append] at h
      exact absurd (hu d (by simp)) (before_cons.mp (h ▸ hr))
  | cons c t ih =>
    cases u with
    | nil =>
      rw [List.nil_append] at h
      exact absurd (ht c (by simp)) (before_cons.mp (h ▸ hs))
    | cons d u =>
      obtain ⟨rfl, hrest⟩ := List.cons.inj h
      obtain ⟨rfl, hrs⟩ := ih (fun x hx => ht x (List.mem_cons_of_mem _ hx))
        (fun x hx => hu x (List.mem_cons_of_mem _ hx)) hrest
      exact ⟨rfl, hrs⟩

theorem space_blank : Space [' '] := by simp [Space, IsSpace]

theorem space_append_inj (ha : Space a) (hb : Space b) (hs : Before (¬ IsSpace ·) s)
    (ht : Before (¬ IsSpace ·) t) (h : a ++ s = b ++ t) : a = b ∧ s = t :=
  run_append_inj ha hb hs ht h

namespace Form

/-- Where the text stands in front of an end, only the text itself is of the form, and it has such
values only. -/
def Pins (form : Form α) (next : Char → Prop) (text : List Char) (values : α → Prop) : Prop :=
  ∀ t x r s, form t x → t ++ r = text ++ s → Before next r → Before next s →
    t = text ∧ values x

variable {α β : Type} {form : Form α} {first next next' stop : Char → Prop} {text : List Char}
  {values : α → Prop}

theorem Pins.mono {values' : α → Prop} (h : form.Pins next text values)
    (hv : ∀ x, values x → values' x) : form.Pins next text values' := by
  intro t x r s ht heq hr hs
  exact (h t x r s ht heq hr hs).imp_right (hv x)

theorem pins_of_reads (hr : ∀ size, ∃ scan : Scan α, scan.Reads size form next)
    (h : form text x) : form.Pins next text (· = x) := by
  intro t y r s ht heq hnr hns
  obtain ⟨scan, hscan⟩ := hr (max t.length text.length)
  have ht := hscan.complete t y r ht (Nat.le_max_left _ _) hnr
  have htext := hscan.complete text x s h (Nat.le_max_right _ _) hns
  rw [heq, htext] at ht
  cases ht
  exact ⟨List.append_cancel_right heq, rfl⟩

theorem padded_of_space (ha : Space a) (h : form t x) : form.Padded (a ++ t) x := by
  have hpadded := Padded.intro ha h space_nil
  rwa [List.append_nil] at hpadded

theorem Pins.spaced (hp : form.Pins next text values) (hf : form.Starts first)
    (ht : Begins first text) (hfirst : ∀ c, first c → ¬ IsSpace c) (ha : Space a) :
    form.Spaced.Pins next (a ++ text) values := by
  intro _ x r s h heq hr hs
  obtain @⟨b, t, _, hb, h⟩ := h
  rw [List.append_assoc, List.append_assoc] at heq
  obtain ⟨rfl, hrest⟩ := space_append_inj hb ha (((hf.begins h).before _).mono hfirst)
    ((ht.before _).mono hfirst) heq
  obtain ⟨rfl, hx⟩ := hp t x r s h hrest hr hs
  exact ⟨rfl, hx⟩

theorem Pins.padded (hp : form.Pins next text values) (hf : form.Starts first)
    (ht : Begins first text) (hfirst : ∀ c, first c → ¬ IsSpace c)
    (hspace : ∀ c, IsSpace c → next c) (hnext : ∀ c, next' c → next c ∧ ¬ IsSpace c)
    (ha : Space a) :
    form.Padded.Pins next' (a ++ text) values := by
  intro _ x r s h heq hr hs
  obtain @⟨b, t, _, d, hb, h, hd⟩ := h
  have hbehind : Before next (d ++ r) :=
    before_append (fun c hc => hspace c (hd c hc)) (hr.mono fun c h => (hnext c h).1)
  have hspaced := hp.spaced hf ht hfirst ha
  rw [List.append_assoc, List.append_assoc, ← List.append_assoc b] at heq
  obtain ⟨htext, hx⟩ := hspaced (b ++ t) x (d ++ r) s (.intro hb h) heq hbehind
    (hs.mono fun c h => (hnext c h).1)
  rw [htext, List.append_cancel_left_eq] at heq
  -- what follows the text is no space, so none of it was read
  obtain ⟨rfl, -⟩ := space_append_inj hd space_nil (hr.mono fun c h => (hnext c h).2)
    (hs.mono fun c h => (hnext c h).2) heq
  rw [List.append_nil]
  exact ⟨htext, hx⟩

section
variable {item : β → List Char} {same : β → α → Prop} {ys : List β}

theorem commas_listed (hys : ys ≠ []) (h : List.Forall₂ (fun y x => form (item y) x) ys xs)
    (ha : Space a) : form.Padded.Commas (a ++ Text.listed (ys.map item)) xs := by
  induction h generalizing a with
  | nil => exact absurd rfl hys
  | @cons y x ys xs hy hrest ih =>
    cases ys with
    | nil =>
      cases hrest
      exact .one (padded_of_space ha hy)
    | cons y' ys =>
      have htail := Commas.more (padded_of_space ha hy) (ih (by simp) space_blank)
      simpa [Text.listed, Text.joined_cons] using htail

theorem bracketed_listed (opening closing : Char)
    (h : List.Forall₂ (fun y x => form (item y) x) ys xs) :
    form.Bracketed opening closing (opening :: (Text.listed (ys.map item) ++ [closing])) xs := by
  cases ys with
  | nil =>
    cases h
    exact .empty space_nil
  | cons y ys => exact .items (commas_listed (by simp) h space_nil) space_nil

theorem commas_pins (hys : ys ≠ [])
    (hp : ∀ y ∈ ys, ∀ a, Space a → form.Padded.Pins next (a ++ item y) (same y))
    (hcomma : next ',') (hstop : ∀ c, stop c → next c ∧ c ≠ ',') (ha : Space a) :
    form.Padded.Commas.Pins stop (a ++ Text.listed (ys.map item)) (List.Forall₂ same ys) := by
  intro t xs r s ht heq hr hs
  have hnext : ∀ u, Before stop u → Before next u ∧ Before (· ≠ ',') u :=
    fun u hu => ⟨hu.mono fun c h => (hstop c h).1, hu.mono fun c h => (hstop c h).2⟩
  have hcomma : ∀ u, Before next (',' :: u) := fun u => before_cons.mpr hcomma
  induction ys generalizing t xs a with
  | nil => exact absurd rfl hys
  | cons y ys ih =>
    have hy := hp y (by simp) a ha
    cases ys with
    | nil =>
      cases ht with
      | one ht =>
        obtain ⟨rfl, hx⟩ := hy t _ r s ht heq (hnext r hr).1 (hnext s hs).1
        exact ⟨rfl, .cons hx .nil⟩
      | @more t _ u _ ht hu =>
        rw [List.append_assoc, List.cons_append] at heq
        obtain ⟨rfl, -⟩ := hy t _ _ s ht heq (hcomma _) (hnext s hs).1
        rw [List.map_singleton, Text.listed, Text.joined_singleton,
          List.append_cancel_left_eq] at heq
        exact absurd rfl (before_cons.mp (heq ▸ (hnext s hs).2))
    | cons y' ys =>
      have htext : a ++ Text.listed ((y :: y' :: ys).map item) ++ s =
          a ++ item y ++ ',' :: ([' '] ++ Text.listed ((y' :: ys).map item) ++ s) := by
        simp [Text.listed, Text.joined_cons]
      rw [htext] at heq
      cases ht with
      | one ht =>
        obtain ⟨rfl, -⟩ := hy t _ r _ ht heq (hnext r hr).1 (hcomma _)
        rw [List.append_cancel_left_eq] at heq
        exact absurd rfl (before_cons.mp (heq ▸ (hnext r hr).2))
      | @more t _ u _ ht hu =>
        rw [List.append_assoc, List.cons_append] at heq
        obtain ⟨rfl, hx⟩ := hy t _ _ _ ht heq (hcomma _) (hcomma _)
        rw [List.append_cancel_left_eq, List.cons_inj_right] at heq
        obtain ⟨rfl, hxs⟩ := ih (by simp) (fun y hy => hp y (by simp [hy]))
          space_blank u _ hu heq
        exact ⟨by simp [Text.listed, Text.joined_cons], .cons hx hxs⟩

theorem commas_begins (hf : form.Starts first) (h : form.Padded.Commas t xs) :
    ∃ a u, Space a ∧ t = a ++ u ∧ Begins first u := by
  have hpadded : ∀ {t x}, form.Padded t x → ∀ u, ∃ a v, Space a ∧ t ++ u = a ++ v ∧
      Begins first v := by
    rintro _ x ⟨ha, ht, -⟩ u
    exact ⟨_, _, ha, List.append_assoc _ _ _, (Begins.append (hf _ _ ht) _).append u⟩
  cases h with
  | one ht => simpa using hpadded ht []
  | more ht _ => exact hpadded ht _

theorem listed_begins {y : β} (hy : Begins first (item y)) :
    Begins first (Text.listed ((y :: ys).map item)) := by
  cases ys with
  | nil => exact hy
  | cons y' ys => simpa [Text.listed, Text.joined_cons] using hy.append _

theorem closing_ne {closing : Char} (hc : ¬ IsSpace closing) (ha : Space a) (hb : Space b)
    (hu : Begins (fun c => ¬ IsSpace c ∧ c ≠ closing) u) (s v : List Char) :
    a ++ closing :: s ≠ b ++ (u ++ v) := by
  intro h
  have hspace : Before (¬ IsSpace ·) (u ++ v) := (hu.mono fun _ h => h.1).before v
  obtain ⟨-, he⟩ := space_append_inj ha hb (before_cons.mpr hc) hspace h
  exact (before_cons.mp (he ▸ hu.before v)).2 rfl

/-- If items are fine once they are the same as what was read, and all are, then all are fine. -/
theorem forall_of_same {same : α → β → Prop} {fine : β → Prop} {xs : List α}
    (h : List.Forall₂ (fun y x => same x y → fine y) ys xs) (hs : List.Forall₂ same xs ys) :
    ∀ y ∈ ys, fine y := by
  induction h with
  | nil => simp
  | cons h _ ih =>
    cases hs with
    | cons hxy hs => simpa using ⟨h hxy, ih hs⟩

/-- Items joined by commas in brackets are read item by item, whatever stands behind the closing
bracket. -/
theorem bracketed_pins {opening closing : Char}
    (hp : ∀ y ∈ ys, ∀ a, Space a →
      form.Padded.Pins (fun c => c = ',' ∨ c = closing) (a ++ item y) (same y))
    (hf : form.Starts first) (hitem : ∀ y ∈ ys, Begins first (item y))
    (hfirst : ∀ c, first c → ¬ IsSpace c ∧ c ≠ closing) (hc : ¬ IsSpace closing)
    (hcomma : closing ≠ ',') :
    (form.Bracketed opening closing).Pins (fun _ => True)
      (opening :: (Text.listed (ys.map item) ++ [closing])) (List.Forall₂ same ys) := by
  intro t xs r s ht heq _ _
  have hclosing : ∀ u, Before (¬ IsSpace ·) (closing :: u) := fun u => before_cons.mpr hc
  cases ys with
  | nil =>
    cases ht with
    | empty ha =>
      simp only [List.cons_append, List.append_assoc, List.cons_inj_right] at heq
      obtain ⟨rfl, -⟩ := space_append_inj ha space_nil (hclosing r) (hclosing s) heq
      exact ⟨rfl, .nil⟩
    | items ht _ =>
      obtain ⟨b, u, hb, rfl, hu⟩ := commas_begins hf ht
      simp only [List.cons_append, List.append_assoc, List.cons_inj_right] at heq
      exact absurd heq.symm (closing_ne hc space_nil hb (hu.mono hfirst) _ _)
  | cons y ys =>
    cases ht with
    | empty ha =>
      simp only [List.cons_append, List.append_assoc, List.cons_inj_right] at heq
      have hlisted : Begins first (Text.listed ((y :: ys).map item)) :=
        listed_begins (hitem y (by simp))
      exact absurd heq (closing_ne hc ha space_nil (hlisted.mono hfirst) _ _)
    | items ht ha =>
      -- the space in front of the closing bracket counts to the last item
      have hstop : ∀ c, c = closing → (c = ',' ∨ c = closing) ∧ c ≠ ',' := by
        rintro c rfl
        exact ⟨.inr rfl, hcomma⟩
      have hpins := commas_pins (List.cons_ne_nil y ys) hp (.inl rfl) hstop space_nil
      simp only [List.cons_append, List.append_assoc, List.cons_inj_right] at heq
      obtain ⟨htext, hxs⟩ := hpins _ xs _ (closing :: s) (Scan.commas_append_space ht ha)
        (by rw [List.append_assoc]; exact heq) (before_cons.mpr rfl) (before_cons.mpr rfl)
      rw [← List.append_assoc, htext]
      exact ⟨rfl, hxs⟩

end

end Form

end Dispatch
