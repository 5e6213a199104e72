import Dispatch.Proofs.Json.Numbers
import Dispatch.Signature.Json

/-!
# JSON texts read back

A tree is read back from its compact text if all its integers have 64 bits and its numbers are read
back from their own texts: `read?_compact`. Not every double is, since reading rounds more than
once; `ReadsBack` says which.
-/

namespace Dispatch.Json

section
variable {s rest : List Char} {us : List Nat} {n : Nat}

theorem hexUnit?_hexPair (h : n < 0x20) : hexUnit? (['0', '0'] ++ hexPair n) = some n := by
  have hpairs : ∀ n < 0x20, hexUnit? (['0', '0'] ++ hexPair n) = some n := by decide
  exact hpairs n h

theorem units_escape (c : Char) (h : units s = some (us, rest)) :
    units (escape c ++ s) = some (c.toNat :: us, rest) := by
  unfold escape
  split
  case h_8 hb _ _ _ _ _ =>
    split
    · rename_i hlow
      have hunit := hexUnit?_hexPair hlow
      simp only [hexPair, List.cons_append, List.nil_append] at hunit ⊢
      simp only [units, hunit, h]
    · rename_i hlow
      rw [List.singleton_append, units.eq_5]
      · simpa [hlow, h] using hb
      all_goals simp_all
  all_goals simp [units, unescape, h]

theorem units_quoted (s rest : List Char) :
    units (s.flatMap escape ++ '"' :: rest) = some (s.map Char.toNat, rest) := by
  induction s with
  | nil => rfl
  | cons c s ih =>
    rw [List.flatMap_cons, List.append_assoc, List.map_cons]
    exact units_escape c ih

theorem not_half (c : Char) : isHighHalf c.toNat = false ∧ isLowHalf c.toNat = false := by
  have hvalid : c.toNat < 0xD800 ∨ 0xDFFF < c.toNat ∧ c.toNat < 0x110000 := c.valid
  simp only [isHighHalf, isLowHalf, Bool.and_eq_false_iff, decide_eq_false_iff_not]
  omega

theorem ofUnits_toNat (s : List Char) : ofUnits (s.map Char.toNat) = some s := by
  induction s with
  | nil => rfl
  | cons c s ih =>
    cases s with
    | nil => simp [ofUnits, not_half]
    | cons d s =>
      simp only [List.map_cons] at ih ⊢
      simp [ofUnits, not_half, ih]

theorem string_takes (text : String) (next : Char → Prop) :
    Scan.Takes stringScan next (quote text) (some text) := by
  have hunits : Scan.Takes units next (text.toList.flatMap escape ++ ['"'])
      (text.toList.map Char.toNat) := by
    intro rest _
    rw [List.append_assoc, List.singleton_append, units_quoted]
  have htext : (ofUnits (text.toList.map Char.toNat)).map String.ofList = some text := by
    rw [ofUnits_toNat, Option.map_some, String.ofList_toList]
  rw [← htext]
  exact (hunits.map fun us => (ofUnits us).map String.ofList).after '"'

end

section
variable {first next : Char → Prop} {t : List Char} {j : Json} {depth : Nat}

theorem word_takes (w : List Char) (j : Json) : Scan.Takes (word w j) next w j := by
  intro rest _
  simp [word]

theorem word_of_begins {c : Char} (h : Begins first t) (hc : ¬ first c) (w : List Char) (j : Json)
    (rest : List Char) : word (c :: w) j (t ++ rest) = none := by
  obtain ⟨d, u, rfl, hd⟩ := h
  have hne : ¬ c = d := fun he => hc (he ▸ hd)
  simp [word, hne]

def plainScan : Scan Json :=
  Scan.orElse (word ['n', 'u', 'l', 'l'] .null) <|
  Scan.orElse (word ['t', 'r', 'u', 'e'] (.bool true)) <|
  Scan.orElse (word ['f', 'a', 'l', 's', 'e'] (.bool false)) numberScan

theorem valueScan_plain (h : Scan.Takes plainScan next t j) (hb : Begins first t)
    (hobject : ¬ first '{') (harray : ¬ first '[') (hstring : ¬ first '"') :
    Scan.Takes (valueScan (depth + 1)) next t j :=
  ((h.second (Scan.map_after_of_begins hb hstring _ _)).second
    (Scan.map_after_of_begins hb harray _ _)).second (Scan.map_after_of_begins hb hobject _ _)

theorem valueScan_null : Scan.Takes (valueScan (depth + 1)) next ['n', 'u', 'l', 'l'] .null := by
  have hb : Begins (· = 'n') ['n', 'u', 'l', 'l'] := ⟨'n', _, rfl, rfl⟩
  exact valueScan_plain (word_takes _ _).first hb (by decide) (by decide) (by decide)

theorem valueScan_true :
    Scan.Takes (valueScan (depth + 1)) next ['t', 'r', 'u', 'e'] (.bool true) := by
  have hb : Begins (· = 't') ['t', 'r', 'u', 'e'] := ⟨'t', _, rfl, rfl⟩
  have hnull := word_of_begins hb (c := 'n') (by decide) ['u', 'l', 'l'] .null
  exact valueScan_plain ((word_takes _ _).first.second hnull) hb (by decide) (by decide)
    (by decide)

theorem valueScan_false :
    Scan.Takes (valueScan (depth + 1)) next ['f', 'a', 'l', 's', 'e'] (.bool false) := by
  have hb : Begins (· = 'f') ['f', 'a', 'l', 's', 'e'] := ⟨'f', _, rfl, rfl⟩
  have hnull := word_of_begins hb (c := 'n') (by decide) ['u', 'l', 'l'] .null
  have htrue := word_of_begins hb (c := 't') (by decide) ['r', 'u', 'e'] (.bool true)
  exact valueScan_plain (((word_takes _ _).first.second htrue).second hnull) hb (by decide)
    (by decide) (by decide)

theorem valueScan_number (h : Number t j) : Scan.Takes (valueScan (depth + 1)) IsBehind t j := by
  have hb := number_begins h
  have hnull := word_of_begins hb (c := 'n') (by decide) ['u', 'l', 'l'] .null
  have htrue := word_of_begins hb (c := 't') (by decide) ['r', 'u', 'e'] (.bool true)
  have hfalse := word_of_begins hb (c := 'f') (by decide) ['a', 'l', 's', 'e'] (.bool false)
  exact valueScan_plain ((((number_takes h).second hfalse).second htrue).second hnull) hb
    (by decide) (by decide) (by decide)

theorem valueScan_string (text : String) :
    Scan.Takes (valueScan (depth + 1)) next (quote text) (.string text) := by
  have hb : Begins (· = '"') (quote text) := ⟨'"', _, rfl, rfl⟩
  exact (((string_takes text next).map ofString).first.second
    (Scan.map_after_of_begins hb (by decide) _ _)).second
    (Scan.map_after_of_begins hb (by decide) _ _)

end

-- ---------------------------------------------------------------------
-- Arrays and objects
-- ---------------------------------------------------------------------

section
variable {next : Char → Prop} {depth : Nat}

theorem compactElements_eq (elements : List Json) :
    compactElements elements = elements.map compact := by
  induction elements with
  | nil => rfl
  | cons j rest ih => rw [compactElements, ih, List.map_cons]

def compactField (field : String × Json) : List Char := quote field.1 ++ ':' :: compact field.2

theorem compactFields_eq (fields : List (String × Json)) :
    compactFields fields = fields.map compactField := by
  induction fields with
  | nil => rfl
  | cons field rest ih => rw [compactFields, ih, List.map_cons, compactField]

theorem mapM_named {f : Option String × Json → Option (String × Json)}
    (hf : ∀ name j, f (some name, j) = some (name, j)) (fields : List (String × Json)) :
    (fields.map fun field => (some field.1, field.2)).mapM f = some fields := by
  induction fields with
  | nil => rfl
  | cons field rest ih => simp [List.mapM_cons, hf, ih]

theorem ofFields_map (fields : List (String × Json)) :
    ofFields (fields.map fun field => (some field.1, field.2)) = .object fields := by
  rw [ofFields, mapM_named fun _ _ => rfl]

theorem valueScan_closing (depth : Nat) (rest : List Char) :
    valueScan depth (']' :: rest) = none := by
  cases depth <;> rfl

theorem valueScan_array {elements : List Json}
    (h : ∀ j ∈ elements, Scan.Takes (valueScan depth) IsBehind j.compact j)
    (hb : ∀ j ∈ elements, Begins (¬ IsSpace ·) j.compact) :
    Scan.Takes (valueScan (depth + 1)) next (array elements).compact (.array elements) := by
  have hbehind : ∀ c, c = ',' ∨ c = ']' → IsBehind c := by
    rintro c (rfl | rfl) <;> decide
  have hitems : Scan.Takes (Scan.bracketed '[' ']' (valueScan depth)) next
      ('[' :: (Text.joined [','] (elements.map compact) ++ [']'])) (elements.map id) :=
    Scan.bracketed_takes '[' id (fun j hj => (h j hj).mono hbehind) hb (valueScan_closing depth)
      (by decide) (by decide)
  rw [List.map_id] at hitems
  rw [compact, compactElements_eq]
  have hbegins : Begins (· = '[') ('[' :: (Text.joined [','] (elements.map compact) ++ [']'])) :=
    ⟨'[', _, rfl, rfl⟩
  exact (hitems.map Json.array).first.second (Scan.map_after_of_begins hbegins (by decide) _ _)

theorem fieldScan_takes {field : String × Json}
    (h : Scan.Takes (valueScan depth) next field.2.compact field.2)
    (hb : Begins (¬ IsSpace ·) field.2.compact) :
    Scan.Takes (fieldScan (valueScan depth)) next (compactField field)
      (some field.1, field.2) := by
  intro rest hr
  have hname := string_takes field.1 (fun _ => True) (':' :: (field.2.compact ++ rest))
    (before_cons.mpr trivial)
  have hskip : Scan.skip (':' :: (field.2.compact ++ rest)) = ':' :: (field.2.compact ++ rest) :=
    Scan.skip_run space_nil (before_cons.mpr (by decide))
  have hvalue := (((h.spaced hb).map fun j => (some field.1, j)).after ':') rest hr
  rw [compactField, List.append_assoc, List.cons_append, fieldScan, hname]
  simp only [hskip]
  exact hvalue

theorem valueScan_object {fields : List (String × Json)}
    (h : ∀ field ∈ fields, Scan.Takes (valueScan depth) IsBehind field.2.compact field.2)
    (hb : ∀ field ∈ fields, Begins (¬ IsSpace ·) field.2.compact) :
    Scan.Takes (valueScan (depth + 1)) next (object fields).compact (.object fields) := by
  have hbehind : ∀ c, c = ',' ∨ c = '}' → IsBehind c := by
    rintro c (rfl | rfl) <;> decide
  have hitems : Scan.Takes (Scan.bracketed '{' '}' (fieldScan (valueScan depth))) next
      ('{' :: (Text.joined [','] (fields.map compactField) ++ ['}']))
      (fields.map fun field => (some field.1, field.2)) :=
    Scan.bracketed_takes '{' _
      (fun field hfield => fieldScan_takes ((h field hfield).mono hbehind) (hb field hfield))
      (fun field _ => ⟨'"', _, rfl, by decide⟩) (fun rest => rfl) (by decide) (by decide)
  rw [compact, compactFields_eq, ← ofFields_map fields]
  exact (hitems.map ofFields).first

end

-- ---------------------------------------------------------------------
-- Trees
-- ---------------------------------------------------------------------

def ReadsBack (x : Double) : Prop := (read? (number x)).bind double? = some x

instance (x : Double) : Decidable (ReadsBack x) := inferInstanceAs (Decidable (_ = _))

/-- Every integer in the tree has 64 bits, and every number is read back. -/
inductive Faithful : Json → Prop
  | null : Faithful .null
  | bool (b : Bool) : Faithful (.bool b)
  | integer : Int64.minValue.toInt ≤ i → i < UInt64.size → Faithful (.integer i)
  | real : ReadsBack x → Faithful (.real x)
  | string (text : String) : Faithful (.string text)
  | array : (∀ j ∈ elements, Faithful j) → Faithful (.array elements)
  | object : (∀ field ∈ fields, Faithful field.2) → Faithful (.object fields)

section
variable {next : Char → Prop} {t : List Char} {x : Double} {j : Json} {depth : Nat}

theorem read?_of_takes (h : Scan.Takes (valueScan (t.length + 1)) next t j)
    (hb : Begins (¬ IsSpace ·) t) : read? t = some j := by
  have hskip : Scan.skip t = t := by
    simpa using Scan.skip_run space_nil (hb.before [])
  have hnil : Scan.skip [] = [] := rfl
  simp only [read?, Scan.padded, hskip, h.whole, Option.map_some, hnil]

theorem IsLead.not_space {c : Char} (h : IsLead c) : ¬ IsSpace c := by
  rintro (rfl | rfl | rfl | rfl) <;> exact absurd h (by decide)

theorem read?_number (h : Number t j) : read? t = some j :=
  read?_of_takes (valueScan_number h) ((number_begins h).mono fun _ h => h.not_space)

theorem readsBack_iff : ReadsBack x ↔ Number (number x) (.real x) := by
  constructor
  · intro h
    cases x with
    | nan => cases h
    | infinite negative => cases h
    | finite negative rank =>
      obtain ⟨y, hy⟩ := exists_number negative rank
      rw [ReadsBack, read?_number hy, Option.bind_some, double?] at h
      split at h
      · cases h
        exact hy
      · cases h
  · intro h
    obtain ⟨c, u, htext, hc⟩ := number_begins h
    cases x with
    | finite negative rank =>
      rw [ReadsBack, read?_number h]
      rfl
    | _ =>
      cases htext
      exact absurd hc (by decide)

theorem compact_begins (h : Faithful j) : Begins (¬ IsSpace ·) j.compact := by
  cases h with
  | null => exact ⟨'n', _, rfl, by decide⟩
  | bool b => cases b <;> exact ⟨_, _, rfl, by decide⟩
  | integer hi hi' => exact (number_begins (number_integer hi hi')).mono fun c h => h.not_space
  | real hx => exact (number_begins (readsBack_iff.mp hx)).mono fun c h => h.not_space
  | string text => exact ⟨'"', _, rfl, by decide⟩
  | array => exact ⟨'[', _, rfl, by decide⟩
  | object => exact ⟨'{', _, rfl, by decide⟩

/-- By induction on the tree: what is in brackets is shorter than the text around it. -/
theorem valueScan_compact (h : Faithful j) (hd : j.compact.length ≤ depth) :
    Scan.Takes (valueScan (depth + 1)) IsBehind j.compact j := by
  induction h generalizing depth with
  | null => exact valueScan_null
  | bool b =>
    cases b with
    | true => exact valueScan_true
    | false => exact valueScan_false
  | integer hi hi' => exact valueScan_number (number_integer hi hi')
  | real hx => exact valueScan_number (readsBack_iff.mp hx)
  | string text => exact valueScan_string text
  | array h ih =>
    refine valueScan_array (fun j hj => ?_) fun j hj => compact_begins (h j hj)
    have hlength := Text.length_le_joined (List.mem_map_of_mem (f := compact) hj) [',']
    simp only [compact, compactElements_eq, List.length_cons, List.length_append] at hd
    obtain ⟨n, rfl⟩ : ∃ n, depth = n + 1 := Nat.exists_eq_add_one.mpr (by omega)
    exact ih j hj (by omega)
  | object h ih =>
    refine valueScan_object (fun f hf => ?_) fun f hf => compact_begins (h f hf)
    have hlength := Text.length_le_joined (List.mem_map_of_mem (f := compactField) hf) [',']
    simp only [compact, compactFields_eq, List.length_cons, List.length_append] at hd
    simp only [compactField, List.length_cons, List.length_append] at hlength
    obtain ⟨n, rfl⟩ : ∃ n, depth = n + 1 := Nat.exists_eq_add_one.mpr (by omega)
    exact ih f hf (by omega)

theorem read?_compact (h : Faithful j) : read? j.compact = some j :=
  read?_of_takes (valueScan_compact h (Nat.le_refl _)) (compact_begins h)

end

end Dispatch.Json
