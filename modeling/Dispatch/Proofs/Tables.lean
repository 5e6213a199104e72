import Dispatch.Table
import Dispatch.Proofs.Occurrences
import Mathlib.Data.List.Sort

/-!
# Tables with ascending names

Storing keeps the names of a table in ascending order. Such a table is known from what is looked up
in it (`Ascending.ext`), so tables that were made of two lists of entries are equal exactly if each
name has the same last entry in both: `ofList_eq_iff`.
-/

namespace Dispatch.Table

def Ascending (table : Table α) : Prop := (table.map Prod.fst).Pairwise (· < ·)

section
variable {table other : Table α} {name : String} {entry : α}

theorem ascending_cons : Ascending ((name, entry) :: table) ↔
    (∀ x ∈ table, name < x.1) ∧ Ascending table := by
  simp [Ascending]

theorem mem_put {x : String × α} (h : x ∈ put name entry table) :
    x = (name, entry) ∨ x ∈ table := by
  induction table with
  | nil => simpa [put] using h
  | cons y table ih =>
    simp only [put] at h
    split at h
    · simpa using h
    · split at h
      · exact (List.mem_cons.mp h).imp_right (List.mem_cons_of_mem _)
      · rcases List.mem_cons.mp h with rfl | h
        · exact .inr List.mem_cons_self
        · exact (ih h).imp_right (List.mem_cons_of_mem _)

theorem Ascending.put (h : Ascending table) (name : String) (entry : α) :
    Ascending (put name entry table) := by
  induction table with
  | nil => simp [Table.put, Ascending]
  | cons y table ih =>
    obtain ⟨n, old⟩ := y
    obtain ⟨hn, ht⟩ := ascending_cons.mp h
    simp only [Table.put]
    split
    · rename_i hlt
      refine ascending_cons.mpr ⟨?_, h⟩
      intro x hx
      rcases List.mem_cons.mp hx with rfl | hx
      · exact hlt
      · exact String.lt_trans hlt (hn x hx)
    · rename_i hlt
      split
      · rename_i he
        exact ascending_cons.mpr ⟨he ▸ hn, ht⟩
      · rename_i hne
        have hgt : n < name := Classical.byContradiction fun hgt =>
          hne (String.le_antisymm hgt hlt)
        refine ascending_cons.mpr ⟨?_, ih ht⟩
        intro x hx
        rcases mem_put hx with rfl | hx
        · exact hgt
        · exact hn x hx

theorem Ascending.lookup_eq_some_iff (h : Ascending table) :
    lookup table name = some entry ↔ (name, entry) ∈ table := by
  induction table with
  | nil => simp [lookup]
  | cons y table ih =>
    obtain ⟨n, old⟩ := y
    obtain ⟨hn, ht⟩ := ascending_cons.mp h
    have hcons : lookup ((n, old) :: table) name =
        if n = name then some old else lookup table name := by
      by_cases he : n = name <;> simp [lookup, he]
    rw [hcons, List.mem_cons, Prod.mk.injEq]
    split
    · rename_i he
      subst he
      have hnot : (n, entry) ∉ table := fun hm => String.lt_irrefl _ (hn _ hm)
      simp [hnot, eq_comm]
    · rename_i he
      rw [ih ht]
      exact ⟨.inr, fun hm => hm.resolve_left fun h => he h.1.symm⟩

theorem mem_of_lookup (h : lookup table name = some entry) : (name, entry) ∈ table := by
  obtain ⟨⟨n, e⟩, hfind, rfl⟩ := Option.map_eq_some_iff.mp h
  have hn : n = name := by simpa using List.find?_some hfind
  exact hn ▸ List.mem_of_find?_eq_some hfind

/-- A name has one entry at most, so the look-ups of an ascending table give all of its entries. -/
theorem Ascending.ext (h : Ascending table) (h' : Ascending other)
    (hl : ∀ name, lookup table name = lookup other name) : table = other := by
  have hpairs {t : Table α} (ht : Ascending t) : t.Pairwise fun e f => e.1 < f.1 :=
    List.pairwise_map.mp ht
  have hirrefl : Std.Irrefl fun e f : String × α => e.1 < f.1 := ⟨fun _ => String.lt_irrefl _⟩
  have hantisymm : Std.Antisymm fun e f : String × α => e.1 < f.1 :=
    ⟨fun _ _ hlt hgt => absurd (String.lt_trans hlt hgt) (String.lt_irrefl _)⟩
  refine (hpairs h).eq_of_mem_iff (hpairs h') fun e => ?_
  rw [← h.lookup_eq_some_iff, ← h'.lookup_eq_some_iff, hl]

end

-- ---------------------------------------------------------------------
-- Tables of lists
-- ---------------------------------------------------------------------

def Named (name : String) (e : String × α) : Prop := e.1 = name

section
variable {entries others : List (String × α)} {name : String} {entry : α}

theorem ofList_concat (entries : List (String × α)) (e : String × α) :
    ofList (entries ++ [e]) = put e.1 e.2 (ofList entries) := by simp [ofList]

theorem ascending_ofList (entries : List (String × α)) : Ascending (ofList entries) := by
  induction entries using List.reverseRecOn with
  | nil => simp [ofList, Ascending]
  | append_singleton entries e ih =>
    rw [ofList_concat]
    exact ih.put e.1 e.2

theorem lookup_ofList : lookup (ofList entries) name = some entry ↔
    LastWith (Named name) entries (name, entry) := by
  induction entries using List.reverseRecOn with
  | nil => simp [ofList, lookup, not_lastWith_nil]
  | append_singleton entries e ih =>
    rw [ofList_concat]
    by_cases he : Named name e
    · have hname : e.1 = name := he
      rw [hname, lookup_put_self, lastWith_concat he, Option.some.injEq, ← hname]
      simp [Prod.ext_iff, eq_comm]
    · rw [lookup_put_of_ne fun h => he h.symm, ih, lastWith_concat_of_not he]

theorem exists_lookup_ofList :
    (∃ entry, lookup (ofList entries) name = some entry) ↔ ∃ e ∈ entries, Named name e := by
  rw [← exists_lastWith]
  simp only [lookup_ofList]
  constructor
  · exact fun ⟨entry, h⟩ => ⟨_, h⟩
  · rintro ⟨⟨n, entry⟩, h⟩
    obtain rfl : n = name := h.mem.2
    exact ⟨entry, h⟩

theorem lookup_ofList_eq_none_iff :
    lookup (ofList entries) name = none ↔ ∀ e ∈ entries, ¬ Named name e := by
  have h := not_congr (@exists_lookup_ofList _ entries name)
  rw [← Option.ne_none_iff_exists'] at h
  simpa using h

theorem mem_names_ofList : name ∈ (ofList entries).map Prod.fst ↔ ∃ e ∈ entries, Named name e := by
  rw [← exists_lookup_ofList]
  simp [(ascending_ofList entries).lookup_eq_some_iff]

theorem lookup_ofList_cons (e : String × α) (entries : List (String × α)) (name : String) :
    lookup (ofList (e :: entries)) name =
      (lookup (ofList entries) name).or (if e.1 = name then some e.2 else none) := by
  refine Option.ext fun entry => ?_
  rw [lookup_ofList, lastWith_cons, ← lookup_ofList, ← lookup_ofList_eq_none_iff]
  cases lookup (ofList entries) name with
  | some => simp
  | none => by_cases he : e.1 = name <;> simp [Named, he, Prod.ext_iff, eq_comm]

theorem lookup_ofList_map (names : List String) (f : String → α) (name : String) :
    lookup (ofList (names.map fun n => (n, f n))) name =
      if name ∈ names then some (f name) else none := by
  induction names with
  | nil => rfl
  | cons n names ih =>
    rw [List.map_cons, lookup_ofList_cons, ih]
    by_cases hn : n = name
    · by_cases hm : name ∈ names <;> simp [hn, hm]
    · by_cases hm : name ∈ names <;> simp [hn, hm, Ne.symm hn]

theorem ofList_eq_iff : ofList entries = ofList others ↔
    ∀ name entry, LastWith (Named name) entries (name, entry) ↔
      LastWith (Named name) others (name, entry) := by
  simp only [← lookup_ofList]
  refine ⟨fun h name entry => by rw [h], fun h => ?_⟩
  exact (ascending_ofList entries).ext (ascending_ofList others) fun name => Option.ext (h name)

end

end Dispatch.Table
