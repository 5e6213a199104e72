import Dispatch.Proofs.Pairs
import Dispatch.Proofs.Keys
import Dispatch.Proofs.Tables

/-!
# Hashes as JSON

In JSON the keys of a hash are told apart by their texts, and of the pairs whose keys have one text
the last one counts. Different keys may have one text, as a symbol and a string may, and equal keys
may have two, as the zeros do. Where keys are equal exactly if their texts are, the JSON of a hash
is what looking up in it finds, and collecting the pairs first does not change it:
`hash_toJson_keeps_last_texts`.
-/

namespace Dispatch

theorem Pairs.lookup_eq_some_iff_lastWith {ps : Pairs} {key v : Value} :
    lookup ps key = some v ↔ ∃ k, LastWith (fun e => (e.1 == key) = true) ps (k, v) := by
  rw [lookup_eq_some_iff]
  constructor
  · rintro ⟨before, k, after, h⟩
    exact ⟨k, before, after, h⟩
  · rintro ⟨k, before, after, h⟩
    exact ⟨before, k, after, h⟩

namespace Value

def Texted (text : String) (e : Value × Value) : Prop := e.1.keyText = text

/-- The fields of a hash: the texts of its keys, each with the last value under it. -/
structure Fields (ps : Pairs) (fields : Table Json) : Prop where
  ascending : fields.Ascending
  names (text : String) : text ∈ fields.map Prod.fst ↔ ∃ e ∈ ps, Texted text e
  last (text : String) (j : Json) : Table.lookup fields text = some j ↔
    ∃ e, LastWith (Texted text) ps e ∧ e.2.toJson = j

theorem fieldsOf_eq_map (ps : Pairs) :
    fieldsOf ps = ps.map fun e => (e.1.keyText, e.2.toJson) := by
  induction ps with
  | nil => rfl
  | cons e ps ih => rw [fieldsOf, ih, List.map_cons]

theorem fields_ofList (ps : Pairs) : Fields ps (Table.ofList (fieldsOf ps)) where
  ascending := Table.ascending_ofList _
  names text := by simp [Table.mem_names_ofList, fieldsOf_eq_map, Table.Named, Texted]
  last text j := by
    rw [Table.lookup_ofList, fieldsOf_eq_map, lastWith_map]
    refine exists_congr fun e => and_congr_right fun he => ?_
    have htext : e.1.keyText = text := he.mem.2
    simp [htext]

/-- Two keys are equal exactly if their texts are. A key with a NaN in it does not agree with
itself. -/
def KeysAgree (ps : Pairs) : Prop :=
  ∀ e ∈ ps, ∀ f ∈ ps, (e.1 == f.1) = true ↔ e.1.keyText = f.1.keyText

instance (ps : Pairs) : Decidable (KeysAgree ps) :=
  inferInstanceAs (Decidable (∀ e ∈ ps, ∀ f ∈ ps, _ ↔ _))

section
variable {ps : Pairs} {e : Value × Value}

theorem KeysAgree.lookup_fields (h : KeysAgree ps) (he : e ∈ ps) :
    Table.lookup (Table.ofList (fieldsOf ps)) e.1.keyText = (Pairs.lookup ps e.1).map toJson := by
  refine Option.ext fun j => ?_
  rw [(fields_ofList ps).last, Option.map_eq_some_iff]
  simp only [Pairs.lookup_eq_some_iff_lastWith,
    lastWith_congr (P := fun f => (f.1 == e.1) = true) (Q := Texted e.1.keyText)
      fun f hf => h f hf e he]
  constructor
  · rintro ⟨⟨k, v⟩, hlast, rfl⟩
    exact ⟨v, ⟨k, hlast⟩, rfl⟩
  · rintro ⟨v, ⟨k, hlast⟩, rfl⟩
    exact ⟨(k, v), hlast, rfl⟩

theorem KeysAgree.exists_lookup (h : KeysAgree ps) (he : e ∈ ps) :
    ∃ v, Pairs.lookup ps e.1 = some v := by
  rw [← Option.ne_none_iff_exists', Ne, Pairs.lookup_eq_none_iff]
  exact fun hn => hn e he ((h e he e he).mpr rfl)

theorem exists_key_of_mem_collect (he : e ∈ Pairs.collect ps) : ∃ v, (e.1, v) ∈ ps :=
  ((Pairs.merged_collect ps).exists_of_mem he).1

theorem KeysAgree.collect (h : KeysAgree ps) : KeysAgree (Pairs.collect ps) := by
  intro e he f hf
  obtain ⟨v, hv⟩ := exists_key_of_mem_collect he
  obtain ⟨w, hw⟩ := exists_key_of_mem_collect hf
  exact h (e.1, v) hv (f.1, w) hw

theorem KeysAgree.exists_texted (h : KeysAgree ps) {text : String} (he : e ∈ ps)
    (ht : Texted text e) : ∃ f ∈ Pairs.collect ps, Texted text f := by
  obtain ⟨v, hv⟩ := h.exists_lookup he
  rw [← Pairs.lookup_collect, (Pairs.distinct_collect ps).lookup_eq_some_iff] at hv
  obtain ⟨k, hm, hk⟩ := hv
  obtain ⟨w, hw⟩ := exists_key_of_mem_collect hm
  exact ⟨(k, v), hm, ((h _ hw e he).mp hk).trans ht⟩

/-- The fields are the same whether the pairs are collected first or not. A text that is left has
its key from the pairs, and looking up the key finds the same in both. -/
theorem KeysAgree.toJson_collect (h : KeysAgree ps) :
    (Value.collect ps).toJson = (hash ps).toJson := by
  have hfields : Table.ofList (fieldsOf (Pairs.collect ps)) = Table.ofList (fieldsOf ps) := by
    refine (Table.ascending_ofList _).ext (Table.ascending_ofList _) fun text => ?_
    by_cases hm : ∃ f ∈ Pairs.collect ps, Texted text f
    · obtain ⟨f, hf, rfl⟩ := hm
      obtain ⟨v, hv⟩ := exists_key_of_mem_collect hf
      rw [h.collect.lookup_fields hf, Pairs.lookup_collect, ← h.lookup_fields hv]
    · have hnone {qs : Pairs} (hq : ¬ ∃ e ∈ qs, Texted text e) :
          Table.lookup (Table.ofList (fieldsOf qs)) text = none := by
        rw [Option.eq_none_iff_forall_ne_some]
        intro j hj
        obtain ⟨e, he, -⟩ := ((fields_ofList qs).last text j).mp hj
        exact hq ⟨e, he.mem⟩
      rw [hnone hm, hnone]
      rintro ⟨e, he, ht⟩
      exact hm (h.exists_texted he ht)
  rw [Value.collect, toJson, toJson, Json.sorted, Json.sorted, hfields]

end

/-- The JSON of a hash has the texts of the keys as its names, each with the JSON of the last value
under that text. Where keys are equal exactly if their texts are, it is the JSON of the collected
pairs, and each field has the JSON of what looking up its key finds. -/
theorem hash_toJson_keeps_last_texts (ps : Pairs) :
    (∃ fields, (hash ps).toJson = .object fields ∧ Fields ps fields) ∧
    (KeysAgree ps → (hash ps).toJson = (Value.collect ps).toJson ∧
      ∀ e ∈ ps, ∃ v, (hash ps).get? e.1 = some v ∧
        (hash ps).toJson.field? e.1.keyText = some v.toJson) := by
  refine ⟨⟨_, by rw [toJson, Json.sorted], fields_ofList ps⟩, fun h => ?_⟩
  refine ⟨h.toJson_collect.symm, fun e he => ?_⟩
  obtain ⟨v, hv⟩ := h.exists_lookup he
  refine ⟨v, hv, ?_⟩
  rw [toJson, Json.sorted, Json.field?, h.lookup_fields he, hv, Option.map_some]

/-- A symbol stands for its last value also where a nested key stands between its pairs. With a
string of the same text among them, collecting changes which pair is the last. -/
theorem hash_toJson_nested :
    let nested : Value := .hash [(.symbol "b", .nil), (.string "b", .boolean true)]
    let ps : Pairs := [(.symbol "a", .integer 1), (nested, .nil), (.symbol "a", nested)]
    let qs : Pairs := [(.symbol "a", .integer 1), (.string "a", .nil), (.symbol "a", nested)]
    KeysAgree ps ∧ (hash ps).toJson = (Value.collect ps).toJson ∧
      (∃ v, (hash ps).get? (.symbol "a") = some v ∧
        (hash ps).toJson.field? "a" = some v.toJson) ∧
      ¬ KeysAgree qs ∧ (hash qs).toJson.field? "a" = some nested.toJson ∧
      (Value.collect qs).toJson.field? "a" = some .null := by
  intro nested ps qs
  have h : KeysAgree ps := by decide
  obtain ⟨hcollect, hfield⟩ := (hash_toJson_keeps_last_texts ps).2 h
  exact ⟨h, hcollect, hfield (.symbol "a", .integer 1) (by simp [ps]), by decide, rfl, rfl⟩

end Value

end Dispatch
