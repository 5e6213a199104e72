import Dispatch.Call.Perform
import Dispatch.Proofs.Object.Runs
import Dispatch.Proofs.Tables

/-!
# Objects as JSON

The JSON of an object has its attributes as fields, and one more for the name of its class. Only an
attribute of just that name hides the class: `object_toJson_tells_attributes`.
-/

namespace Dispatch.Object

open Operation

structure Tells (c : Class) (o : Object) (fields : Table Json) : Prop where
  ascending : fields.Ascending
  names (n : String) : n ∈ fields.map Prod.fst ↔ n = "class" ∨ n ∈ c.attributes
  holds (a : String) : a ∈ c.attributes →
    ∃ v, o.get a = .ok v ∧ Table.lookup fields a = some v.toJson
  className : Table.lookup fields "class" = some (.string c.name) ↔
    "class" ∉ c.attributes ∨ ∃ v, o.get "class" = .ok v ∧ v.toJson = .string c.name

def entries (o : Object) : List (String × Json) :=
  ("class", .string o.cls.name) :: o.cls.attributes.map fun a => (a, (o.stored a).toJson)

section
variable {c : Class} {o : Object} {attr : String}

theorem toJson_eq (o : Object) : (Outcome.object o).toJson = .object (Table.ofList o.entries) := by
  have hattributes : (o.cls.attributes.map fun a =>
      (a, ((o.get a).toOption.getD .nil).toJson)) =
      o.cls.attributes.map fun a => (a, (o.stored a).toJson) :=
    List.map_congr_left fun a ha => by rw [get_of_mem ha]; rfl
  rw [Outcome.toJson, hattributes]
  rfl

theorem lookup_entries (o : Object) (name : String) :
    Table.lookup (Table.ofList o.entries) name =
      (if name ∈ o.cls.attributes then some (o.stored name).toJson else none).or
        (if "class" = name then some (.string o.cls.name) else none) := by
  rw [entries, Table.lookup_ofList_cons, Table.lookup_ofList_map]

theorem lookup_entries_of_mem (h : attr ∈ o.cls.attributes) :
    Table.lookup (Table.ofList o.entries) attr = some (o.stored attr).toJson := by
  simp [lookup_entries, h]

theorem tells_entries (o : Object) : Tells o.cls o (Table.ofList o.entries) where
  ascending := Table.ascending_ofList _
  names n := by simp [Table.mem_names_ofList, entries, Table.Named, eq_comm]
  holds a ha := ⟨o.stored a, get_of_mem ha, lookup_entries_of_mem ha⟩
  className := by
    by_cases h : "class" ∈ o.cls.attributes
    · simp [lookup_entries_of_mem h, get_of_mem h, h]
    · simp [lookup_entries, h]

/-- The JSON of an object has the attributes of its class as names, each with the JSON of what the
object holds, and the name of the class unless an attribute has its place. An attribute that was
never written is null. -/
theorem object_toJson_tells_attributes (hc : c.Built) (ops : List Operation) :
    ∃ fields, (Outcome.object ((new c).run ops)).toJson = .object fields ∧
      Tells c ((new c).run ops) fields ∧
      ∀ a ∈ c.attributes, (∀ op ∈ ops, ¬ op.WritesTo a) →
        Table.lookup fields a = some .null := by
  have hcls := cls_run hc.wellFormed ops
  have htells := tells_entries ((new c).run ops)
  rw [hcls] at htells
  refine ⟨_, toJson_eq _, htells, fun a ha hn => ?_⟩
  obtain ⟨v, hv, hfield⟩ := htells.holds a ha
  have hnil := (get_run (v := .nil) hc.wellFormed ha).mpr (.inr ⟨rfl, hn⟩)
  obtain rfl := Except.ok.inj (hv.symm.trans hnil)
  rw [hfield, Value.toJson]

/-- One attribute was written twice, one as nil, and one never. What is not declared stays out. -/
theorem object_toJson_point :
    let ops : List Operation := [.send "y=" [.integer 1], .set "size" (.boolean true),
      .set "x" .nil, .send "y=" [.symbol "a"]]
    ∃ fields, point.Built ∧ (Outcome.object ((new point).run ops)).toJson = .object fields ∧
      Tells point ((new point).run ops) fields ∧ "z" ∈ point.attributes ∧
      (∀ op ∈ ops, ¬ op.WritesTo "z") ∧ Table.lookup fields "z" = some .null ∧
      fields = [("class", .string "Point"), ("x", .null), ("y", .string "a"), ("z", .null)] := by
  intro ops
  obtain ⟨fields, hjson, htells, hnull⟩ := object_toJson_tells_attributes built_point ops
  have hz : "z" ∈ point.attributes := by decide
  have hothers : ∀ op ∈ ops, ∃ a, a ≠ "z" ∧ op.WritesTo a := by
    simp only [ops, List.forall_mem_cons]
    exact ⟨⟨"y", by decide, _, .send⟩, ⟨"size", by decide, _, .set⟩, ⟨"x", by decide, _, .set⟩,
      ⟨"y", by decide, _, .send⟩, by simp⟩
  have hn : ∀ op ∈ ops, ¬ op.WritesTo "z" := by
    rintro op hop ⟨v, hv⟩
    obtain ⟨a, ha, w, hw⟩ := hothers op hop
    exact ha (hw.unique hv).1
  exact ⟨fields, built_point, hjson, htells, hz, hn, hnull "z" hz hn,
    Json.object.inj (hjson.symm.trans rfl)⟩

/-- An attribute with the name of the field for the class takes its place. -/
theorem class_attribute_hides_class : ¬ ∀ (c : Class) (ops : List Operation), c.Built →
    (Outcome.object ((new c).run ops)).toJson.field? "class" = some (.string c.name) := by
  intro h
  have hbuilt : (Class.build "K" [.declare "class"]).Built := ⟨_, _, rfl⟩
  have hname := h _ [] hbuilt
  have hnull : (Outcome.object ((new (Class.build "K" [.declare "class"])).run
      [])).toJson.field? "class" = some .null := rfl
  rw [hnull] at hname
  cases hname

end

end Dispatch.Object
