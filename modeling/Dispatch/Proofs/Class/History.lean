import Dispatch.Proofs.Class.Building
import Dispatch.Proofs.Occurrences

/-!
# The history of a class

`build_keeps_last_definitions` reads a class off the steps that it was built by: a name stands where
it was defined first, for what it was defined as last.
-/

namespace Dispatch.Class

section
variable (name : String) (edits : List Edit)

theorem build_name : (build name edits).name = name := by
  induction edits using List.reverseRecOn with
  | nil => rfl
  | append_singleton edits e ih => rw [build_concat, revise_eq, ih]

theorem build_attributes :
    (build name edits).attributes = (edits.filterMap Edit.declared?).eraseDups := by
  induction edits using List.reverseRecOn with
  | nil => rfl
  | append_singleton edits e ih =>
    rw [build_concat, revise_eq, ih]
    cases h : e.declared? with
    | none => simp [h]
    | some a => simp [h, eraseDups_concat]

theorem build_keys : (build name edits).methods.map Method.key =
    ((edits.filterMap Edit.defined?).map Method.key).eraseDups := by
  induction edits using List.reverseRecOn with
  | nil => rfl
  | append_singleton edits e ih =>
    rw [build_concat, revise_eq]
    cases h : e.defined? with
    | none => simp [h, ih]
    | some m =>
      have hk := Method.keys_put m (build name edits).methods
      simp only [ih, List.mem_eraseDups] at hk
      simp [h, hk, eraseDups_concat]

theorem find?_build {kind : MethodKind} {n : String} {m : Method} :
    (build name edits).find? kind n = some m ↔
      LastWith (Method.Is kind n) (edits.filterMap Edit.defined?) m := by
  induction edits using List.reverseRecOn with
  | nil => simp [build, empty, find?, not_lastWith_nil]
  | append_singleton edits e ih =>
    unfold find? at ih ⊢
    rw [build_concat, revise_eq]
    cases h : e.defined? with
    | none => simpa [h] using ih
    | some d =>
      simp only [List.filterMap_append, List.filterMap_cons, h, List.filterMap_nil,
        Method.find?_put]
      split
      · rename_i hk
        rw [lastWith_concat hk, Option.some.injEq, eq_comm]
      · rename_i hk
        rw [lastWith_concat_of_not hk]
        exact ih

end

/-- What a class tells of the steps that it was built by. -/
structure History (name : String) (edits : List Edit) (c : Class) : Prop where
  wellFormed : c.WellFormed
  name : c.name = name
  attributes : c.attributes = (edits.filterMap Edit.declared?).eraseDups
  order : c.methods.map Method.key =
    ((edits.filterMap Edit.defined?).map Method.key).eraseDups
  found (kind : MethodKind) (n : String) : (∃ m, c.find? kind n = some m) ↔
    ∃ m ∈ edits.filterMap Edit.defined?, Method.Is kind n m
  last (kind : MethodKind) (n : String) (m : Method) : c.find? kind n = some m ↔
    LastWith (Method.Is kind n) (edits.filterMap Edit.defined?) m
  first (before after : List Method) (d : Method) :
    edits.filterMap Edit.defined? = before ++ d :: after → d.key ∉ before.map Method.key →
    c.methods[(before.map Method.key).eraseDups.length]? = c.find? d.kind d.name

theorem history_build (name : String) (edits : List Edit) :
    History name edits (build name edits) where
  wellFormed := wellFormed_build name edits
  name := build_name name edits
  attributes := build_attributes name edits
  order := build_keys name edits
  found kind n := by simp only [find?_build, exists_lastWith]
  last kind n m := find?_build name edits
  first before after d hd hb := by
    have hkey : ((build name edits).methods.map Method.key)[
        (before.map Method.key).eraseDups.length]? = some d.key := by
      rw [build_keys, hd, List.map_append, List.map_cons, getElem?_eraseDups hb]
    rw [List.getElem?_map, Option.map_eq_some_iff] at hkey
    obtain ⟨m, hm, hk⟩ := hkey
    rw [hm, eq_comm, (wellFormed_build name edits).find?_eq_some_iff]
    exact ⟨List.mem_of_getElem? hm, Method.key_eq_iff.mp hk⟩

theorem find?_define_of_ne {c after : Class} {fnName signature : String} {body : Body}
    (h : c.define fnName signature body = .ok after) {kind : MethodKind} (hk : kind ≠ body.kind)
    (n : String) : after.find? kind n = c.find? kind n := by
  cases hs : Signature.parse signature with
  | error e =>
    rw [define_of_error c fnName body hs] at h
    cases h
  | ok sig =>
    rw [define_of_ok c fnName body hs] at h
    cases h
    have hne : ¬ Method.Is kind n ⟨fnName, sig.named fnName, body⟩ := fun hm => hk hm.1.symm
    rw [find?, Method.find?_put, if_neg hne, find?]

/-- A class is the outcome of the steps that succeed: an attribute is refused for its name only and
a method for its signature only. A name keeps the place of its first definition and means the last
one of its kind, whatever the other kind holds under it. -/
theorem build_keeps_last_definitions (name : String) (edits : List Edit) :
    History name edits (build name edits) ∧
    (∀ (c : Class) (attr : String) (e : Error), c.declare attr = .error e ↔
      ¬ Form.Word attr.toList attr ∧ e = .invalidName attr) ∧
    (∀ (c : Class) (fnName signature : String) (body : Body) (e : Error),
      c.define fnName signature body = .error e ↔ Signature.parse signature = .error e) ∧
    (∀ (c after : Class) (fnName signature : String) (body : Body),
      c.define fnName signature body = .ok after →
      ∀ kind, kind ≠ body.kind → ∀ n, after.find? kind n = c.find? kind n) :=
  ⟨history_build name edits, fun c attr _ => declare_eq_error_iff c attr,
    fun c fnName _ body _ => define_eq_error_iff c fnName body,
    fun _ _ _ _ _ h _ hk n => find?_define_of_ne h hk n⟩

/-- The second `m` takes the place of the first and leaves the method of the objects alone. -/
theorem build_redefined :
    let number (i : Int64) : Body := .singleton fun _ => .ok (.integer i)
    let edits : List Edit := [.define "one" "m" (number 1), .define "name" "m" (.member fun r _ =>
      r.get "x"), .declare "x", .declare "a b", .define "twice" "m(a, a)" (number 0), .declare "x"]
    let c := build "K" edits
    let after := build "K" (edits ++ [.define "two" "m" (number 2)])
    History "K" (edits ++ [.define "two" "m" (number 2)]) after ∧
      after.attributes = ["x"] ∧ after.methods.map Method.fnName = ["two", "name"] ∧
      (∃ e, c.declare "a b" = .error e ∧ ¬ Form.Word "a b".toList "a b" ∧ e = .invalidName "a b") ∧
      c.define "two" "m" (number 2) = .ok after ∧ MethodKind.member ≠ .singleton ∧
      after.find? .member "m" = c.find? .member "m" := by
  intro number edits c after
  have hdefine : c.define "two" "m" (number 2) = .ok after := rfl
  obtain ⟨hhistory, hdeclare, -, hkinds⟩ :=
    build_keeps_last_definitions "K" (edits ++ [.define "two" "m" (number 2)])
  exact ⟨hhistory, rfl, rfl, ⟨_, rfl, (hdeclare c "a b" _).mp rfl⟩, hdefine, by decide,
    hkinds c after "two" "m" (number 2) hdefine .member (by decide) "m"⟩

end Dispatch.Class
