import Dispatch.Call.Perform
import Dispatch.Foo
import Dispatch.Registry
import Dispatch.Proofs.Object.Runs
import Dispatch.Proofs.Registry.Order

/-!
# Listed names and performed calls

The names that a registry lists for a class are the names that a call on the class may use, besides
`new`. A call with any other name is refused before anything is done; a call with a listed name
reaches a method or an accessor: `perform_answers_listed_names`.
-/

namespace Dispatch

theorem Class.mem_listings {c : Class} {l : Listing} : l ∈ c.listings ↔
    (∃ attr ∈ c.attributes, l = ⟨c.name, .accessor, readerSignature attr⟩ ∨
      l = ⟨c.name, .accessor, writerSignature attr⟩) ∨
    ∃ m ∈ c.methods, l = ⟨c.name, .method m.kind, m.signature⟩ := by
  simp [listings, eq_comm]

theorem Class.exists_listing {c : Class} {name : String} :
    (∃ l ∈ c.listings, l.signature.methodName = name) ↔
      name ∈ c.attributes ∨ (∃ attr ∈ c.attributes, name = writerName attr) ∨
        ∃ m ∈ c.methods, m.name = name := by
  constructor
  · rintro ⟨l, hl, rfl⟩
    rcases Class.mem_listings.mp hl with ⟨attr, ha, rfl | rfl⟩ | ⟨m, hm, rfl⟩
    · exact .inl ha
    · exact .inr (.inl ⟨attr, ha, rfl⟩)
    · exact .inr (.inr ⟨m, hm, rfl⟩)
  · rintro (ha | ⟨attr, ha, rfl⟩ | ⟨m, hm, rfl⟩)
    · exact ⟨_, Class.mem_listings.mpr (.inl ⟨name, ha, .inl rfl⟩), rfl⟩
    · exact ⟨_, Class.mem_listings.mpr (.inl ⟨attr, ha, .inr rfl⟩), rfl⟩
    · exact ⟨_, Class.mem_listings.mpr (.inr ⟨m, hm, rfl⟩), rfl⟩

theorem Class.exists_named {c : Class} {name : String} : (∃ m ∈ c.methods, m.name = name) ↔
    (∃ m, c.find? .singleton name = some m) ∨ ∃ m, c.find? .member name = some m := by
  simp only [exists_find?]
  constructor
  · rintro ⟨m, hm, hname⟩
    cases hk : m.kind with
    | singleton => exact .inl ⟨m, hm, hk, hname⟩
    | member => exact .inr ⟨m, hm, hk, hname⟩
  · rintro (⟨m, hm, -, hname⟩ | ⟨m, hm, -, hname⟩) <;> exact ⟨m, hm, hname⟩

theorem Class.className_of_mem {c : Class} {l : Listing} (h : l ∈ c.listings) :
    l.className = c.name := by
  rcases Class.mem_listings.mp h with ⟨attr, -, rfl | rfl⟩ | ⟨m, -, rfl⟩ <;> rfl

namespace Registry

def Lists (r : Registry) (className method : String) : Prop :=
  ∃ l ∈ r.listings, l.className = className ∧ l.signature.methodName = method

theorem mem_listings {cs : List Class} {l : Listing} : l ∈ (ofClasses cs).listings ↔
    ∃ c, (ofClasses cs).get l.className = .ok c ∧ l ∈ c.listings := by
  rw [listings, List.mem_flatMap]
  constructor
  · rintro ⟨x, hx, hl⟩
    refine ⟨x.2, ?_, hl⟩
    rw [Class.className_of_mem hl, name_of_mem hx, get_ofClasses]
    exact mem_ofClasses.mp hx
  · rintro ⟨c, hc, hl⟩
    exact ⟨(l.className, c), mem_ofClasses.mpr (get_ofClasses.mp hc), hl⟩

theorem lists_iff {cs : List Class} {c : Class} {receiver method : String}
    (hc : (ofClasses cs).get receiver = .ok c) : (ofClasses cs).Lists receiver method ↔
      ∃ l ∈ c.listings, l.signature.methodName = method := by
  constructor
  · rintro ⟨l, hl, rfl, hname⟩
    obtain ⟨d, hd, hl⟩ := mem_listings.mp hl
    obtain rfl : c = d := Except.ok.inj (hc.symm.trans hd)
    exact ⟨l, hl, hname⟩
  · rintro ⟨l, hl, hname⟩
    have hclass : l.className = receiver :=
      (Class.className_of_mem hl).trans (get_ofClasses.mp hc).mem.2
    exact ⟨l, mem_listings.mpr ⟨c, hclass.symm ▸ hc, hl⟩, hclass, hname⟩

end Registry

-- ---------------------------------------------------------------------
-- Routes
-- ---------------------------------------------------------------------

theorem Class.responds_iff {c : Class} {name : String} : c.responds name = true ↔
    name = "new" ∨ (∃ m, c.find? .member name = some m) ∨ name ∈ c.attributes ∨
      ∃ attr ∈ c.attributes, name = writerName attr := by
  simp only [responds, Bool.or_eq_true, decide_eq_true_eq, Option.isSome_iff_exists,
    List.any_eq_true, writtenName?_eq_some_iff, or_assoc]
  constructor
  · rintro (hn | hm | ⟨attr, ha, rfl | hw⟩)
    · exact .inl hn
    · exact .inr (.inl hm)
    · exact .inr (.inr (.inl ha))
    · exact .inr (.inr (.inr ⟨attr, ha, hw⟩))
  · rintro (hn | hm | ha | ⟨attr, ha, hw⟩)
    · exact .inl hn
    · exact .inr (.inl hm)
    · exact .inr (.inr ⟨name, ha, .inl rfl⟩)
    · exact .inr (.inr ⟨attr, ha, .inr hw⟩)

namespace Call

theorem route_eq_onClass_iff {c : Class} {method : String} : route c method = .onClass ↔
    method ≠ "new" ∧ ∃ m, c.find? .singleton method = some m := by
  unfold route
  split
  · rename_i h
    simpa [Option.isSome_iff_exists] using h
  · rename_i h
    split <;> simpa [Option.isSome_iff_exists] using h

theorem responds_of_route {c : Class} {method : String} (h : route c method = .onObject) :
    c.responds method = true := by
  unfold route at h
  split at h
  · cases h
  · split at h
    · assumption
    · cases h

theorem route_eq_undefined_iff {c : Class} {method : String} : route c method = .undefined ↔
    method ≠ "new" ∧ ¬ ∃ l ∈ c.listings, l.signature.methodName = method := by
  have hundefined : route c method = .undefined ↔
      ¬ (method ≠ "new" ∧ ∃ m, c.find? .singleton method = some m) ∧
        ¬ c.responds method = true := by
    rw [← Option.isSome_iff_exists, route]
    split
    · simp_all
    · split <;> simp_all
  rw [hundefined, Class.responds_iff, Class.exists_listing, Class.exists_named]
  by_cases hn : method = "new"
  · simp [hn]
  · simp only [ne_eq, hn, not_false_eq_true, true_and, false_or, not_or]
    constructor
    · rintro ⟨hs, hm, hr, hw⟩
      exact ⟨hr, hw, hs, hm⟩
    · rintro ⟨hr, hw, hs, hm⟩
      exact ⟨hs, hm, hr, hw⟩

end Call

namespace Object

theorem cls_configure {o configured : Object} {settings : List Setting} (hc : o.cls.WellFormed)
    (h : o.configure settings = .ok configured) : configured.cls = o.cls := by
  induction settings generalizing o with
  | nil =>
    cases h
    rfl
  | cons setting settings ih =>
    obtain ⟨name, v⟩ := setting
    simp only [configure] at h
    split at h
    · rename_i changed hsend
      have hcls : changed.cls = o.cls := by
        simpa only [hsend] using cls_send hc (writerName name) [v]
      exact (ih (hcls ▸ hc) h).trans hcls
    · cases h

theorem understands_of_responds {o : Object} {name : String} (hc : o.cls.WellFormed)
    (h : o.cls.responds name = true) (hn : name ≠ "new") : o.Understands name := by
  rcases o.cls.name_cases name with hr | ⟨attr, ha, rfl⟩ | hf
  · exact understands_reader hr
  · exact understands_writer hc ha
  · rcases Class.responds_iff.mp h with rfl | ⟨m, hm⟩ | hr | ⟨attr, ha, rfl⟩
    · exact absurd rfl hn
    · exact understands_of_find? hf hm
    · exact absurd rfl (hf name hr).1
    · exact absurd rfl (hf attr ha).2

end Object

-- ---------------------------------------------------------------------
-- Performing
-- ---------------------------------------------------------------------

/-- What performing a call gives when a method is all that is left to run. -/
def Outcome.ofAnswer (answer : Except Error Value) : Except Failure Outcome :=
  (answer.map .value).mapError .raised

namespace Registry

/-- How a call is performed on the class that the registry has for its receiver. -/
structure Performs (r : Registry) (text : String) (call : Call) (c : Class) : Prop where
  refused : Call.route c call.method = .undefined ↔
    call.method ≠ "new" ∧ ¬ r.Lists call.receiver call.method
  undefined (settings : List Setting) : Call.route c call.method = .undefined →
    r.perform text settings = .error (.raised (.noMethod call.method (call.receiver ++ ":Class")))
  onClass : Call.route c call.method = .onClass →
    ∃ m ∈ c.methods, ∃ run, m.name = call.method ∧ m.body = .singleton run ∧
      ∀ settings, r.perform text settings = Outcome.ofAnswer ((m.signature.bind call.args).bind run)
  onObject (settings : List Setting) : Call.route c call.method = .onObject →
    call.method ≠ "new" →
    (∃ f, (Object.new c).configure settings = .error f ∧ r.perform text settings = .error f) ∨
    ∃ o, (Object.new c).configure settings = .ok o ∧ o.cls = c ∧ o.Understands call.method ∧
      r.perform text settings = Outcome.ofAnswer (o.send call.method call.args).1

section
variable {cs : List Class} {c : Class} {r : Registry} {text : String} {call : Call}

theorem perform_eq (hcall : Call.parse text = .ok call) (hc : r.get call.receiver = .ok c)
    (settings : List Setting) : r.perform text settings = call.performOn c settings := by
  simp only [perform, hcall, hc]

theorem performs (hc : c.WellFormed) (hcall : Call.parse text = .ok call)
    (hget : (ofClasses cs).get call.receiver = .ok c) :
    Performs (ofClasses cs) text call c where
  refused := by rw [Call.route_eq_undefined_iff, lists_iff hget]
  undefined settings h := by
    have hname : c.name = call.receiver := (get_ofClasses.mp hget).mem.2
    simp only [perform_eq hcall hget, Call.performOn, h, Class.noMethod, hname]
  onClass h := by
    obtain ⟨-, m, hm⟩ := Call.route_eq_onClass_iff.mp h
    obtain ⟨hmem, hkind, hname⟩ := Class.find?_some hm
    obtain ⟨run, hrun⟩ := Class.run_of_singleton hkind
    refine ⟨m, hmem, run, hname, hrun, fun settings => ?_⟩
    rw [perform_eq hcall hget, Call.performOn, h, ← Class.call_of_find? hm hrun]
    cases c.call call.method call.args <;> rfl
  onObject settings h hn := by
    have hnew : (Object.new c).cls.WellFormed := hc
    simp only [perform_eq hcall hget, Call.performOn, h, if_neg hn]
    cases ho : (Object.new c).configure settings with
    | error f => exact .inl ⟨f, rfl, rfl⟩
    | ok o =>
      have hcls : o.cls = c := Object.cls_configure hnew ho
      refine .inr ⟨o, rfl, hcls, ?_, ?_⟩
      · exact Object.understands_of_responds (hcls ▸ hc) (hcls ▸ Call.responds_of_route h) hn
      · cases hsend : (o.send call.method call.args).1 <;> simp [bind, Except.bind, hsend] <;> rfl

/-- A call is refused before anything is done exactly if its name is neither `new` nor listed for
the class. Any other name but `new` is that of a method or an accessor, which gives the answer. The
listing goes through the names in the order of their bytes, each with its latest class. -/
theorem perform_answers_listed_names (hcs : ∀ c ∈ cs, c.Built) :
    (∃ latest, Latest cs latest ∧ (ofClasses cs).listings = latest.flatMap Class.listings) ∧
    ∀ text call c, Call.parse text = .ok call → (ofClasses cs).get call.receiver = .ok c →
      Performs (ofClasses cs) text call c := by
  refine ⟨⟨_, latest_ofClasses cs, ?_⟩, fun text call c hcall hc => ?_⟩
  · rw [listings, List.flatMap_map]
  · have hbuilt : c.Built := hcs c (get_ofClasses.mp hc).mem.1
    exact performs hbuilt.wellFormed hcall hc

end

end Registry

theorem Foo.built_definition : definition.Built :=
  ⟨"Foo", [.declare "foo1", .declare "foo2",
    .define "test" "test?(a = \"a\")" (.singleton runTest),
    .define "hoge" "_hoge!(b = \"-112\")" (.member runHoge)], rfl⟩

namespace Registry

theorem built_foo_point : ∀ c ∈ [Foo.definition, Object.point], c.Built :=
  List.forall_mem_cons.mpr
    ⟨Foo.built_definition, List.forall_mem_singleton.mpr Object.built_point⟩

/-- An unlisted name is refused although a setting names no attribute; a listed one is not. -/
theorem perform_point :
    let cs := [Foo.definition, Object.point]
    let size : Call := ⟨"Point", "size", []⟩
    let label : Call := ⟨"Point", "label", []⟩
    (∀ c ∈ cs, c.Built) ∧
    Call.parse "Point.size" = .ok size ∧ Performs (ofClasses cs) "Point.size" size Object.point ∧
    Call.parse "Point.label" = .ok label ∧
    Performs (ofClasses cs) "Point.label" label Object.point ∧
    ¬ (ofClasses cs).Lists "Point" "size" ∧ (ofClasses cs).Lists "Point" "label" ∧
    (ofClasses cs).perform "Point.size" [⟨"width", .nil⟩] =
      .error (.raised (.noMethod "size" "Point:Class")) := by
  intro cs size label
  have hget : (ofClasses cs).get "Point" = .ok Object.point := rfl
  have hsize : Call.parse "Point.size" = .ok size := rfl
  have hlabel : Call.parse "Point.label" = .ok label := rfl
  obtain ⟨-, hperforms⟩ := perform_answers_listed_names built_foo_point
  have hs := hperforms "Point.size" size Object.point hsize hget
  have hl := hperforms "Point.label" label Object.point hlabel hget
  have hrefused : Call.route Object.point "size" = .undefined := by decide +kernel
  have hroute : Call.route Object.point "label" ≠ .undefined := by decide +kernel
  have hlisted : (ofClasses cs).Lists "Point" "label" := by
    by_contra hnot
    exact hroute (hl.refused.mpr ⟨by decide, hnot⟩)
  exact ⟨built_foo_point, hsize, hs, hlabel, hl, (hs.refused.mp hrefused).2, hlisted,
    hs.undefined [⟨"width", .nil⟩] hrefused⟩

end Registry

end Dispatch
