import Dispatch.Proofs.Registry.Listings

/-!
# Settings of a call

A new object takes its settings one after the other, each through the writer of its attribute.
Settings of declared attributes never fail, and what the object then holds is known from the last
value of each name (`configure_of_declared`). So settings that agree in these are the same to every
call, and a call that makes no object does not look at its settings at all:
`perform_reads_last_settings`.
-/

namespace Dispatch

namespace Setting

def entry (s : Setting) : String × Value := (s.name, s.value)

def LastValue (settings : List Setting) (name : String) (v : Value) : Prop :=
  LastWith (fun s => s.name = name) settings ⟨name, v⟩

/-- The same names are set, each to the same value in the end. -/
def Alike (settings others : List Setting) : Prop :=
  ∀ name v, LastValue settings name v ↔ LastValue others name v

def stored (settings : List Setting) : Table Value := Table.ofList (settings.map entry)

section
variable {settings others : List Setting} {name : String} {v : Value}

theorem lastWith_entry : LastWith (Table.Named name) (settings.map entry) (name, v) ↔
    LastValue settings name v := by
  rw [lastWith_map]
  constructor
  · rintro ⟨s, hs, he⟩
    cases he
    exact hs
  · exact fun h => ⟨_, h, rfl⟩

theorem lookup_stored : Table.lookup (stored settings) name = some v ↔
    LastValue settings name v := Table.lookup_ofList.trans lastWith_entry

theorem stored_eq_iff : stored settings = stored others ↔ Alike settings others := by
  simp only [stored, Table.ofList_eq_iff, lastWith_entry, Alike]

theorem exists_lastValue :
    (∃ v, LastValue settings name v) ↔ ∃ s ∈ settings, s.name = name := by
  rw [← exists_lastWith]
  constructor
  · exact fun ⟨v, h⟩ => ⟨_, h⟩
  · rintro ⟨⟨n, v⟩, h⟩
    obtain rfl : n = name := h.mem.2
    exact ⟨v, h⟩

end

end Setting

namespace Object

section
variable {c : Class} {settings : List Setting}

theorem configure_writes {o : Object} (hc : o.cls.WellFormed)
    (h : ∀ s ∈ settings, s.name ∈ o.cls.attributes) : o.configure settings = .ok { o with
      written := settings.foldl (fun table s => Table.put s.name s.value table) o.written } := by
  induction settings generalizing o with
  | nil => rfl
  | cons s settings ih =>
    obtain ⟨hs, hrest⟩ := List.forall_mem_cons.mp h
    have hcls : (o.write s.name s.value).cls.WellFormed := hc
    simp only [configure, send_writer hc hs, ih hcls hrest]
    rfl

theorem configure_of_declared (hc : c.WellFormed)
    (h : ∀ s ∈ settings, s.name ∈ c.attributes) :
    (new c).configure settings = .ok ⟨c, Setting.stored settings⟩ := by
  have hnew : (new c).cls.WellFormed := hc
  rw [configure_writes hnew h, Setting.stored, Table.ofList, List.foldl_map]
  rfl

/-- The settings make a new object of the class into this one, and each attribute holds its last
value. -/
structure Configured (c : Class) (settings : List Setting) (o : Object) : Prop where
  made : (new c).configure settings = .ok o
  cls : o.cls = c
  values (attr : String) (v : Value) : attr ∈ c.attributes →
    (o.get attr = .ok v ↔ Setting.LastValue settings attr v ∨
      v = .nil ∧ ∀ s ∈ settings, s.name ≠ attr)

theorem configured_stored (hc : c.WellFormed) (h : ∀ s ∈ settings, s.name ∈ c.attributes) :
    Configured c settings ⟨c, Setting.stored settings⟩ where
  made := configure_of_declared hc h
  cls := rfl
  values attr v ha := by
    have hdeclared : attr ∈ (Object.mk c (Setting.stored settings)).cls.attributes := ha
    have hunset : (∀ s ∈ settings, s.name ≠ attr) ↔ ∀ w, ¬ Setting.LastValue settings attr w := by
      rw [← not_exists, Setting.exists_lastValue]
      simp
    rw [get_of_mem hdeclared, Object.stored, hunset]
    simp only [← Setting.lookup_stored]
    cases Table.lookup (Setting.stored settings) attr <;> simp [eq_comm]

end

end Object

-- ---------------------------------------------------------------------
-- Calls
-- ---------------------------------------------------------------------

/-- Neither `new`, nor an accessor or a method of the class's objects. -/
def Class.Unanswered (c : Class) (name : String) : Prop :=
  name ≠ "new" ∧ c.Free name ∧ ∀ m ∈ c.methods, ¬ Method.Is .member name m

theorem Class.not_responds {c : Class} {name : String} (h : c.Unanswered name) :
    ¬ c.responds name = true := by
  obtain ⟨hnew, hfree, hmember⟩ := h
  rw [responds_iff, exists_find?]
  rintro (rfl | ⟨m, hm, hk⟩ | hr | ⟨attr, ha, rfl⟩)
  · exact hnew rfl
  · exact hmember m hm hk
  · exact (hfree name hr).1 rfl
  · exact (hfree attr ha).2 rfl

namespace Call

section
variable {c : Class} {settings others : List Setting}

theorem performOn_congr (call : Call)
    (h : (Object.new c).configure settings = (Object.new c).configure others) :
    call.performOn c settings = call.performOn c others := by
  simp only [performOn, h]

theorem performOn_of_route {call : Call} (h : route c call.method ≠ .onObject)
    (settings others : List Setting) : call.performOn c settings = call.performOn c others := by
  unfold performOn
  split
  · rfl
  · contradiction
  · rfl

theorem route_ne_onObject {method : String}
    (h : (method ≠ "new" ∧ ∃ m ∈ c.methods, Method.Is .singleton method m) ∨
      c.Unanswered method) : route c method ≠ .onObject := by
  rcases h with ⟨hn, hm⟩ | hu
  · rw [route_eq_onClass_iff.mpr ⟨hn, Class.exists_find?.mpr hm⟩]
    decide
  · exact fun ho => Class.not_responds hu (responds_of_route ho)

end

end Call

namespace Registry

/-- Settings of declared attributes make an object that holds the last value of each, and settings
alike make the same object, so no call tells them apart. A method of the class and a name that is
not answered take no notice of any settings. -/
theorem perform_reads_last_settings {r : Registry} (hr : ∀ e ∈ r, e.2.Built) {text : String}
    {call : Call} {c : Class} (hcall : Call.parse text = .ok call)
    (hc : r.get call.receiver = .ok c) :
    (∀ settings others : List Setting, (∀ s ∈ settings, s.name ∈ c.attributes) →
      (∀ s ∈ others, s.name ∈ c.attributes) → Setting.Alike settings others →
      (∃ o, Object.Configured c settings o ∧ Object.Configured c others o) ∧
        r.perform text settings = r.perform text others) ∧
    ((call.method ≠ "new" ∧ ∃ m ∈ c.methods, Method.Is .singleton call.method m) ∨
        c.Unanswered call.method →
      ∀ settings others : List Setting, r.perform text settings = r.perform text others) := by
  have hmem : (call.receiver, c) ∈ r := Table.mem_of_lookup (get_eq_ok_iff.mp hc)
  have hw : c.WellFormed := (hr _ hmem).wellFormed
  constructor
  · intro settings others hs ho halike
    have hfirst := Object.configured_stored hw hs
    have hsecond := Object.configured_stored hw ho
    rw [Setting.stored_eq_iff.mpr halike] at hfirst
    refine ⟨⟨_, hfirst, hsecond⟩, ?_⟩
    rw [perform_eq hcall hc, perform_eq hcall hc]
    exact Call.performOn_congr call (hfirst.made.trans hsecond.made.symm)
  · intro h settings others
    rw [perform_eq hcall hc, perform_eq hcall hc]
    exact Call.performOn_of_route (Call.route_ne_onObject h) settings others

theorem built_of_mem {cs : List Class} (hcs : ∀ c ∈ cs, c.Built) : ∀ e ∈ ofClasses cs, e.2.Built :=
  fun _ he => hcs _ (mem_ofClasses.mp he).mem.1

/-- What `y` was set to first is forgotten, and where it was set does not matter. Nobody asks for
`size` where the call has no object, or no name that is answered. -/
theorem perform_label_alike :
    let r := ofClasses [Foo.definition, Object.point]
    let settings : List Setting := [⟨"y", .symbol "a"⟩, ⟨"x", .nil⟩, ⟨"y", .integer 2⟩]
    let others : List Setting := [⟨"y", .integer 2⟩, ⟨"x", .nil⟩]
    let unknown : List Setting := [⟨"size", .nil⟩]
    (∀ e ∈ r, e.2.Built) ∧ Call.parse "Point.label" = .ok ⟨"Point", "label", []⟩ ∧
      r.get "Point" = .ok Object.point ∧ (∀ s ∈ settings, s.name ∈ Object.point.attributes) ∧
      (∀ s ∈ others, s.name ∈ Object.point.attributes) ∧ Setting.Alike settings others ∧
      r.perform "Point.label" settings = r.perform "Point.label" others ∧
      r.perform "Point.label" others = .ok (.value (.integer 2)) ∧
    Call.parse "Foo.test?" = .ok ⟨"Foo", "test?", []⟩ ∧ r.get "Foo" = .ok Foo.definition ∧
      (∃ m ∈ Foo.definition.methods, Method.Is .singleton "test?" m) ∧
      r.perform "Foo.test?" unknown = r.perform "Foo.test?" [] ∧
    Call.parse "Point.size" = .ok ⟨"Point", "size", []⟩ ∧ Object.point.Unanswered "size" ∧
      r.perform "Point.size" unknown = r.perform "Point.size" [] := by
  intro r settings others unknown
  have hr := built_of_mem built_foo_point
  have hlabel : Call.parse "Point.label" = .ok ⟨"Point", "label", []⟩ := rfl
  have htest : Call.parse "Foo.test?" = .ok ⟨"Foo", "test?", []⟩ := rfl
  have hsize : Call.parse "Point.size" = .ok ⟨"Point", "size", []⟩ := rfl
  have hpoint : r.get "Point" = .ok Object.point := rfl
  have hfoo : r.get "Foo" = .ok Foo.definition := rfl
  have hs : ∀ s ∈ settings, s.name ∈ Object.point.attributes := by decide +kernel
  have ho : ∀ s ∈ others, s.name ∈ Object.point.attributes := by decide +kernel
  have halike : Setting.Alike settings others := Setting.stored_eq_iff.mp rfl
  have hm : ∃ m ∈ Foo.definition.methods, Method.Is .singleton "test?" m := by decide +kernel
  have hfree : ∀ a ∈ Object.point.attributes, a ≠ "size" ∧ writerName a ≠ "size" := by
    decide +kernel
  have hmember : ∀ m ∈ Object.point.methods, ¬ Method.Is .member "size" m := by decide +kernel
  have hu : Object.point.Unanswered "size" := ⟨by decide, hfree, hmember⟩
  have hl := perform_reads_last_settings hr hlabel hpoint
  have ht := perform_reads_last_settings hr htest hfoo
  have hz := perform_reads_last_settings hr hsize hpoint
  exact ⟨hr, hlabel, hpoint, hs, ho, halike, (hl.1 settings others hs ho halike).2, rfl, htest,
    hfoo, hm, ht.2 (.inl ⟨by decide, hm⟩) unknown [], hsize, hu, hz.2 (.inr hu) unknown []⟩

end Registry

end Dispatch
