import Dispatch.Proofs.Object.Members
import Dispatch.Proofs.Occurrences

/-!
# Runs of an object

An object is read, written and sent messages in any order. `after_cases` is what one operation can
do: it writes a declared attribute or leaves the object as it was. So after any run an attribute
holds what was written to it last, as `run_holds_last_writes` shows.
-/

namespace Dispatch

inductive Operation
  | get (attr : String)
  | set (attr : String) (v : Value)
  | send (method : String) (args : List Value)

namespace Operation

/-- What an operation answers, and the object after it. Setting answers nothing. -/
def answer (o : Object) : Operation → Except Error Value × Object
  | .get attr => (o.get attr, o)
  | .set attr v =>
    let (result, o) := o.set attr v
    (result.map fun _ => .nil, o)
  | .send method args => o.send method args

inductive Writes (attr : String) (v : Value) : Operation → Prop
  | set : Writes attr v (.set attr v)
  | send : Writes attr v (.send (writerName attr) [v])

theorem Writes.unique (h : Writes attr v op) (h' : Writes other w op) : attr = other ∧ v = w := by
  cases h with
  | set =>
    cases h'
    exact ⟨rfl, rfl⟩
  | send =>
    generalize hm : writerName attr = method at h'
    cases h'
    exact ⟨writerName_inj.mp hm, rfl⟩

def WritesTo (attr : String) (op : Operation) : Prop := ∃ v, op.Writes attr v

def LastWrite (attr : String) (v : Value) (ops : List Operation) : Prop :=
  ∃ op, LastWith (WritesTo attr) ops op ∧ op.Writes attr v

theorem exists_lastWrite {ops : List Operation} :
    (∃ v, LastWrite attr v ops) ↔ ∃ op ∈ ops, op.WritesTo attr := by
  rw [← exists_lastWith]
  constructor
  · rintro ⟨v, op, hop, -⟩
    exact ⟨op, hop⟩
  · rintro ⟨op, before, after, hops, ⟨v, hv⟩, hn⟩
    exact ⟨v, op, ⟨before, after, hops, ⟨v, hv⟩, hn⟩, hv⟩

section
variable {ops : List Operation} {op : Operation} {attr : String} {v w : Value}

theorem lastWrite_concat (h : op.Writes attr w) : LastWrite attr v (ops ++ [op]) ↔ v = w := by
  constructor
  · rintro ⟨last, hlast, hv⟩
    obtain rfl := (lastWith_concat ⟨w, h⟩).mp hlast
    exact (hv.unique h).2
  · rintro rfl
    exact ⟨op, (lastWith_concat ⟨v, h⟩).mpr rfl, h⟩

theorem lastWrite_concat_of_not (h : ¬ op.WritesTo attr) :
    LastWrite attr v (ops ++ [op]) ↔ LastWrite attr v ops := by
  simp only [LastWrite, lastWith_concat_of_not h]

end

end Operation

namespace Object

open Operation

def after (o : Object) (op : Operation) : Object := (op.answer o).2

def run (o : Object) (ops : List Operation) : Object := ops.foldl after o

theorem run_concat (o : Object) (ops : List Operation) (op : Operation) :
    o.run (ops ++ [op]) = (o.run ops).after op := by simp [run]

theorem run_append (o : Object) (ops more : List Operation) :
    o.run (ops ++ more) = (o.run ops).run more := by simp [run]

section
variable {o : Object} {op : Operation} {attr : String} {v : Value}

theorem answer_of_writes (hc : o.cls.WellFormed) (ha : attr ∈ o.cls.attributes)
    (h : op.Writes attr v) : ∃ result, op.answer o = (.ok result, o.write attr v) := by
  cases h with
  | set => exact ⟨.nil, by rw [answer, set_of_mem ha]; rfl⟩
  | send => exact ⟨v, send_writer hc ha v⟩

theorem after_of_writes (hc : o.cls.WellFormed) (ha : attr ∈ o.cls.attributes)
    (h : op.Writes attr v) : o.after op = o.write attr v := by
  obtain ⟨result, hresult⟩ := answer_of_writes hc ha h
  rw [after, hresult]

theorem after_get (o : Object) (attr : String) : o.after (.get attr) = o := rfl

theorem after_set_of_not_mem (ha : attr ∉ o.cls.attributes) (v : Value) :
    o.after (.set attr v) = o := by rw [after, answer, set_of_not_mem ha]

theorem after_send_reader (ha : attr ∈ o.cls.attributes) (args : List Value) :
    o.after (.send attr args) = o := by
  by_cases hn : args = []
  · rw [after, answer, hn, send_reader ha]
  · rw [after, answer, send_reader_of_ne ha hn]

theorem after_send_writer_of_ne {args : List Value} (hc : o.cls.WellFormed)
    (ha : attr ∈ o.cls.attributes) (hl : args.length ≠ 1) :
    o.after (.send (writerName attr) args) = o := by
  rw [after, answer, send_writer_of_ne hc ha hl]

theorem after_send_of_free {name : String} (hf : o.cls.Free name) (args : List Value) :
    o.after (.send name args) = o := by
  cases hm : o.cls.find? .member name with
  | none => rw [after, answer, send_unknown hf hm]
  | some m =>
    obtain ⟨run, hrun⟩ := Class.run_of_member (Class.find?_some hm).2.1
    rw [after, answer, send_method hf hm hrun]

/-- An operation writes a declared attribute, or it changes nothing. -/
theorem after_cases (hc : o.cls.WellFormed) (op : Operation) :
    (∃ attr ∈ o.cls.attributes, ∃ v, op.Writes attr v ∧ o.after op = o.write attr v) ∨
      o.after op = o ∧ ∀ attr ∈ o.cls.attributes, ¬ op.WritesTo attr := by
  by_cases h : ∃ attr ∈ o.cls.attributes, op.WritesTo attr
  · obtain ⟨attr, ha, v, hv⟩ := h
    exact .inl ⟨attr, ha, v, hv, after_of_writes hc ha hv⟩
  · have hn : ∀ attr ∈ o.cls.attributes, ¬ op.WritesTo attr := fun attr ha hv => h ⟨attr, ha, hv⟩
    refine .inr ⟨?_, hn⟩
    cases op with
    | get attr => exact after_get o attr
    | set attr v =>
      have ha : attr ∉ o.cls.attributes := fun ha => hn attr ha ⟨v, .set⟩
      exact after_set_of_not_mem ha v
    | send name args =>
      rcases o.cls.name_cases name with hr | ⟨attr, ha, rfl⟩ | hf
      · exact after_send_reader hr args
      · refine after_send_writer_of_ne hc ha fun hl => ?_
        obtain ⟨v, rfl⟩ := List.length_eq_one_iff.mp hl
        exact hn attr ha ⟨v, .send⟩
      · exact after_send_of_free hf args

/-- A write to a declared attribute does not fail, and nothing else changes the object. -/
theorem after_of_error (hc : o.cls.WellFormed) (h : (op.answer o).1 = .error e) :
    o.after op = o := by
  rcases after_cases hc op with ⟨attr, ha, v, hw, -⟩ | ⟨he, -⟩
  · obtain ⟨result, hresult⟩ := answer_of_writes hc ha hw
    rw [hresult] at h
    cases h
  · exact he

end

-- ---------------------------------------------------------------------
-- Whole runs
-- ---------------------------------------------------------------------

section
variable {c : Class} {ops : List Operation} {attr : String} {v : Value}

theorem cls_after (o : Object) (op : Operation) (hc : o.cls.WellFormed) :
    (o.after op).cls = o.cls := by
  rcases after_cases hc op with ⟨attr, -, v, -, he⟩ | ⟨he, -⟩ <;> rw [he]
  rfl

theorem cls_send {o : Object} (hc : o.cls.WellFormed) (method : String) (args : List Value) :
    (o.send method args).2.cls = o.cls := cls_after o (.send method args) hc

theorem cls_run (hc : c.WellFormed) (ops : List Operation) : ((new c).run ops).cls = c := by
  induction ops using List.reverseRecOn with
  | nil => rfl
  | append_singleton ops op ih => rw [run_concat, cls_after _ _ (ih.symm ▸ hc), ih]

theorem lookup_run (hc : c.WellFormed) : Table.lookup ((new c).run ops).written attr = some v ↔
    attr ∈ c.attributes ∧ LastWrite attr v ops := by
  induction ops using List.reverseRecOn with
  | nil => simp [run, new, Table.lookup, LastWrite, not_lastWith_nil]
  | append_singleton ops op ih =>
    have hcls := cls_run hc ops
    rw [run_concat]
    rcases after_cases (hcls.symm ▸ hc) op with ⟨a, ha, w, hw, he⟩ | ⟨he, hn⟩
    · rw [he, write]
      by_cases hattr : attr = a
      · subst hattr
        rw [Table.lookup_put_self, lastWrite_concat hw, Option.some.injEq, eq_comm]
        exact ⟨fun h => ⟨hcls ▸ ha, h⟩, fun h => h.2⟩
      · have hother : ¬ op.WritesTo attr := by
          rintro ⟨x, hx⟩
          exact hattr (hx.unique hw).1
        rw [Table.lookup_put_of_ne hattr, lastWrite_concat_of_not hother]
        exact ih
    · rw [he, ih, hcls] at *
      exact and_congr_right fun ha => (lastWrite_concat_of_not (hn attr ha)).symm

theorem get_run (hc : c.WellFormed) (ha : attr ∈ c.attributes) :
    ((new c).run ops).get attr = .ok v ↔
      LastWrite attr v ops ∨ v = .nil ∧ ∀ op ∈ ops, ¬ op.WritesTo attr := by
  have hlookup (w : Value) : Table.lookup ((new c).run ops).written attr = some w ↔
      LastWrite attr w ops := (lookup_run hc).trans (and_iff_right ha)
  have hwritten : (∀ op ∈ ops, ¬ op.WritesTo attr) ↔ ∀ w, ¬ LastWrite attr w ops := by
    rw [← not_exists, exists_lastWrite]
    simp only [not_exists, not_and]
  rw [get_of_mem ((cls_run hc ops).symm ▸ ha), stored, hwritten]
  simp only [← hlookup]
  cases Table.lookup ((new c).run ops).written attr <;> simp [eq_comm]

theorem mem_shown {r : Receiver} : (attr, v) ∈ r.shown ↔
    attr ∈ r.attributes ∧ Table.lookup r.written attr = some v := by
  simp [Receiver.shown]

theorem shown_sublist (r : Receiver) : (r.shown.map Prod.fst).Sublist r.attributes := by
  have hfst : r.shown.map Prod.fst =
      r.attributes.filter fun a => (Table.lookup r.written a).isSome := by
    rw [Receiver.shown, List.map_filterMap, ← List.filterMap_eq_filter]
    refine List.filterMap_congr fun a _ => ?_
    cases h : Table.lookup r.written a <;> simp [Option.guard, h]
  rw [hfst]
  exact List.filter_sublist

theorem display_eq (r : Receiver) : r.display = "#<" ++ r.className ++
    (if r.shown.isEmpty then ""
      else " " ++ ", ".intercalate (r.shown.map fun (attr, v) => attr ++ "=" ++ v.display)) ++
    ">" := by
  have hfields : (", ".intercalate (r.shown.map fun (attr, v) =>
      attr ++ "=" ++ v.display)).toList =
      Text.listed (r.shown.map fun (attr, v) => attr.toList ++ '=' :: v.inspect) := by
    rw [String.toList_intercalate, Text.listed, Text.joined_eq_intercalate, List.map_map]
    congr 2
    funext e
    simp [Value.display]
  rw [← String.toList_inj]
  by_cases h : r.shown = []
  · simp [Receiver.display, Receiver.inspect, h]
  · simp [Receiver.display, Receiver.inspect, h, hfields]

-- ---------------------------------------------------------------------
-- The state of an object
-- ---------------------------------------------------------------------

/-- What an operation does to an object. Only a write to a declared attribute changes it, and that
does not fail. -/
structure Effect (o : Object) (op : Operation) : Prop where
  write (attr : String) (v : Value) : attr ∈ o.cls.attributes → op.Writes attr v →
    (∃ result, op.answer o = (.ok result, o.after op)) ∧ (o.after op).get attr = .ok v ∧
      ∀ other, other ≠ attr → (o.after op).get other = o.get other
  read (attr : String) : op = .get attr ∨
    (attr ∈ o.cls.attributes ∧ ∃ args, op = .send attr args) → o.after op = o
  call (name : String) (args : List Value) (m : Method) : op = .send name args →
    o.cls.member? name = some (.method m) → o.after op = o
  failure (e : Error) : (op.answer o).1 = .error e → o.after op = o
  other : (∀ attr ∈ o.cls.attributes, ¬ op.WritesTo attr) → o.after op = o

theorem free_of_method {name : String} {m : Method} (hc : c.WellFormed)
    (h : c.member? name = some (.method m)) : c.Free name := by
  rcases c.name_cases name with hr | ⟨attr, ha, rfl⟩ | hf
  · simp [Class.member?_reader hr] at h
  · simp [hc.member?_writer ha] at h
  · exact hf

theorem get_write_of_ne {other : String} (o : Object) (h : other ≠ attr) (v : Value) :
    (o.write attr v).get other = o.get other := by
  simp only [get, Receiver.get, receiver, write, Table.lookup_put_of_ne h]
  rfl

theorem effect {o : Object} (hc : o.cls.WellFormed) (op : Operation) : Effect o op where
  write attr v ha hw := by
    rw [after_of_writes hc ha hw]
    refine ⟨answer_of_writes hc ha hw, ?_, fun other hn => get_write_of_ne o hn v⟩
    have hcls : attr ∈ (o.write attr v).cls.attributes := ha
    rw [get_of_mem hcls, stored_write_self]
  read attr h := by
    rcases h with rfl | ⟨ha, args, rfl⟩
    · exact after_get o attr
    · exact after_send_reader ha args
  call name args m h hm := by
    subst h
    exact after_send_of_free (free_of_method hc hm) args
  failure _ h := after_of_error hc h
  other hn := by
    rcases after_cases hc op with ⟨attr, ha, v, hv, -⟩ | ⟨he, -⟩
    · exact absurd ⟨v, hv⟩ (hn attr ha)
    · exact he

/-- After any run an attribute holds what was last written to it, through its writer or set
directly, and nil if nothing was. No method changes it, also one with the name of an accessor. The
display lists the attributes that were written in the order of the class. -/
theorem run_holds_last_writes (hc : c.Built) (ops : List Operation) :
    (∀ attr ∈ c.attributes, ∀ v, ((new c).run ops).get attr = .ok v ↔
      LastWrite attr v ops ∨ v = .nil ∧ ∀ op ∈ ops, ¬ op.WritesTo attr) ∧
    (∀ op, Effect ((new c).run ops) op) ∧
    ∃ fields : List (String × Value), (fields.map Prod.fst).Sublist c.attributes ∧
      (∀ attr v, (attr, v) ∈ fields ↔ attr ∈ c.attributes ∧ LastWrite attr v ops) ∧
      ((new c).run ops).display = "#<" ++ c.name ++
        (if fields.isEmpty then ""
          else " " ++ ", ".intercalate (fields.map fun (attr, v) => attr ++ "=" ++ v.display)) ++
        ">" := by
  have hw := hc.wellFormed
  have hcls := cls_run hw ops
  refine ⟨fun attr ha v => get_run hw ha, fun op => effect (hcls.symm ▸ hw) op,
    ((new c).run ops).receiver.shown, ?_, fun attr v => ?_, ?_⟩
  · have hsub := shown_sublist ((new c).run ops).receiver
    simpa only [receiver, hcls] using hsub
  · rw [mem_shown, ← lookup_run hw]
    simp only [receiver, hcls]
    exact and_iff_right_of_imp fun h => ((lookup_run hw).mp h).1
  · have hdisplay := display_eq ((new c).run ops).receiver
    have hname : ((new c).run ops).receiver.className = c.name := congrArg Class.name hcls
    rwa [hname] at hdisplay

end

/-- The class has a method with the name of a writer, which is never called. -/
def point : Class := .build "Point"
  [.define "shadow" "x=(v)" (.member fun _ _ => .ok .nil),
    .define "name_of" "label" (.member fun r _ => r.get "y"),
    .declare "x", .declare "y", .declare "z"]

theorem built_point : point.Built := ⟨_, _, rfl⟩

theorem run_point :
    let ops : List Operation := [.send "y=" [.integer 1], .set "x" .nil, .send "x=" [],
      .send "y" [], .set "size" .nil, .send "label" [], .send "y=" [.integer 2]]
    point.Built ∧ "y" ∈ point.attributes ∧
      (((new point).run ops).get "y" = .ok (.integer 2) ↔ LastWrite "y" (.integer 2) ops ∨
        Value.integer 2 = .nil ∧ ∀ op ∈ ops, ¬ op.WritesTo "y") ∧
      ((new point).run ops).display = "#<Point x=nil, y=2>" ∧
      Effect ((new point).run ops) (.send "x=" [.symbol "a"]) := by
  intro ops
  have hy : "y" ∈ point.attributes := by decide
  obtain ⟨hget, heffect, -⟩ := run_holds_last_writes built_point ops
  have hdisplay : ((new point).run ops).display = "#<Point x=nil, y=2>" := by decide +kernel
  exact ⟨built_point, hy, hget "y" hy (.integer 2), hdisplay, heffect (.send "x=" [.symbol "a"])⟩

end Object

end Dispatch
