import Dispatch.Class
import Dispatch.Proofs.Class.Building

/-!
# What a name means to an object

An attribute of a well-formed class is a word, and the name of a writer is none. So a name is that
of a reader or of a writer, or it is free for a method, and never two of these. The laws of `send`
give the whole answer in each case.
-/

namespace Dispatch

namespace Class

def Free (c : Class) (name : String) : Prop :=
  ∀ a ∈ c.attributes, a ≠ name ∧ writerName a ≠ name

theorem not_word_writerName (attr : String) :
    ¬ Form.Word (writerName attr).toList (writerName attr) := by
  intro h
  have hmem : '=' ∈ (writerName attr).toList := by simp [writerName]
  exact absurd (Form.word_parts h '=' hmem) (by decide)

section
variable {c : Class} {attr name : String}

theorem WellFormed.writerName_not_mem (hc : c.WellFormed) (attr : String) :
    writerName attr ∉ c.attributes := fun h => not_word_writerName attr (hc.words _ h)

theorem name_cases (c : Class) (name : String) :
    name ∈ c.attributes ∨ (∃ attr ∈ c.attributes, name = writerName attr) ∨ c.Free name := by
  by_cases hr : name ∈ c.attributes
  · exact .inl hr
  · by_cases hw : ∃ attr ∈ c.attributes, name = writerName attr
    · exact .inr (.inl hw)
    · refine .inr (.inr fun a ha => ⟨?_, ?_⟩)
      · rintro rfl
        exact hr ha
      · rintro rfl
        exact hw ⟨a, ha, rfl⟩

theorem member?_reader (h : attr ∈ c.attributes) : c.member? attr = some (.reader attr) := by
  simp only [member?, if_pos h]

theorem WellFormed.member?_writer (hc : c.WellFormed) (h : attr ∈ c.attributes) :
    c.member? (writerName attr) = some (.writer attr) := by
  simp [member?, hc.writerName_not_mem, writtenName?_writerName, Option.filter, h]

theorem member?_of_free (h : c.Free name) :
    c.member? name = (c.find? .member name).map .method := by
  have hr : name ∉ c.attributes := fun ha => (h name ha).1 rfl
  have hw : (writtenName? name).filter (· ∈ c.attributes) = none := by
    simp only [Option.filter_eq_none_iff, writtenName?_eq_some_iff, decide_eq_true_eq]
    rintro a rfl ha
    exact (h a ha).2 rfl
  simp only [member?, if_neg hr, hw]

theorem run_of_member {m : Method} (h : m.kind = .member) : ∃ run, m.body = .member run := by
  cases hb : m.body with
  | singleton run => simp [Method.kind, hb, Body.kind] at h
  | member run => exact ⟨run, rfl⟩

theorem run_of_singleton {m : Method} (h : m.kind = .singleton) :
    ∃ run, m.body = .singleton run := by
  cases hb : m.body with
  | singleton run => exact ⟨run, rfl⟩
  | member run => simp [Method.kind, hb, Body.kind] at h

theorem call_of_find? {m : Method} (hm : c.find? .singleton name = some m)
    (hb : m.body = .singleton run) (args : List Value) :
    c.call name args = (m.signature.bind args).bind run := by
  obtain ⟨fnName, sig, body⟩ := m
  obtain rfl : body = .singleton run := hb
  simp only [call, hm]
  rfl

end

end Class

namespace Object

section
variable {o : Object} {attr name : String} {args : List Value}

def write (o : Object) (attr : String) (v : Value) : Object :=
  { o with written := Table.put attr v o.written }

@[simp] theorem cls_write (o : Object) (attr : String) (v : Value) : (o.write attr v).cls = o.cls :=
  rfl

def stored (o : Object) (attr : String) : Value := (Table.lookup o.written attr).getD .nil

theorem stored_write_self (o : Object) (attr : String) (v : Value) :
    (o.write attr v).stored attr = v := by
  simp [stored, write, Table.lookup_put_self]

theorem get_of_mem (h : attr ∈ o.cls.attributes) : o.get attr = .ok (o.stored attr) :=
  if_pos h

theorem set_of_mem (h : attr ∈ o.cls.attributes) (v : Value) :
    o.set attr v = (.ok (), o.write attr v) :=
  if_pos h

theorem set_of_not_mem (h : attr ∉ o.cls.attributes) (v : Value) :
    o.set attr v = (.error (o.receiver.noMethod (writerName attr)), o) :=
  if_neg h

-- ---------------------------------------------------------------------
-- Sending
-- ---------------------------------------------------------------------

theorem send_reader (h : attr ∈ o.cls.attributes) : o.send attr [] = (.ok (o.stored attr), o) := by
  simp only [send, Class.member?_reader h, get_of_mem h]

theorem send_reader_of_ne (h : attr ∈ o.cls.attributes) (ha : args ≠ []) :
    o.send attr args = (.error (.arity args.length (.exactly 0)), o) := by
  simp only [send, Class.member?_reader h]

theorem send_writer (hc : o.cls.WellFormed) (h : attr ∈ o.cls.attributes) (v : Value) :
    o.send (writerName attr) [v] = (.ok v, o.write attr v) := by
  simp only [send, hc.member?_writer h, set_of_mem h]
  rfl

theorem send_writer_of_ne (hc : o.cls.WellFormed) (h : attr ∈ o.cls.attributes)
    (ha : args.length ≠ 1) :
    o.send (writerName attr) args = (.error (.arity args.length (.exactly 1)), o) := by
  simp only [send, hc.member?_writer h]
  split
  · simp at ha
  · rfl

theorem send_method (hf : o.cls.Free name) (hm : o.cls.find? .member name = some m)
    (hb : m.body = .member run) (args : List Value) :
    o.send name args = ((m.signature.bind args).bind (run o.receiver), o) := by
  obtain ⟨fnName, sig, body⟩ := m
  obtain rfl : body = .member run := hb
  simp only [send, Class.member?_of_free hf, hm, Option.map_some]

theorem send_unknown (hf : o.cls.Free name) (hm : o.cls.find? .member name = none)
    (args : List Value) : o.send name args = (.error (o.receiver.noMethod name), o) := by
  simp only [send, Class.member?_of_free hf, hm, Option.map_none]

end

/-- The class of the object has an accessor or a method of the name, and that gives the answer to
all arguments. -/
inductive Understands (o : Object) : String → Prop
  | reader {attr : String} : attr ∈ o.cls.attributes → o.send attr [] = (.ok (o.stored attr), o) →
      (∀ args, args ≠ [] → o.send attr args = (.error (.arity args.length (.exactly 0)), o)) →
      Understands o attr
  | writer {attr : String} : attr ∈ o.cls.attributes →
      (∀ v, o.send (writerName attr) [v] = (.ok v, o.write attr v)) →
      (∀ args, args.length ≠ 1 →
        o.send (writerName attr) args = (.error (.arity args.length (.exactly 1)), o)) →
      Understands o (writerName attr)
  | method {m : Method} {run : Receiver → BoundArgs → Except Error Value} : m ∈ o.cls.methods →
      m.body = .member run →
      (∀ args, o.send m.name args = ((m.signature.bind args).bind (run o.receiver), o)) →
      Understands o m.name

theorem understands_of_find? {o : Object} (hf : o.cls.Free name)
    (hm : o.cls.find? .member name = some m) : o.Understands name := by
  obtain ⟨hmem, hkind, rfl⟩ := Class.find?_some hm
  obtain ⟨run, hrun⟩ := Class.run_of_member hkind
  exact .method hmem hrun (send_method hf hm hrun)

theorem understands_reader {o : Object} (h : attr ∈ o.cls.attributes) : o.Understands attr :=
  .reader h (send_reader h) fun _ => send_reader_of_ne h

theorem understands_writer {o : Object} (hc : o.cls.WellFormed) (h : attr ∈ o.cls.attributes) :
    o.Understands (writerName attr) :=
  .writer h (send_writer hc h) fun _ => send_writer_of_ne hc h

end Object

end Dispatch
