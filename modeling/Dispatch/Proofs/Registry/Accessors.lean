import Dispatch.Proofs.Grammar.Call
import Dispatch.Proofs.Registry.Settings
import Dispatch.Proofs.Display.Value

/-!
# Three ways to a value

The text of a value may stand behind the equals sign of a setting, or in brackets behind the name of
a writer. Both are read as the same value, and the reader gives that value back, so that a setting,
its writer and its reader agree: `setting_agrees_with_accessors`.
-/

namespace Dispatch

namespace Call

section
variable {name attr text : String} {v : Value}

theorem parse_reader (hname : Form.Constant name.toList name)
    (hattr : Form.Word attr.toList attr) :
    parse (name ++ "." ++ attr) = .ok ⟨name, attr, []⟩ := by
  have hw : Written ([] ++ (name.toList ++ '.' :: (attr.toList ++ ([] ++ [])))) ⟨name, attr, []⟩ :=
    .intro space_nil hname (.plain hattr) .absent (.plain .nil) rfl
  rw [parse_eq_ok_iff]
  simpa using hw

theorem written_argument (h : Form.Padded Value.Written t v) :
    Arg.Written.Bracketed '(' ')' ('(' :: (t ++ ([] ++ [')']))) [.positional v] := by
  obtain ⟨ha, ht, hb⟩ := h
  exact .items (.one (.intro ha (.positional ht) hb)) space_nil

theorem parse_writer (hname : Form.Constant name.toList name) (hattr : Form.Word attr.toList attr)
    (hv : Form.Padded Value.Written text.toList v) :
    parse (name ++ "." ++ attr ++ "=(" ++ text ++ ")") = .ok ⟨name, writerName attr, [v]⟩ := by
  have hmethod : Form.MethodName (attr.toList ++ ['=']) (writerName attr) := by
    have hpush : writerName attr = attr.push '=' := by simp [writerName, ← String.toList_inj]
    exact hpush ▸ .marked hattr (.inr (.inr rfl))
  have hw := Written.intro space_nil hname hmethod (.present space_nil (written_argument hv))
    (.plain (.positional .nil)) (w := []) rfl
  rw [parse_eq_ok_iff]
  simpa using hw

end

section
variable {c : Class} {call : Call} {settings : List Setting} {o changed : Object} {v : Value}

theorem route_eq_onObject (hs : ∀ m ∈ c.methods, ¬ Method.Is .singleton call.method m)
    (h : c.responds call.method = true) : route c call.method = .onObject := by
  have hnone : ¬ (c.find? .singleton call.method).isSome := by
    rw [Option.isSome_iff_exists, Class.exists_find?]
    rintro ⟨m, hm, hk⟩
    exact hs m hm hk
  simp [route, hnone, h]

theorem performOn_send (hroute : route c call.method = .onObject) (hnew : call.method ≠ "new")
    (ho : (Object.new c).configure settings = .ok o)
    (hsend : o.send call.method call.args = (.ok v, changed)) :
    call.performOn c settings = .ok (.value v) := by
  simp only [performOn, hroute, ho, if_neg hnew]
  simp [bind, Except.bind, hsend]

end

end Call

-- ---------------------------------------------------------------------
-- Accessors
-- ---------------------------------------------------------------------

structure Class.Exposes (c : Class) (attr : String) : Prop where
  declared : attr ∈ c.attributes
  not_new : attr ≠ "new"
  reader : ∀ m ∈ c.methods, ¬ Method.Is .singleton attr m
  writer : ∀ m ∈ c.methods, ¬ Method.Is .singleton (writerName attr) m

theorem writerName_ne_new (attr : String) : writerName attr ≠ "new" := by
  intro h
  apply Class.not_word_writerName attr
  rw [h]
  decide

section
variable {c : Class} {name attr : String}

theorem Call.performOn_reader (hc : c.WellFormed) (h : c.Exposes attr) (v : Value) :
    (Call.mk name attr []).performOn c [⟨attr, v⟩] = .ok (.value v) := by
  have hresponds : c.responds attr = true := Class.responds_iff.mpr (.inr (.inr (.inl h.declared)))
  have hwrite := Object.send_writer (o := .new c) hc h.declared v
  have hread := Object.send_reader (o := (Object.new c).write attr v) h.declared
  rw [Object.stored_write_self] at hread
  refine performOn_send (route_eq_onObject h.reader hresponds) h.not_new ?_ hread
  simp only [Object.configure, hwrite]

theorem Call.performOn_writer (hc : c.WellFormed) (h : c.Exposes attr) (v : Value) :
    (Call.mk name (writerName attr) [v]).performOn c [] = .ok (.value v) := by
  have hresponds : c.responds (writerName attr) = true :=
    Class.responds_iff.mpr (.inr (.inr (.inr ⟨attr, h.declared, rfl⟩)))
  exact performOn_send (route_eq_onObject h.writer hresponds) (writerName_ne_new attr) rfl
    (Object.send_writer (o := .new c) hc h.declared v)

end

namespace Registry

/-- Whatever text is written for a value, with equals signs, brackets and space in it and around it:
as a setting it is parsed exactly if it is parsed as a value, and then the setting has the attribute
and that value, the reader gives the value back and the writer takes it from the same text. -/
theorem setting_agrees_with_accessors {r : Registry} (hr : ∀ e ∈ r, e.2.Built) {name : String}
    {c : Class} (hname : Form.Constant name.toList name) (hc : r.get name = .ok c) {attr : String}
    (h : c.Exposes attr) (text : String) :
    (∀ setting, Setting.parse (attr ++ "=" ++ text) = .ok setting ↔
      ∃ v, Value.parse text = .ok v ∧ setting = ⟨attr, v⟩) ∧
    ∀ v, Value.parse text = .ok v →
      r.perform (name ++ "." ++ attr) [⟨attr, v⟩] = .ok (.value v) ∧
      r.perform (name ++ "." ++ attr ++ "=(" ++ text ++ ")") [] = .ok (.value v) := by
  have hw : c.WellFormed := (hr _ (Table.mem_of_lookup (get_eq_ok_iff.mp hc))).wellFormed
  have hattr : Form.Word attr.toList attr := hw.words attr h.declared
  refine ⟨fun setting => ?_, fun v hv => ⟨?_, ?_⟩⟩
  · rw [Setting.parse_word hattr]
    cases Value.parse text with
    | error e =>
      show Except.error _ = Except.ok setting ↔ _
      simp
    | ok v =>
      show Except.ok _ = Except.ok setting ↔ _
      simp [eq_comm]
  · rw [perform_eq (Call.parse_reader hname hattr) hc]
    exact Call.performOn_reader hw h v
  · have hpadded := ((Value.parse_value_iff text).1 v).mp hv
    rw [perform_eq (Call.parse_writer hname hattr hpadded) hc]
    exact Call.performOn_writer hw h v

/-- The text has space around it, two equals signs and the bracket that ends the arguments. -/
theorem point_setting_agrees :
    let r := ofClasses [Foo.definition, Object.point]
    let text := " \x7b:a=>\"=)\"\x7d\n"
    let v : Value := .hash [(.symbol "a", .string "=)")]
    (∀ e ∈ r, e.2.Built) ∧ Form.Constant "Point".toList "Point" ∧
      r.get "Point" = .ok Object.point ∧ Object.point.Exposes "x" ∧ Value.parse text = .ok v ∧
      Setting.parse ("x" ++ "=" ++ text) = .ok ⟨"x", v⟩ ∧
      r.perform ("Point" ++ "." ++ "x") [⟨"x", v⟩] = .ok (.value v) ∧
      r.perform ("Point" ++ "." ++ "x" ++ "=(" ++ text ++ ")") [] = .ok (.value v) := by
  intro r text v
  have hr := built_of_mem built_foo_point
  have hpoint : IsUpper 'P' := by decide
  have hname : Form.Constant "Point".toList "Point" := Scan.run_of_list hpoint rfl
  have hc : r.get "Point" = .ok Object.point := rfl
  have h : Object.point.Exposes "x" := by
    refine ⟨by decide, by decide, ?_, ?_⟩ <;> decide +kernel
  have hsymbol : Form.Word ['a'] "a" := .intro (by decide) (by simp)
  have hkey : Value.Written [':', 'a'] (.symbol "a") := .literal (.symbol hsymbol)
  have hstring : Value.Written ['"', '=', ')', '"'] (.string "=)") :=
    .literal (.double (Text.Quoted.double_encode "=)"))
  have harrow := Form.Arrow.intro hkey space_nil (.intro space_nil hstring)
  have hpair := Form.Padded.intro space_nil (Form.Pair.arrow harrow) space_nil
  have hwritten := Value.Written.hash (.items (.one hpair) space_nil)
    (Value.merged_self (List.pairwise_singleton _ _))
  have hpadded : Form.Padded Value.Written ([' '] ++ (_ ++ ['\n'])) v :=
    .intro (by simp [Space, IsSpace]) hwritten (by simp [Space, IsSpace])
  have hv : Value.parse text = .ok v := by
    rw [(Value.parse_value_iff text).1]
    simpa [text] using hpadded
  obtain ⟨hsetting, hagree⟩ := setting_agrees_with_accessors hr hname hc h text
  exact ⟨hr, hname, hc, h, hv, (hsetting ⟨"x", v⟩).mpr ⟨v, hv, rfl⟩, hagree v hv⟩

end Registry

end Dispatch
