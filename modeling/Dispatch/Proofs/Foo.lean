import Dispatch.Foo
import Dispatch.Proofs.Binding.Fill
import Dispatch.Proofs.Object.Runs
import Dispatch.Proofs.Registry.Listings

/-!
# Foo as an object and as a record

Whatever was done to an object of the class Foo, it stands for the record of what its attributes
hold, if these fit the fields. Its method answers as the method of that record does, after the
number of arguments and the record itself were found right; and so does the method of the class,
which needs no record. `object_simulates_record` puts the two together.
-/

namespace Dispatch

/-- The values of the kind are those made of such contents, and only from them they are taken. -/
structure Extract.OfKind (α : Type) [Extract α] (kind : Kind) (make : α → Value) : Prop where
  not_nil : kind ≠ .nil
  kind_eq_iff (v : Value) : v.kind = kind ↔ ∃ a, v = make a
  made (a : α) : (make a).extract α = .ok a
  others (v : Value) : v.kind ≠ kind → v.extract α = .error (.typeMismatch kind v.kind)

theorem Extract.OfKind.string : OfKind String .string .string where
  not_nil := nofun
  kind_eq_iff v := by cases v <;> simp [Value.kind]
  made _ := rfl
  others v h := by
    cases v with
    | string s => exact absurd rfl h
    | _ => rfl

theorem Extract.OfKind.integer : OfKind Int64 .integer .integer where
  not_nil := nofun
  kind_eq_iff v := by cases v <;> simp [Value.kind]
  made _ := rfl
  others v h := by
    cases v with
    | integer i => exact absurd rfl h
    | _ => rfl

/-- Why an attribute with this value cannot be a field of the kind. -/
inductive Misfits (attr : String) (kind : Kind) : Value → Error → Prop
  | absent : Misfits attr kind .nil (.nilField attr)
  | mistyped : v.kind ≠ .nil → v.kind ≠ kind → Misfits attr kind v (.typeMismatch kind v.kind)

theorem made_or_misfits {α : Type} [Extract α] {kind : Kind} {make : α → Value}
    (h : Extract.OfKind α kind make) (attr : String) (v : Value) :
    (∃ a, v = make a) ∨ ∃ e, Misfits attr kind v e := by
  by_cases hk : v.kind = kind
  · exact .inl ((h.kind_eq_iff v).mp hk)
  · by_cases hn : v.kind = .nil
    · cases v <;> cases hn
      exact .inr ⟨_, .absent⟩
    · exact .inr ⟨_, .mistyped hn hk⟩

namespace Signature

abbrev optional (name : Option String) (n : String) (d : Literal) : Signature :=
  ⟨name, [⟨n, .optional d⟩]⟩

section
variable (name : Option String) (n : String) (d : Literal)

theorem splits_optional (args : List Value) : (optional name n d).Splits args args none :=
  .undeclared (by simp [Declares])

theorem bind_optional_nil : (optional name n d).bind [] = .ok ⟨[(n, d.toValue)]⟩ :=
  bind_of_fill_ok (splits_optional name n d []) rfl rfl

theorem bind_optional_singleton (v : Value) : (optional name n d).bind [v] = .ok ⟨[(n, v)]⟩ :=
  bind_of_fill_ok (splits_optional name n d [v]) rfl rfl

theorem bind_optional_surplus {args : List Value} (ha : 2 ≤ args.length) :
    (optional name n d).bind args = .error (.arity args.length ⟨0, 1⟩) := by
  have harity : (optional name n d).arity = ⟨0, 1⟩ := rfl
  rw [bind_of_not_accepts (splits_optional name n d args), harity]
  rw [harity, Arity.accepts_iff]
  exact fun h => absurd (Nat.le_trans ha h.2) (by decide)

end

end Signature

theorem BoundArgs.get_singleton (α : Type) [Extract α] (n : String) (v : Value) :
    (BoundArgs.mk [(n, v)]).get α n = v.extract α := by simp [get, value?]

/-- What a method answers that passes at most one text on to a typed function. The number of
arguments is decided first, then whether there is such a function. -/
inductive Answers (typed : Except Error (Option String → String)) :
    List Value → Except Error Value → Prop
  | surplus {args : List Value} {arity : Arity} : 2 ≤ args.length → arity.display = "0..1" →
      Answers typed args (.error (.arity args.length arity))
  | untyped {args : List Value} : args.length < 2 → typed = .error e →
      Answers typed args (.error e)
  | default : typed = .ok f → Answers typed [] (.ok (.string (f none)))
  | given : typed = .ok f → Answers typed [.string s] (.ok (.string (f (some s))))
  | mistyped : typed = .ok f → v.kind ≠ .string →
      Answers typed [v] (.error (.typeMismatch .string v.kind))

/-- What is taken from the one argument, or from the default of the parameter, goes on to the typed
function, which has the same default. -/
theorem answers_bind {typed : Except Error (Option String → String)} {name : Option String}
    {n d : String} {run : BoundArgs → Except Error Value}
    (hrun : ∀ v, run ⟨[(n, v)]⟩ = typed.bind fun f =>
      (v.extract String).map fun s => .string (f (some s)))
    (hd : ∀ f, typed = .ok f → f (some d) = f none) (args : List Value) :
    Answers typed args (((Signature.optional name n (.string d)).bind args).bind run) := by
  match args with
  | [] =>
    rw [Signature.bind_optional_nil, Except.bind, hrun]
    cases typed with
    | error e => exact .untyped (by decide) rfl
    | ok f =>
      have hanswer : Answers (.ok f) [] (.ok (.string (f none))) := .default rfl
      rwa [← hd f rfl] at hanswer
  | [v] =>
    rw [Signature.bind_optional_singleton, Except.bind, hrun]
    cases typed with
    | error e => exact .untyped (Nat.lt_succ_self 1) rfl
    | ok f =>
      by_cases hk : v.kind = .string
      · obtain ⟨s, rfl⟩ := (Extract.OfKind.string.kind_eq_iff v).mp hk
        exact .given rfl
      · rw [Except.bind, Extract.OfKind.string.others v hk]
        exact .mistyped rfl hk
  | v :: w :: args =>
    have hlength : 2 ≤ (v :: w :: args).length := by simp
    rw [Signature.bind_optional_surplus name n _ hlength]
    exact .surplus hlength rfl

namespace Foo

section
variable {α : Type} [Extract α] {kind : Kind} {make : α → Value} {r : Receiver} {attr : String}
  {v : Value}

theorem field_of_nil (hget : r.get attr = .ok .nil) : field α r attr = .error (.nilField attr) := by
  simp only [field, hget]
  rfl

theorem field_of_ne_nil (hget : r.get attr = .ok v) (hn : v.kind ≠ .nil) :
    field α r attr = v.extract α := by
  simp [field, hget, Value.isNil, hn, bind, Except.bind]

theorem field_made (h : Extract.OfKind α kind make) {a : α} (hget : r.get attr = .ok (make a)) :
    field α r attr = .ok a := by
  have hkind : (make a).kind = kind := (h.kind_eq_iff _).mpr ⟨a, rfl⟩
  rw [field_of_ne_nil hget (hkind ▸ h.not_nil), h.made]

theorem field_misfit (h : Extract.OfKind α kind make) (hget : r.get attr = .ok v)
    (hm : Misfits attr kind v e) : field α r attr = .error e := by
  cases hm with
  | absent => exact field_of_nil hget
  | mistyped hn hk => rw [field_of_ne_nil hget hn, h.others v hk]

theorem field_eq_ok_iff (h : Extract.OfKind α kind make) (hget : r.get attr = .ok v) {a : α} :
    field α r attr = .ok a ↔ v = make a := by
  constructor
  · intro hf
    rcases made_or_misfits h attr v with ⟨b, rfl⟩ | ⟨e, hm⟩
    · rw [field_made h hget] at hf
      rw [Except.ok.inj hf]
    · rw [field_misfit h hget hm] at hf
      cases hf
  · rintro rfl
    exact field_made h hget

theorem field_eq_error_iff (h : Extract.OfKind α kind make) (hget : r.get attr = .ok v)
    {e : Error} : field α r attr = .error e ↔ Misfits attr kind v e := by
  refine ⟨fun hf => ?_, field_misfit h hget⟩
  rcases made_or_misfits h attr v with ⟨a, rfl⟩ | ⟨e', hm⟩
  · rw [field_made h hget] at hf
    cases hf
  · rw [field_misfit h hget hm] at hf
    exact Except.error.inj hf ▸ hm

end

-- ---------------------------------------------------------------------
-- Records
-- ---------------------------------------------------------------------

theorem ofReceiver_eq_ok_iff {r : Receiver} {f : Foo} : ofReceiver r = .ok f ↔
    field String r "foo1" = .ok f.foo1 ∧ field Int64 r "foo2" = .ok f.foo2 := by
  obtain ⟨foo1, foo2⟩ := f
  unfold ofReceiver
  cases field String r "foo1" <;> cases field Int64 r "foo2" <;> simp [bind, Except.bind]

/-- The first field is decided before the second. -/
theorem ofReceiver_eq_error_iff {r : Receiver} {e : Error} : ofReceiver r = .error e ↔
    field String r "foo1" = .error e ∨
      ∃ s, field String r "foo1" = .ok s ∧ field Int64 r "foo2" = .error e := by
  unfold ofReceiver
  cases field String r "foo1" <;> cases field Int64 r "foo2" <;> simp [bind, Except.bind]

/-- An object stands for the record of what its attributes hold. If it stands for none, the first
attribute that misfits says why. -/
structure Converts (o : Object) : Prop where
  ok (f : Foo) : ofObject o = .ok f ↔
    o.get "foo1" = .ok (.string f.foo1) ∧ o.get "foo2" = .ok (.integer f.foo2)
  error (e : Error) : ofObject o = .error e ↔
    (∃ v, o.get "foo1" = .ok v ∧ Misfits "foo1" .string v e) ∨
      ∃ s v, o.get "foo1" = .ok (.string s) ∧ o.get "foo2" = .ok v ∧ Misfits "foo2" .integer v e

theorem converts {o : Object} (hc : o.cls = definition) : Converts o := by
  have h₁ : o.get "foo1" = .ok (o.stored "foo1") := Object.get_of_mem (by rw [hc]; decide)
  have h₂ : o.get "foo2" = .ok (o.stored "foo2") := Object.get_of_mem (by rw [hc]; decide)
  constructor
  · intro f
    rw [ofObject, ofReceiver_eq_ok_iff, field_eq_ok_iff .string h₁, field_eq_ok_iff .integer h₂]
    simp [h₁, h₂]
  · intro e
    rw [ofObject, ofReceiver_eq_error_iff, field_eq_error_iff .string h₁]
    simp [field_eq_error_iff .integer h₂, field_eq_ok_iff .string h₁, h₁, h₂]

theorem runTest_eq (v : Value) : runTest ⟨[("a", v)]⟩ = (Except.ok test).bind fun f =>
    (v.extract String).map fun s => .string (f (some s)) := by
  rw [runTest, BoundArgs.get_singleton]
  rfl

theorem runHoge_eq (r : Receiver) (v : Value) : runHoge r ⟨[("b", v)]⟩ =
    ((ofReceiver r).map hoge).bind fun f =>
      (v.extract String).map fun s => .string (f (some s)) := by
  rw [runHoge, BoundArgs.get_singleton]
  cases ofReceiver r <;> rfl

theorem answers_test (args : List Value) :
    Answers (.ok test) args (definition.call "test?" args) := by
  have hfind : definition.find? .singleton "test?" =
    some ⟨"test", testSignature, .singleton runTest⟩ := rfl
  rw [Class.call_of_find? hfind rfl]
  refine answers_bind runTest_eq ?_ args
  rintro f ⟨⟩
  rfl

/-- The method of an object answers as that of its record, and leaves the object as it was whatever
it answers. -/
def Sends (o : Object) (args : List Value) : Prop :=
  ∃ answer, Answers ((ofObject o).map hoge) args answer ∧ o.send "_hoge!" args = (answer, o)

theorem sends {o : Object} (hc : o.cls = definition) (args : List Value) : Sends o args := by
  have hfree : o.cls.Free "_hoge!" := by
    rw [hc]
    unfold Class.Free
    decide
  have hfind : o.cls.find? .member "_hoge!" = some ⟨"hoge", hogeSignature, .member runHoge⟩ := by
    rw [hc]
    rfl
  refine ⟨_, ?_, Object.send_method hfree hfind rfl args⟩
  refine answers_bind (runHoge_eq o.receiver) (fun f hf => ?_) args
  cases hr : ofReceiver o.receiver <;> rw [hr] at hf <;> cases hf
  rfl

-- ---------------------------------------------------------------------
-- Histories
-- ---------------------------------------------------------------------

/-- The object stands for what its attributes hold, and answers as that record does. -/
structure Simulates (o : Object) : Prop where
  converts : Converts o
  sends (args : List Value) : Sends o args

theorem simulates_run (ops : List Operation) : Simulates ((Object.new definition).run ops) := by
  have hc : ((Object.new definition).run ops).cls = definition :=
    Object.cls_run built_definition.wellFormed ops
  exact ⟨converts hc, sends hc⟩

theorem toObject_eq_run (f : Foo) : f.toObject = (Object.new definition).run
    [.set "foo1" (.string f.foo1), .set "foo2" (.integer f.foo2)] := rfl

theorem simulates_toObject_run (f : Foo) (ops : List Operation) :
    Simulates (f.toObject.run ops) := by
  rw [toObject_eq_run, ← Object.run_append]
  exact simulates_run _

theorem ofObject_toObject (f : Foo) : ofObject f.toObject = .ok f :=
  ((simulates_toObject_run f []).converts.ok f).mpr ⟨rfl, rfl⟩

/-- A record is got back from its object. Whatever was set in an object of the class or sent to it,
from a new one or from that of a record on, it stands for the record of its attributes, and its
method answers as that of the record. The method of the class answers as the typed one. -/
theorem object_simulates_record :
    (∀ f : Foo, ofObject f.toObject = .ok f) ∧
    (∀ ops : List Operation, Simulates ((Object.new definition).run ops) ∧
      ∀ f : Foo, Simulates (f.toObject.run ops)) ∧
    ∀ args, Answers (.ok test) args (definition.call "test?" args) :=
  ⟨ofObject_toObject, fun ops => ⟨simulates_run ops, fun f => simulates_toObject_run f ops⟩,
    answers_test⟩

end Foo

end Dispatch
