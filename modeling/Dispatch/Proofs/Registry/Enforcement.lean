import Dispatch.Proofs.Binding.Fill
import Dispatch.Proofs.Registry.Listings

/-!
# Listed signatures are enforced

Accessors count their arguments, and methods bind them. `bind_reader` and `bind_writer` say that
binding to the signature of an accessor comes to the same count, so what is listed is what a call
has to satisfy: `listed_signatures_are_enforced`.
-/

namespace Dispatch

namespace Signature

section
variable (attr : String) (args : List Value)

theorem splits_reader : (readerSignature attr).Splits args args none :=
  .undeclared (by simp [Declares, readerSignature])

/-- A hash is written like any other value. -/
theorem splits_writer : (writerSignature attr).Splits args args none :=
  .undeclared (by simp [Declares, writerSignature])

theorem bind_reader : (readerSignature attr).bind [] = .ok ⟨[]⟩ := rfl

theorem bind_reader_of_ne (h : args ≠ []) :
    (readerSignature attr).bind args = .error (.arity args.length (.exactly 0)) := by
  have harity : (readerSignature attr).arity = .exactly 0 := rfl
  rw [bind_of_not_accepts (splits_reader attr args), harity]
  simpa [harity, Arity.accepts_exactly] using h

theorem bind_writer (v : Value) : (writerSignature attr).bind [v] = .ok ⟨[(attr, v)]⟩ :=
  bind_of_fill_ok (splits_writer attr [v]) rfl rfl

theorem bind_writer_of_ne (h : args.length ≠ 1) :
    (writerSignature attr).bind args = .error (.arity args.length (.exactly 1)) := by
  have harity : (writerSignature attr).arity = .exactly 1 := rfl
  rw [bind_of_not_accepts (splits_writer attr args), harity]
  simpa [harity, Arity.accepts_exactly] using h

end

end Signature

-- ---------------------------------------------------------------------
-- Accessors
-- ---------------------------------------------------------------------

namespace Object

/-- A message under the signature of an accessor is refused exactly as binding would refuse it. If
it is not, it is answered with what is stored or with what is bound and stored. -/
structure Accesses (o : Object) (attr : String) (sig : Signature) : Prop where
  refuses (args : List Value) (e : Error) :
    (o.send sig.methodName args).1 = .error e ↔ sig.bind args = .error e
  reads (args : List Value) (bound : BoundArgs) : sig = readerSignature attr →
    sig.bind args = .ok bound → ∃ v, o.get attr = .ok v ∧ o.send sig.methodName args = (.ok v, o)
  writes (args : List Value) (bound : BoundArgs) : sig = writerSignature attr →
    sig.bind args = .ok bound → ∃ v, bound.value? attr = some v ∧
      o.send sig.methodName args = (.ok v, o.write attr v) ∧ (o.write attr v).get attr = .ok v

section
variable {o : Object} {attr : String}

theorem readerSignature_ne_writerSignature : readerSignature attr ≠ writerSignature attr := by
  simp [readerSignature, writerSignature]

theorem accesses_reader (h : attr ∈ o.cls.attributes) : o.Accesses attr (readerSignature attr) where
  refuses args e := by
    show (o.send attr args).1 = .error e ↔ _
    by_cases ha : args = []
    · simp [ha, send_reader h, Signature.bind_reader]
    · rw [send_reader_of_ne h ha, Signature.bind_reader_of_ne attr args ha]
      simp
  reads args bound _ hb := by
    by_cases ha : args = []
    · exact ⟨o.stored attr, get_of_mem h, ha ▸ send_reader h⟩
    · simp [Signature.bind_reader_of_ne attr args ha] at hb
  writes _ _ he := absurd he readerSignature_ne_writerSignature

theorem accesses_writer (hc : o.cls.WellFormed) (h : attr ∈ o.cls.attributes) :
    o.Accesses attr (writerSignature attr) where
  refuses args e := by
    show (o.send (writerName attr) args).1 = .error e ↔ _
    by_cases ha : args.length = 1
    · obtain ⟨v, rfl⟩ := List.length_eq_one_iff.mp ha
      simp [send_writer hc h, Signature.bind_writer]
    · rw [send_writer_of_ne hc h ha, Signature.bind_writer_of_ne attr args ha]
      simp
  reads _ _ he := absurd he.symm readerSignature_ne_writerSignature
  writes args bound _ hb := by
    by_cases ha : args.length = 1
    · obtain ⟨v, rfl⟩ := List.length_eq_one_iff.mp ha
      rw [Signature.bind_writer] at hb
      cases hb
      have hw : attr ∈ (o.write attr v).cls.attributes := h
      refine ⟨v, by simp [BoundArgs.value?], send_writer hc h v, ?_⟩
      rw [get_of_mem hw, stored_write_self]
    · simp [Signature.bind_writer_of_ne attr args ha] at hb

end

end Object

-- ---------------------------------------------------------------------
-- Listed signatures
-- ---------------------------------------------------------------------

namespace Class

def Only (c : Class) (m : Method) : Prop :=
  m ∈ c.methods ∧ ∀ d ∈ c.methods, Method.Is m.kind m.name d → d = m

/-- What a listed signature promises of the class and of its objects. -/
structure Enforces (c : Class) (l : Listing) : Prop where
  accessor : l.role = .accessor → ∃ attr ∈ c.attributes,
    (l.signature = readerSignature attr ∨ l.signature = writerSignature attr) ∧
      ∀ o : Object, o.cls = c → o.Accesses attr l.signature
  singleton : l.role = .method .singleton → ∃ m run, c.Only m ∧ m.signature = l.signature ∧
    m.body = .singleton run ∧
    ∀ args, c.call l.signature.methodName args = (l.signature.bind args).bind run
  member : l.role = .method .member → c.Free l.signature.methodName →
    ∃ m run, c.Only m ∧ m.signature = l.signature ∧ m.body = .member run ∧
    ∀ o : Object, o.cls = c → ∀ args,
      o.send l.signature.methodName args = ((l.signature.bind args).bind (run o.receiver), o)

section
variable {c : Class} {m : Method} {l : Listing}

theorem WellFormed.only (hc : c.WellFormed) (hm : m ∈ c.methods) : c.Only m := by
  refine ⟨hm, fun d hd hk => ?_⟩
  have hfound : c.find? m.kind m.name = some m := hc.find?_eq_some_iff.mpr ⟨hm, rfl, rfl⟩
  exact Option.some.inj ((hc.find?_eq_some_iff.mpr ⟨hd, hk⟩).symm.trans hfound)

theorem WellFormed.enforces_method (hc : c.WellFormed) (hm : m ∈ c.methods) :
    c.Enforces ⟨c.name, .method m.kind, m.signature⟩ where
  accessor h := nomatch h
  singleton h := by
    have hk : m.kind = .singleton := Role.method.inj h
    have hfound : c.find? .singleton m.name = some m := hc.find?_eq_some_iff.mpr ⟨hm, hk, rfl⟩
    obtain ⟨run, hrun⟩ := run_of_singleton hk
    exact ⟨m, run, hc.only hm, rfl, hrun, call_of_find? hfound hrun⟩
  member h hf := by
    have hk : m.kind = .member := Role.method.inj h
    have hfound : c.find? .member m.name = some m := hc.find?_eq_some_iff.mpr ⟨hm, hk, rfl⟩
    obtain ⟨run, hrun⟩ := run_of_member hk
    refine ⟨m, run, hc.only hm, rfl, hrun, ?_⟩
    rintro o rfl
    exact Object.send_method hf hfound hrun

theorem WellFormed.enforces (hc : c.WellFormed) (hl : l ∈ c.listings) : c.Enforces l := by
  rcases mem_listings.mp hl with ⟨attr, ha, rfl | rfl⟩ | ⟨m, hm, rfl⟩
  · refine ⟨fun _ => ⟨attr, ha, .inl rfl, ?_⟩, nofun, nofun⟩
    rintro o rfl
    exact Object.accesses_reader ha
  · refine ⟨fun _ => ⟨attr, ha, .inr rfl, ?_⟩, nofun, nofun⟩
    rintro o rfl
    exact Object.accesses_writer hc ha
  · exact hc.enforces_method hm

end

end Class

/-- A listed signature says which arguments are taken and how the others are refused: by the
accessors, which do not bind their arguments, and by the methods that no accessor hides. -/
theorem Registry.listed_signatures_are_enforced {cs : List Class} (hcs : ∀ c ∈ cs, c.Built)
    {l : Listing} (hl : l ∈ (ofClasses cs).listings) :
    ∃ c, (ofClasses cs).get l.className = .ok c ∧ c.Enforces l := by
  obtain ⟨c, hget, hl⟩ := mem_listings.mp hl
  have hbuilt : c.Built := hcs c (get_ofClasses.mp hget).mem.1
  exact ⟨c, hget, hbuilt.wellFormed.enforces hl⟩

/-- The writer `x=` is listed and enforced although the class has a method of that name. -/
theorem Registry.point_enforced :
    let cs := [Foo.definition, Object.point]
    let writer : Listing := ⟨"Point", .accessor, writerSignature "x"⟩
    let label : Listing := ⟨"Point", .method .member, ⟨some "label", []⟩⟩
    let test : Listing := ⟨"Foo", .method .singleton, Foo.testSignature⟩
    (∀ c ∈ cs, c.Built) ∧
    writer ∈ (ofClasses cs).listings ∧ Object.point.Enforces writer ∧
    label ∈ (ofClasses cs).listings ∧ Object.point.Enforces label ∧ Object.point.Free "label" ∧
    test ∈ (ofClasses cs).listings ∧ Foo.definition.Enforces test := by
  intro cs writer label test
  have hpoint : (ofClasses cs).get "Point" = .ok Object.point := rfl
  have hfoo : (ofClasses cs).get "Foo" = .ok Foo.definition := rfl
  have hx : "x" ∈ Object.point.attributes := by decide +kernel
  have hwriter : writer ∈ (ofClasses cs).listings :=
    mem_listings.mpr ⟨_, hpoint, Class.mem_listings.mpr (.inl ⟨"x", hx, .inr rfl⟩)⟩
  have hlabel : label ∈ (ofClasses cs).listings :=
    mem_listings.mpr ⟨_, hpoint, Class.mem_listings.mpr
      (.inr ⟨_, List.mem_cons_of_mem _ List.mem_cons_self, rfl⟩)⟩
  have htest : test ∈ (ofClasses cs).listings :=
    mem_listings.mpr ⟨_, hfoo, Class.mem_listings.mpr (.inr ⟨_, List.mem_cons_self, rfl⟩)⟩
  have hfree : ∀ a ∈ Object.point.attributes, a ≠ "label" ∧ writerName a ≠ "label" := by
    decide +kernel
  have henforces {l : Listing} {c : Class} (hl : l ∈ (ofClasses cs).listings)
      (hc : (ofClasses cs).get l.className = .ok c) : c.Enforces l := by
    obtain ⟨d, hd, h⟩ := listed_signatures_are_enforced built_foo_point hl
    obtain rfl : d = c := Except.ok.inj (hd.symm.trans hc)
    exact h
  exact ⟨built_foo_point, hwriter, henforces hwriter hpoint, hlabel, henforces hlabel hpoint,
    hfree, htest, henforces htest hfoo⟩

end Dispatch
