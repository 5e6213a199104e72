import Dispatch.Class
import Dispatch.Proofs.Grammar.Words
import Mathlib.Data.List.Induction
import Mathlib.Data.List.Nodup

/-!
# Building classes

A class is built by declaring attributes and defining methods one after the other; what fails is
skipped. `revise_eq` says all that a step can do, and `WellFormed` is what every step preserves: the
attributes are distinct words, and no two methods of a kind have the same name.
-/

namespace Dispatch

namespace Method

def key (m : Method) : MethodKind × String := (m.kind, m.name)

def Is (kind : MethodKind) (name : String) (m : Method) : Prop := m.kind = kind ∧ m.name = name

instance (kind : MethodKind) (name : String) (m : Method) : Decidable (Is kind name m) :=
  inferInstanceAs (Decidable (_ ∧ _))

section
variable {m : Method} {kind : MethodKind} {name : String}

theorem answersTo_iff : m.answersTo kind name = true ↔ Is kind name m := by
  simp [answersTo, Is]

theorem key_eq_iff : m.key = (kind, name) ↔ Is kind name m := Prod.ext_iff

end

theorem mem_put (h : d ∈ put m ms) : d = m ∨ d ∈ ms := by
  induction ms with
  | nil => simpa [put] using h
  | cons old ms ih =>
    simp only [put] at h
    split at h <;> simp only [List.mem_cons] at h ⊢
    · exact h.imp_right .inr
    · rcases h with rfl | h
      · exact .inr (.inl rfl)
      · exact (ih h).imp_right .inr

theorem keys_put (m : Method) (ms : List Method) : (put m ms).map key =
    if m.key ∈ ms.map key then ms.map key else ms.map key ++ [m.key] := by
  induction ms with
  | nil => simp [put]
  | cons old ms ih =>
    by_cases ho : old.answersTo m.kind m.name = true
    · have hk : old.key = m.key := key_eq_iff.mpr (answersTo_iff.mp ho)
      simp [put, ho, hk]
    · have hk : ¬ m.key = old.key := fun hk => ho (answersTo_iff.mpr (key_eq_iff.mp hk.symm))
      simp only [put, if_neg ho, List.map_cons, ih, List.mem_cons, hk, false_or]
      split <;> rfl

theorem find?_put (m : Method) (ms : List Method) (kind : MethodKind) (name : String) :
    (put m ms).find? (·.answersTo kind name) =
      if Is kind name m then some m else ms.find? (·.answersTo kind name) := by
  simp only [← answersTo_iff]
  induction ms with
  | nil =>
    simp only [put, List.find?_cons]
    cases m.answersTo kind name <;> rfl
  | cons old ms ih =>
    by_cases ho : old.answersTo m.kind m.name = true
    · have hk : old.answersTo kind name = m.answersTo kind name := by
        obtain ⟨hkind, hname⟩ := answersTo_iff.mp ho
        simp [answersTo, hkind, hname]
      simp only [put, if_pos ho, List.find?_cons, hk]
      cases m.answersTo kind name <;> rfl
    · simp only [put, if_neg ho, List.find?_cons, ih]
      cases hold : old.answersTo kind name with
      | false => rfl
      | true =>
        have hm : ¬ m.answersTo kind name = true := by
          intro hm
          obtain ⟨rfl, rfl⟩ := answersTo_iff.mp hm
          exact ho hold
        simp [hm]

end Method

-- ---------------------------------------------------------------------
-- Steps
-- ---------------------------------------------------------------------

inductive Edit
  | declare (attr : String)
  | define (fnName signature : String) (body : Body)

namespace Edit

def declared? : Edit → Option String
  | .declare attr => if Form.Word attr.toList attr then some attr else none
  | .define .. => none

/-- The method that is defined, if its signature parses. The name in the signature goes before
the function's. -/
def defined? : Edit → Option Method
  | .declare _ => none
  | .define fnName signature body =>
    match Signature.parse signature with
    | .ok sig => some ⟨fnName, ⟨some (sig.name.getD fnName), sig.params⟩, body⟩
    | .error _ => none

section
variable {attr fnName signature : String} {body : Body}

theorem defined?_declare : defined? (.declare attr) = none := rfl

theorem defined?_of_ok (h : Signature.parse signature = .ok sig) :
    defined? (.define fnName signature body) =
      some ⟨fnName, ⟨some (sig.name.getD fnName), sig.params⟩, body⟩ := by
  unfold defined?
  simp only [h]

theorem defined?_of_error (h : Signature.parse signature = .error e) :
    defined? (.define fnName signature body) = none := by
  unfold defined?
  simp only [h]

end

end Edit

namespace Class

def edit (c : Class) : Edit → Except Error Class
  | .declare attr => c.declare attr
  | .define fnName signature body => c.define fnName signature body

/-- A step that fails changes nothing. -/
def revise (c : Class) (e : Edit) : Class :=
  match c.edit e with
  | .ok after => after
  | .error _ => c

def build (name : String) (edits : List Edit) : Class := edits.foldl revise (empty name)

theorem build_concat (name : String) (edits : List Edit) (e : Edit) :
    build name (edits ++ [e]) = (build name edits).revise e := by simp [build]

def Built (c : Class) : Prop := ∃ name edits, c = build name edits

section
variable (c : Class) (attr fnName : String) (body : Body)

theorem declare_of_word (h : Form.Word attr.toList attr) : c.declare attr =
    .ok (if attr ∈ c.attributes then c
      else { c with attributes := c.attributes ++ [attr] }) := by
  rw [declare, if_pos (Scan.isIdentifier_iff.mpr h)]

theorem declare_of_not_word (h : ¬ Form.Word attr.toList attr) :
    c.declare attr = .error (.invalidName attr) := by
  rw [declare, if_neg fun hi => h (Scan.isIdentifier_iff.mp hi)]

theorem declare_eq_error_iff {e : Error} : c.declare attr = .error e ↔
    ¬ Form.Word attr.toList attr ∧ e = .invalidName attr := by
  by_cases h : Form.Word attr.toList attr
  · simp [declare_of_word c attr h, h]
  · simp [declare_of_not_word c attr h, h, eq_comm]

theorem define_of_ok (h : Signature.parse signature = .ok sig) : c.define fnName signature body =
    .ok { c with methods := Method.put ⟨fnName, sig.named fnName, body⟩ c.methods } := by
  simp only [define, h]
  rfl

theorem define_of_error (h : Signature.parse signature = .error e) :
    c.define fnName signature body = .error e := by
  simp only [define, h]
  rfl

theorem define_eq_error_iff {signature : String} {e : Error} :
    c.define fnName signature body = .error e ↔ Signature.parse signature = .error e := by
  cases h : Signature.parse signature with
  | ok sig => simp [define_of_ok c fnName body h]
  | error e' => simp [define_of_error c fnName body h]

/-- A step adds an attribute that is new, puts a method among the others, or fails. -/
theorem revise_eq (e : Edit) : c.revise e = {
    name := c.name
    attributes := match e.declared? with
      | some a => if a ∈ c.attributes then c.attributes else c.attributes ++ [a]
      | none => c.attributes
    methods := match e.defined? with
      | some m => Method.put m c.methods
      | none => c.methods } := by
  cases e with
  | declare attr =>
    by_cases h : Form.Word attr.toList attr
    · simp only [revise, edit, declare_of_word c attr h, Edit.declared?, Edit.defined?_declare,
        if_pos h]
      split <;> rfl
    · simp only [revise, edit, declare_of_not_word c attr h, Edit.declared?,
        Edit.defined?_declare, if_neg h]
  | define fnName signature body =>
    cases h : Signature.parse signature with
    | ok sig =>
      simp only [revise, edit, define_of_ok c fnName body h, Edit.declared?, Edit.defined?_of_ok h]
      rfl
    | error e =>
      simp only [revise, edit, define_of_error c fnName body h, Edit.declared?,
        Edit.defined?_of_error h]

end

-- ---------------------------------------------------------------------
-- The invariant
-- ---------------------------------------------------------------------

structure WellFormed (c : Class) : Prop where
  words : ∀ a ∈ c.attributes, Form.Word a.toList a
  attributes : c.attributes.Nodup
  methods : (c.methods.map Method.key).Nodup
  named : ∀ m ∈ c.methods, ∃ n, m.signature.name = some n
  params : ∀ m ∈ c.methods, (m.signature.params.map Param.name).Nodup

theorem wellFormed_empty (name : String) : (empty name).WellFormed :=
  ⟨by simp [empty], by simp [empty], by simp [empty], by simp [empty], by simp [empty]⟩

theorem word_of_declared (h : Edit.declared? e = some a) : Form.Word a.toList a := by
  cases e with
  | declare attr =>
    simp only [Edit.declared?, Option.ite_none_right_eq_some, Option.some.injEq] at h
    exact h.2 ▸ h.1
  | define => simp [Edit.declared?] at h

theorem signature_of_defined (h : Edit.defined? e = some m) :
    (∃ n, m.signature.name = some n) ∧ (m.signature.params.map Param.name).Nodup := by
  cases e with
  | declare => rw [Edit.defined?_declare] at h; cases h
  | define fnName signature body =>
    cases hsig : Signature.parse signature with
    | ok sig =>
      rw [Edit.defined?_of_ok hsig] at h
      cases h
      have hn := Signature.names_nodup_of_parse hsig
      exact ⟨⟨_, rfl⟩, hn⟩
    | error e =>
      rw [Edit.defined?_of_error hsig] at h
      cases h

theorem WellFormed.declare {c : Class} (hc : c.WellFormed) (ha : Form.Word a.toList a) :
    WellFormed { c with attributes :=
      if a ∈ c.attributes then c.attributes else c.attributes ++ [a] } := by
  by_cases hm : a ∈ c.attributes
  · simpa [hm] using hc
  · refine ⟨?_, ?_, hc.methods, hc.named, hc.params⟩
    · simpa [hm, or_imp, forall_and] using ⟨hc.words, ha⟩
    · simpa [hm, List.nodup_append] using ⟨hc.attributes, fun b hb he => hm (he ▸ hb)⟩

theorem WellFormed.define {c : Class} (hc : c.WellFormed) (hm : Edit.defined? e = some m) :
    WellFormed { c with methods := Method.put m c.methods } := by
  obtain ⟨hname, hparams⟩ := signature_of_defined hm
  refine ⟨hc.words, hc.attributes, ?_, ?_, ?_⟩
  · dsimp only
    rw [Method.keys_put]
    split
    · exact hc.methods
    · rename_i hk
      simpa [List.nodup_append] using ⟨hc.methods, fun d hd he => hk (by simpa using ⟨d, hd, he⟩)⟩
  · intro d hd
    rcases Method.mem_put hd with rfl | hd
    · exact hname
    · exact hc.named d hd
  · intro d hd
    rcases Method.mem_put hd with rfl | hd
    · exact hparams
    · exact hc.params d hd

theorem WellFormed.revise {c : Class} (hc : c.WellFormed) (e : Edit) : (c.revise e).WellFormed := by
  rw [revise_eq]
  cases hd : e.declared? with
  | some a =>
    cases hm : e.defined? with
    | some m => exact (hc.declare (word_of_declared hd)).define hm
    | none => exact hc.declare (word_of_declared hd)
  | none =>
    cases hm : e.defined? with
    | some m => exact hc.define hm
    | none => exact hc

theorem wellFormed_build (name : String) (edits : List Edit) : (build name edits).WellFormed := by
  induction edits using List.reverseRecOn with
  | nil => exact wellFormed_empty name
  | append_singleton edits e ih =>
    rw [build_concat]
    exact ih.revise e

theorem Built.wellFormed (h : Built c) : c.WellFormed := by
  obtain ⟨name, edits, rfl⟩ := h
  exact wellFormed_build name edits

section
variable {c : Class} {kind : MethodKind} {name : String} {m : Method}

theorem find?_some (h : c.find? kind name = some m) : m ∈ c.methods ∧ Method.Is kind name m := by
  have hm := List.find?_some (p := fun d : Method => d.answersTo kind name) h
  exact ⟨List.mem_of_find?_eq_some h, Method.answersTo_iff.mp hm⟩

theorem exists_find? :
    (∃ m, c.find? kind name = some m) ↔ ∃ m ∈ c.methods, Method.Is kind name m := by
  rw [← Option.isSome_iff_exists, find?, List.find?_isSome]
  simp only [Method.answersTo_iff]

theorem WellFormed.find?_eq_some_iff (hc : c.WellFormed) :
    c.find? kind name = some m ↔ m ∈ c.methods ∧ Method.Is kind name m := by
  refine ⟨find?_some, ?_⟩
  rintro ⟨hm, hk⟩
  cases h : c.find? kind name with
  | none => exact absurd (Method.answersTo_iff.mpr hk) (List.find?_eq_none.mp h m hm)
  | some d =>
    obtain ⟨hd, hdk⟩ := find?_some h
    have he : d.key = m.key := (Method.key_eq_iff.mpr hdk).trans (Method.key_eq_iff.mpr hk).symm
    rw [List.inj_on_of_nodup_map hc.methods hd hm he]

end

end Class

end Dispatch
