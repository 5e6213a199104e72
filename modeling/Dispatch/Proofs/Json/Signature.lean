import Dispatch.Proofs.Display.Signature
import Dispatch.Proofs.Json.Short

/-!
# Signatures read back from JSON

A signature is read back from its JSON text if its float defaults are finite, and no signature is
read from it otherwise: `Signature.ofJsonText?_jsonText`. Names and texts may be of any characters.
That a finite default is read back as a number is a hypothesis on its own text; it holds if the
decimals of the defaults are short.
-/

namespace Dispatch

open Json (Faithful ReadsBack)

theorem Json.Faithful.one {word : String} {j : Json} (h : Faithful j) :
    Faithful (.object [(word, j)]) := .object (by simpa using h)

namespace Literal

def isFinite : Literal → Bool
  | .float x => x.isFinite
  | _ => true

def FloatsReadBack (l : Literal) : Prop := ∀ x, l = .float x → x.isFinite = true → ReadsBack x

theorem faithful_toJson {l : Literal} (h : l.FloatsReadBack) : Faithful l.toJson := by
  cases l with
  | nil => exact .string _
  | boolean b => exact .one (.bool b)
  | integer i =>
    have hsize : Int64.maxValue.toInt < UInt64.size := by decide
    exact .one (.integer i.minValue_le_toInt (Int.lt_of_le_of_lt i.toInt_le hsize))
  | float x =>
    rw [toJson, Json.ofDouble]
    split
    · rename_i hx
      exact .one (.real (h x rfl hx))
    · exact .one .null
  | string text => exact .one (.string text)
  | symbol name => exact .one (.string name)

theorem ofJson?_toJson (l : Literal) :
    ofJson? l.toJson = if l.isFinite then some l else none := by
  cases l with
  | integer i =>
    have hinteger : ofJson? (integer i).toJson = (Json.int64? (.integer i.toInt)).map .integer :=
      rfl
    rw [hinteger, Json.int64?, if_pos ⟨i.minValue_le_toInt, i.toInt_le⟩, Int64.ofInt_toInt]
    rfl
  | float x =>
    have hfloat : ofJson? (float x).toJson = (Json.ofDouble x).double?.map .float := rfl
    rw [hfloat, Json.ofDouble, isFinite]
    cases hx : x.isFinite
    · rfl
    · simp [Json.double?, hx]
  | _ => rfl

end Literal

-- ---------------------------------------------------------------------
-- Parameters
-- ---------------------------------------------------------------------

theorem ParamKind.faithful_toJson {kind : ParamKind} (h : ∀ d ∈ kind.default?, d.FloatsReadBack) :
    Faithful kind.toJson := by
  cases kind with
  | required => exact .string _
  | optional d => exact .one (Literal.faithful_toJson (h d rfl))
  | keyword k =>
    cases k with
    | none => exact .one .null
    | some d => exact .one (Literal.faithful_toJson (h d rfl))

theorem ParamKind.ofJson?_toJson (kind : ParamKind) :
    ofJson? kind.toJson = if kind.default?.all Literal.isFinite then some kind else none := by
  cases kind with
  | required => rfl
  | optional d =>
    have hd : ofJson? (optional d).toJson = (Literal.ofJson? d.toJson).map .optional := rfl
    rw [hd, Literal.ofJson?_toJson, default?, Option.all_some]
    split <;> rfl
  | keyword k =>
    cases k with
    | none => rfl
    | some d =>
      -- no default is written as the null of a keyword without one
      have hd : ofJson? (keyword (some d)).toJson =
          (Literal.ofJson? d.toJson).map fun d => .keyword (some d) := by cases d <;> rfl
      rw [hd, Literal.ofJson?_toJson, default?, Option.all_some]
      split <;> rfl

namespace Param

def isFinite (p : Param) : Bool := p.kind.default?.all Literal.isFinite

theorem ofJson?_toJson (p : Param) :
    ofJson? p.toJson = if p.isFinite then some p else none := by
  have hparts : ofJson? p.toJson = ofParts? (.string p.name) p.kind.toJson := rfl
  rw [hparts, ofParts?, ParamKind.ofJson?_toJson, isFinite]
  cases p.kind.default?.all Literal.isFinite <;> rfl

theorem mapM_ofJson?_toJson (ps : List Param) :
    (ps.map toJson).mapM ofJson? = if ps.all isFinite then some ps else none := by
  induction ps with
  | nil => rfl
  | cons p ps ih =>
    rw [List.map_cons, List.mapM_cons, ofJson?_toJson, ih, List.all_cons]
    cases p.isFinite <;> cases ps.all isFinite <;> rfl

end Param

-- ---------------------------------------------------------------------
-- Signatures
-- ---------------------------------------------------------------------

namespace Signature

def isFinite (sig : Signature) : Bool := sig.params.all Param.isFinite

def HasFloat (sig : Signature) (x : Double) : Prop :=
  ∃ p ∈ sig.params, p.kind.default? = some (.float x)

variable {sig : Signature}

theorem isFinite_iff : sig.isFinite = true ↔ ∀ x, sig.HasFloat x → x.isFinite = true := by
  have hparam : ∀ p : Param, p.isFinite = true ↔
      ∀ x, p.kind.default? = some (.float x) → x.isFinite = true := by
    intro p
    rw [Param.isFinite]
    cases hd : p.kind.default? with
    | none => simp
    | some d => cases d <;> simp [Literal.isFinite]
  simp only [isFinite, List.all_eq_true, hparam, HasFloat]
  exact ⟨fun h x ⟨p, hp, hx⟩ => h p hp x hx, fun h p hp x hx => h x ⟨p, hp, hx⟩⟩

theorem ofJson?_toJson (sig : Signature) :
    ofJson? sig.toJson = if sig.isFinite then some sig else none := by
  obtain ⟨name, params⟩ := sig
  have hparts : ofJson? (toJson ⟨name, params⟩) =
      ((params.map Param.toJson).mapM Param.ofJson?).map (⟨name, ·⟩) := by
    cases name <;> rfl
  rw [hparts, Param.mapM_ofJson?_toJson, isFinite]
  cases params.all Param.isFinite <;> rfl

/-- Every finite float among the defaults is read back from its text. -/
def FloatsReadBack (sig : Signature) : Prop :=
  ∀ x, sig.HasFloat x → x.isFinite = true → ReadsBack x

theorem floatsReadBack_of_short (h : ∀ negative rank, sig.HasFloat (.finite negative rank) →
    (Double.shortest Json.numberStyle.tie rank).Short) : sig.FloatsReadBack := by
  intro x hx hfinite
  cases x with
  | finite negative rank => exact Json.readsBack_of_short (h negative rank hx)
  | _ => cases hfinite

theorem faithful_toJson (h : sig.FloatsReadBack) : Faithful sig.toJson := by
  have hparam : ∀ p ∈ sig.params, Faithful p.toJson := by
    intro p hp
    have hkind : Faithful p.kind.toJson := by
      refine ParamKind.faithful_toJson fun d hd x hx => h x ⟨p, hp, ?_⟩
      rw [hd, hx]
    exact .object (by simpa using ⟨.string p.name, hkind⟩)
  have hparams : Faithful (.array (sig.params.map Param.toJson)) :=
    .array (by simpa using hparam)
  obtain ⟨name, params⟩ := sig
  cases name with
  | none => exact .object (by simpa using ⟨.null, hparams⟩)
  | some name => exact .object (by simpa using ⟨.string name, hparams⟩)

theorem ofJsonText?_of_floatsReadBack (h : sig.FloatsReadBack) :
    ofJsonText? sig.jsonText = if sig.isFinite then some sig else none := by
  rw [ofJsonText?, jsonText, Json.compactText, String.toList_ofList,
    Json.read?_compact (faithful_toJson h), Option.bind_some, ofJson?_toJson]

/-- A signature is read back from its JSON text as itself if all float defaults are finite, and
nothing is read from the text of any other. So no two signatures have one text, unless both have
a float that is not finite. -/
theorem ofJsonText?_jsonText {sig : Signature} (h : sig.FloatsReadBack) :
    ((∀ x, sig.HasFloat x → x.isFinite = true) → ofJsonText? sig.jsonText = some sig) ∧
    ((∃ x, sig.HasFloat x ∧ x.isFinite = false) → ofJsonText? sig.jsonText = none) ∧
    ∀ sig' : Signature, sig'.FloatsReadBack → (∀ x, sig'.HasFloat x → x.isFinite = true) →
      sig'.jsonText = sig.jsonText → sig' = sig := by
  have hread := ofJsonText?_of_floatsReadBack h
  refine ⟨fun hfinite => ?_, fun ⟨x, hx, hx'⟩ => ?_, fun sig' h' hfinite htext => ?_⟩
  · rw [hread, if_pos (isFinite_iff.mpr hfinite)]
  · have hnot : ¬ sig.isFinite = true := fun hall => by
      rw [isFinite_iff.mp hall x hx] at hx'
      cases hx'
    rw [hread, if_neg hnot]
  · have hread' := ofJsonText?_of_floatsReadBack h'
    rw [htext, hread, if_pos (isFinite_iff.mpr hfinite)] at hread'
    split at hread'
    · exact (Option.some.inj hread').symm
    · cases hread'

/-- One text as a string, a symbol and a number, the two keywords without contents, both kinds of
nil, names that are no words, and no name beside the empty one. -/
theorem jsonText_of_every_kind :
    let sig (name : Option String) (x : Double) : Signature := ⟨name, [⟨"", .required⟩,
      ⟨"", .optional .nil⟩, ⟨"a b", .keyword none⟩, ⟨"\"\\\n\x01é😀", .keyword (some .nil)⟩,
      ⟨"s", .optional (.string "1.5")⟩, ⟨"s", .optional (.symbol "1.5")⟩,
      ⟨"i", .keyword (some (.integer (-1)))⟩, ⟨"f", .optional (.float x)⟩,
      ⟨"z", .keyword (some (.float (.finite true ⟨0, by decide⟩)))⟩]⟩
    let x : Double := .ofQuotient false 3 2
    (sig none x).FloatsReadBack ∧ ofJsonText? (sig none x).jsonText = some (sig none x) ∧
      (sig none .nan).FloatsReadBack ∧ ofJsonText? (sig none .nan).jsonText = none ∧
      (sig (some "") x).FloatsReadBack ∧ (sig (some "") x).jsonText ≠ (sig none x).jsonText := by
  intro sig x
  have hfloats : ∀ name y z, (sig name y).HasFloat z → z = y ∨ z = .finite true ⟨0, by decide⟩ := by
    intro name y z hz
    simpa [sig, HasFloat, ParamKind.default?, eq_comm] using hz
  have hfinite : ∀ name y, (sig name x).HasFloat y → y.isFinite = true := by
    intro name y hy
    rcases hfloats name x y hy with rfl | rfl <;> decide +kernel
  have hx : ∀ name, (sig name x).FloatsReadBack := by
    intro name y hy _
    rcases hfloats name x y hy with rfl | rfl <;> decide +kernel
  have hnan : (sig none .nan).FloatsReadBack := by
    intro y hy hy'
    rcases hfloats none .nan y hy with rfl | rfl
    · cases hy'
    · decide +kernel
  obtain ⟨hread, -, hsame⟩ := ofJsonText?_jsonText (hx none)
  have hnone := (ofJsonText?_jsonText hnan).2.1
    ⟨.nan, ⟨⟨"f", .optional (.float .nan)⟩, by simp [sig], rfl⟩, rfl⟩
  refine ⟨hx none, hread (hfinite none), hnan, hnone, hx (some ""), fun htext => ?_⟩
  cases congrArg Signature.name (hsame _ (hx (some "")) (hfinite (some "")) htext)

end Signature

end Dispatch
