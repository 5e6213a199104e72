import Dispatch.Binding
import Dispatch.Proofs.Pairs

/-!
# Filling parameters one by one

`Step` is what the filling of one parameter can do: the value it binds, the surplus and the
arguments it leaves. `Fits` is the invariant of the filling, and under it the filling stops only
at a mandatory keyword that is missing (`fill_of_missing`, `fill_of_complete`); in particular it
never runs out of arguments, and at the end of the parameters none is left.
-/

namespace Dispatch.Signature

def Declares (sig : Signature) : Prop := ∃ p ∈ sig.params, ∃ d, p.kind = .keyword d

inductive Splits (sig : Signature) : List Value → List Value → Option Pairs → Prop
  | trailing : sig.Declares → Splits sig (vs ++ [.hash ps]) vs (some ps)
  | undeclared : ¬ sig.Declares → Splits sig vs vs none
  | plain : (∀ ws ps, vs ≠ ws ++ [.hash ps]) → Splits sig vs vs none

theorem hasKeywords_iff {sig : Signature} : sig.hasKeywords = true ↔ sig.Declares := by
  simp only [hasKeywords, List.any_eq_true, ParamKind.isKeyword_iff, Declares]

theorem splits_splitKeywords (sig : Signature) (args : List Value) :
    sig.Splits args (sig.splitKeywords args).1 (sig.splitKeywords args).2 := by
  unfold splitKeywords
  split
  · rename_i ps hlast
    obtain ⟨vs, rfl⟩ := List.getLast?_eq_some_iff.mp hlast
    split
    · rename_i hk
      rw [List.dropLast_concat]
      exact .trailing (hasKeywords_iff.mp hk)
    · rename_i hk
      exact .undeclared fun h => hk (hasKeywords_iff.mpr h)
  · rename_i hlast
    refine .plain ?_
    rintro ws ps rfl
    exact hlast ps (by simp)

theorem Splits.eq (h : Splits sig args positional keywords) :
    sig.splitKeywords args = (positional, keywords) := by
  cases h with
  | trailing hd => simp [splitKeywords, hasKeywords_iff.mpr hd]
  | undeclared hd =>
    have hk : sig.hasKeywords = false := by
      rw [← Bool.not_eq_true, hasKeywords_iff]
      exact hd
    unfold splitKeywords
    split
    · simp [hk]
    · rfl
  | plain hn =>
    unfold splitKeywords
    split
    · rename_i ps hlast
      obtain ⟨ws, rfl⟩ := List.getLast?_eq_some_iff.mp hlast
      exact absurd rfl (hn ws ps)
    · rfl

/-- `Step keywords p surplus vs v surplus' vs'`: the parameter is bound to `v`. -/
inductive Step (keywords : Pairs) :
    Param → Nat → List Value → Value → Nat → List Value → Prop
  | required : Step keywords ⟨n, .required⟩ surplus (v :: vs) v surplus vs
  | taken : Step keywords ⟨n, .optional d⟩ (surplus + 1) (v :: vs) v surplus vs
  | default : Step keywords ⟨n, .optional d⟩ 0 vs d.toValue 0 vs
  | given : keywords.Last (.symbol n) v →
      Step keywords ⟨n, .keyword d⟩ surplus vs v surplus vs
  | absent : ¬ keywords.Has (.symbol n) →
      Step keywords ⟨n, .keyword (some d)⟩ surplus vs d.toValue surplus vs

def Missing (keywords : Pairs) (p : Param) : Prop :=
  p.kind = .keyword none ∧ ¬ keywords.Has (.symbol p.name)

theorem fill_of_step (h : Step keywords p surplus vs v surplus' vs') :
    fill keywords (p :: ps) surplus vs =
      (fill keywords ps surplus' vs').map ((p.name, v) :: ·) := by
  have cons (x : Except Error (List (String × Value))) (e : String × Value) :
      (do let es ← x; .ok (e :: es)) = x.map (e :: ·) := by cases x <;> rfl
  cases h with
  | given hl => simp only [fill, Pairs.lookup_symbol_eq_some_iff.mpr hl, cons]
  | absent hn => simp only [fill, Pairs.lookup_symbol_eq_none_iff.mpr hn, cons]
  | _ => simp only [fill, cons]

theorem fill_of_missing (h : Missing keywords p) :
    fill keywords (p :: ps) surplus vs = .error (.missingKeyword p.name) := by
  obtain ⟨name, kind⟩ := p
  obtain ⟨rfl, hn⟩ := h
  simp only [fill, Pairs.lookup_symbol_eq_none_iff.mpr hn]

-- ---------------------------------------------------------------------
-- The invariant
-- ---------------------------------------------------------------------

/-- The arguments are those of the required parameters and the surplus, and there are optional
parameters enough for the surplus. -/
structure Fits (ps : List Param) (surplus : Nat) (vs : List Value) : Prop where
  length : vs.length = ps.countP (·.kind.isRequired) + surplus
  le : surplus ≤ ps.countP (·.kind.isOptional)

theorem Fits.nil (h : Fits [] surplus vs) : vs = [] := by
  have hl := h.length
  have hs := h.le
  simp only [List.countP_nil] at hl hs
  exact List.eq_nil_of_length_eq_zero (by omega)

theorem Fits.step (hf : Fits (p :: ps) surplus vs) (hm : ¬ Missing keywords p) :
    ∃ v surplus' vs', Step keywords p surplus vs v surplus' vs' ∧ Fits ps surplus' vs' := by
  obtain ⟨hl, hs⟩ := hf
  obtain ⟨n, kind⟩ := p
  simp only [List.countP_cons] at hl hs
  cases kind with
  | required =>
    simp only [ParamKind.isRequired_required, ParamKind.isOptional_required] at hl hs
    cases vs with
    | nil =>
      simp at hl
      omega
    | cons v vs => exact ⟨v, surplus, vs, .required, by simp at hl; omega, by simpa using hs⟩
  | optional d =>
    simp only [ParamKind.isRequired_optional, ParamKind.isOptional_optional] at hl hs
    cases surplus with
    | zero => exact ⟨d.toValue, 0, vs, .default, by simpa using hl, Nat.zero_le _⟩
    | succ surplus =>
      cases vs with
      | nil => simp at hl
      | cons v vs => exact ⟨v, surplus, vs, .taken, by simp at hl; omega, by simpa using hs⟩
  | keyword d =>
    have rest : Fits ps surplus vs := ⟨by simpa using hl, by simpa using hs⟩
    cases hv : Pairs.lookup keywords (.symbol n) with
    | some v => exact ⟨v, surplus, vs, .given (Pairs.lookup_symbol_eq_some_iff.mp hv), rest⟩
    | none =>
      have hn := Pairs.lookup_symbol_eq_none_iff.mp hv
      cases d with
      | none => exact absurd ⟨rfl, hn⟩ hm
      | some d => exact ⟨d.toValue, surplus, vs, .absent hn, rest⟩

theorem fill_cons_ok (hf : Fits (p :: ps) surplus vs)
    (h : fill keywords (p :: ps) surplus vs = .ok entries) :
    ∃ v surplus' vs' rest, Step keywords p surplus vs v surplus' vs' ∧ Fits ps surplus' vs' ∧
      fill keywords ps surplus' vs' = .ok rest ∧ entries = (p.name, v) :: rest := by
  by_cases hm : Missing keywords p
  · rw [fill_of_missing hm] at h
    cases h
  · obtain ⟨v, surplus', vs', hstep, hf'⟩ := hf.step hm
    rw [fill_of_step hstep] at h
    cases hrest : fill keywords ps surplus' vs' with
    | error e => simp [hrest, Except.map] at h
    | ok rest =>
      rw [hrest] at h
      cases h
      exact ⟨v, surplus', vs', rest, hstep, hf', hrest, rfl⟩

-- ---------------------------------------------------------------------
-- The whole binding
-- ---------------------------------------------------------------------

theorem fits_iff_accepts {sig : Signature} {vs : List Value} :
    Fits sig.params (vs.length - sig.arity.required) vs ↔ sig.arity.accepts vs.length = true := by
  simp only [Arity.accepts_iff, Arity.most, arity]
  constructor
  · rintro ⟨hl, hs⟩
    omega
  · rintro ⟨hr, ho⟩
    exact ⟨by omega, by omega⟩

theorem bind_of_not_accepts (hs : Splits sig args positional keywords)
    (ha : ¬ sig.arity.accepts positional.length = true) :
    sig.bind args = .error (.arity positional.length sig.arity) := by
  simp only [bind, hs.eq, if_neg ha]

theorem bind_of_fill_error (hs : Splits sig args positional keywords)
    (ha : sig.arity.accepts positional.length = true)
    (hf : fill (keywords.getD []) sig.params (positional.length - sig.arity.required) positional =
      .error e) : sig.bind args = .error e := by
  simp only [bind, hs.eq, if_pos ha, hf]
  rfl

theorem bind_of_fill_ok (hs : Splits sig args positional keywords)
    (ha : sig.arity.accepts positional.length = true)
    (hf : fill (keywords.getD []) sig.params (positional.length - sig.arity.required) positional =
      .ok entries) :
    sig.bind args = match sig.unknownKey (keywords.getD []) with
      | none => .ok ⟨entries⟩
      | some key => .error (.unknownKeyword key.keyText) := by
  simp only [bind, hs.eq, if_pos ha, hf]
  rfl

theorem fill_of_bind_ok (hs : Splits sig args positional keywords)
    (h : sig.bind args = .ok bound) :
    Fits sig.params (positional.length - sig.arity.required) positional ∧
      fill (keywords.getD []) sig.params (positional.length - sig.arity.required) positional =
        .ok bound.entries := by
  by_cases ha : sig.arity.accepts positional.length = true
  · refine ⟨fits_iff_accepts.mpr ha, ?_⟩
    cases hf : fill (keywords.getD []) sig.params (positional.length - sig.arity.required)
        positional with
    | error e =>
      rw [bind_of_fill_error hs ha hf] at h
      cases h
    | ok entries =>
      rw [bind_of_fill_ok hs ha hf] at h
      split at h
      · cases h
        rfl
      · cases h
  · rw [bind_of_not_accepts hs ha] at h
    cases h

end Dispatch.Signature
