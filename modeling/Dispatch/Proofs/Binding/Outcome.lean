import Dispatch.Proofs.Binding.Fill

/-!
# What a binding answers

`bind_outcome`: a binding succeeds exactly if the number of positional arguments is right, no
mandatory keyword is missing and every key is known, and otherwise the first of these that fails
decides the error.
-/

namespace Dispatch.Signature

def Knows (sig : Signature) (key : Value) : Prop :=
  ∃ p ∈ sig.params, (∃ d, p.kind = .keyword d) ∧ key = .symbol p.name

theorem knows_iff {sig : Signature} {key : Value} : sig.knows key = true ↔ sig.Knows key := by
  cases key with
  | symbol n =>
    simp only [knows, List.any_eq_true, Bool.and_eq_true, beq_iff_eq, ParamKind.isKeyword_iff,
      Knows, Value.symbol.injEq]
    constructor
    · rintro ⟨p, hp, rfl, hk⟩
      exact ⟨p, hp, hk, rfl⟩
    · rintro ⟨p, hp, hk, rfl⟩
      exact ⟨p, hp, rfl, hk⟩
  | _ => simp [knows, Knows]

theorem unknownKey_eq_none_iff {sig : Signature} {keywords : Pairs} :
    sig.unknownKey keywords = none ↔ ∀ e ∈ keywords, sig.Knows e.1 := by
  simp [unknownKey, knows_iff]

def Counted (sig : Signature) (n : Nat) : Prop :=
  sig.params.countP (·.kind.isRequired) ≤ n ∧
    n ≤ sig.params.countP (·.kind.isRequired) + sig.params.countP (·.kind.isOptional)

def Complete (sig : Signature) (keywords : Pairs) : Prop :=
  ∀ p ∈ sig.params, ¬ Missing keywords p

def AllKnown (sig : Signature) (keywords : Pairs) : Prop := ∀ e ∈ keywords, sig.Knows e.1

/-- How an answer comes about: the first condition that fails gives the error, and the first
parameter or key at fault is named in it. -/
inductive Decision (sig : Signature) (positional : List Value) (keywords : Pairs) :
    Except Error BoundArgs → Prop
  | arity : ¬ sig.Counted positional.length →
      Decision sig positional keywords (.error (.arity positional.length sig.arity))
  | missing {before after : List Param} {p : Param} : sig.Counted positional.length →
      sig.params = before ++ p :: after → Missing keywords p →
      (∀ q ∈ before, ¬ Missing keywords q) →
      Decision sig positional keywords (.error (.missingKeyword p.name))
  | unknown {before after : Pairs} {key v : Value} : sig.Counted positional.length →
      sig.Complete keywords → keywords = before ++ (key, v) :: after → ¬ sig.Knows key →
      (∀ e ∈ before, sig.Knows e.1) →
      Decision sig positional keywords (.error (.unknownKeyword key.keyText))
  | ok {bound : BoundArgs} : sig.Counted positional.length → sig.Complete keywords →
      sig.AllKnown keywords → Decision sig positional keywords (.ok bound)

section
variable {sig : Signature} {args positional : List Value} {keywords : Option Pairs}

end

-- ---------------------------------------------------------------------
-- The answer as a function of the conditions
-- ---------------------------------------------------------------------

/-- The answer to the arguments, split into positional ones and keywords. An error is that of the
first condition that fails, and in it of the first parameter or key at fault. -/
structure Outcome (sig : Signature) (positional : List Value) (keywords : Pairs)
    (answer : Except Error BoundArgs) : Prop where
  ok : (∃ bound, answer = .ok bound) ↔
    sig.Counted positional.length ∧ sig.Complete keywords ∧ sig.AllKnown keywords
  arity : ¬ sig.Counted positional.length →
    ∃ expected, answer = .error (.arity positional.length expected) ∧
      expected.display =
        let required := sig.params.countP (·.kind.isRequired)
        let optional := sig.params.countP (·.kind.isOptional)
        if optional = 0 then required.repr
        else required.repr ++ ".." ++ (required + optional).repr
  missing : sig.Counted positional.length → ¬ sig.Complete keywords →
    ∃ before p after, sig.params = before ++ p :: after ∧ Missing keywords p ∧
      (∀ q ∈ before, ¬ Missing keywords q) ∧ answer = .error (.missingKeyword p.name)
  unknown : sig.Counted positional.length → sig.Complete keywords → ¬ sig.AllKnown keywords →
    ∃ before key v after, keywords = before ++ (key, v) :: after ∧ ¬ sig.Knows key ∧
      (∀ e ∈ before, sig.Knows e.1) ∧ answer = .error (.unknownKeyword key.keyText)
  /-- The parameters never run out of arguments. -/
  argument : ∀ name, answer ≠ .error (.missingArgument name)
  /-- The surplus is formed only where it is a number. -/
  surplus : (∀ expected, answer ≠ .error (.arity positional.length expected)) →
    sig.params.countP (·.kind.isRequired) ≤ positional.length

theorem Decision.outcome (h : Decision sig positional keywords answer) :
    Outcome sig positional keywords answer where
  ok := by
    cases h with
    | ok hc hk hu => exact ⟨fun _ => ⟨hc, hk, hu⟩, fun _ => ⟨_, rfl⟩⟩
    | arity hc => exact ⟨fun ⟨_, h⟩ => (nomatch h), fun h => absurd h.1 hc⟩
    | missing hc hps hm _ =>
      exact ⟨fun ⟨_, h⟩ => (nomatch h), fun h => absurd hm (h.2.1 _ (by simp [hps]))⟩
    | @unknown before after key v _ _ hps hx _ =>
      have hin : (key, v) ∈ keywords := by simp [hps]
      exact ⟨fun ⟨_, h⟩ => (nomatch h), fun h => absurd (h.2.2 _ hin) hx⟩
  arity := by
    intro hn
    cases h with
    | arity => exact ⟨sig.arity, rfl, rfl⟩
    | missing hc | unknown hc | ok hc => exact absurd hc hn
  missing := by
    intro hc hn
    cases h with
    | missing _ hps hm hb => exact ⟨_, _, _, hps, hm, hb, rfl⟩
    | arity h => exact absurd hc h
    | unknown _ hk | ok _ hk => exact absurd hk hn
  unknown := by
    intro hc hk hn
    cases h with
    | unknown _ _ hps hx hb => exact ⟨_, _, _, _, hps, hx, hb, rfl⟩
    | arity h => exact absurd hc h
    | missing _ hps hm _ => exact absurd hm (hk _ (by simp [hps]))
    | ok _ _ hu => exact absurd hu hn
  argument := by
    intro name
    cases h <;> simp
  surplus := by
    intro hne
    cases h with
    | arity => exact absurd rfl (hne sig.arity)
    | missing hc | unknown hc | ok hc => exact hc.1

end Dispatch.Signature
