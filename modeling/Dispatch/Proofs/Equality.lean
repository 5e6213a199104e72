import Dispatch.Literal
import Mathlib.Data.List.Forall2

/-!
# Equality of values

Values compare as hash keys do: floats as numbers and hashes pair by pair. The comparison is
symmetric and transitive. It is not reflexive, as a value with a NaN in it differs from itself, and
it is coarser than identity, as the two zeros are equal.
-/

namespace Dispatch

namespace Double

theorem beq_finite {s t : Bool} {r q : Fin ranks} :
    (finite s r == finite t q) = true ↔ r = q ∧ (s = t ∨ r.val = 0) := by
  simp [BEq.beq, beq]

theorem beq_comm (x y : Double) : (x == y) = (y == x) := by
  cases x <;> cases y <;> rw [Bool.eq_iff_iff]
  case finite.finite => grind [beq_finite]
  all_goals simp [BEq.beq, beq, eq_comm]

theorem beq_trans {x y z : Double} (h : (x == y) = true) (h' : (y == z) = true) :
    (x == z) = true := by
  cases x <;> cases y <;> try cases h
  all_goals cases z <;> try cases h'
  · simp_all [BEq.beq, beq]
  · grind [beq_finite]

end Double

namespace Value

@[elab_as_elim]
theorem literal_or_hash {motive : Value → Prop} (literal : ∀ l : Literal, motive l.toValue)
    (hash : ∀ ps : Pairs, (∀ e ∈ ps, motive e.1 ∧ motive e.2) → motive (.hash ps)) (v : Value) :
    motive v := by
  refine v.rec (motive_2 := fun ps => ∀ e ∈ ps, motive e.1 ∧ motive e.2)
    (motive_3 := fun e => motive e.1 ∧ motive e.2) (literal .nil) (fun b => literal (.boolean b))
    (fun i => literal (.integer i)) (fun x => literal (.float x)) (fun s => literal (.string s))
    (fun s => literal (.symbol s)) hash ?_ ?_ ?_
  · intro e he
    cases he
  · intro e ps he hps
    simpa using ⟨he, fun k v h => hps (k, v) h⟩
  · exact fun _ _ hk hv => ⟨hk, hv⟩

def PairEq (e f : Value × Value) : Prop := (e.1 == f.1) = true ∧ (e.2 == f.2) = true

theorem beqPairs_iff {ps qs : Pairs} : beqPairs ps qs = true ↔ List.Forall₂ PairEq ps qs := by
  induction ps generalizing qs with
  | nil => cases qs <;> simp [beqPairs]
  | cons e ps ih =>
    cases qs with
    | nil => simp [beqPairs]
    | cons f qs => simp [beqPairs, ih, PairEq, BEq.beq]

theorem hash_beq_iff {ps qs : Pairs} :
    (hash ps == hash qs) = true ↔ List.Forall₂ PairEq ps qs := by
  rw [← beqPairs_iff]
  simp [BEq.beq, beq]

theorem hash_beq_literal (ps : Pairs) (l : Literal) : (hash ps == l.toValue) = false := by
  cases l <;> simp [Literal.toValue, BEq.beq, beq]

theorem literal_beq_self {l : Literal} (h : l ≠ .float .nan) : (l.toValue == l.toValue) = true := by
  cases l with
  | float x =>
    have hx : x ≠ .nan := fun he => h (congrArg Literal.float he)
    exact (Double.beq_self_iff x).mpr hx
  | _ => simp [Literal.toValue, BEq.beq, beq]

theorem pairs_symm (h : List.Forall₂ PairEq ps qs)
    (hs : ∀ e ∈ ps, ∀ f, PairEq e f → PairEq f e) : List.Forall₂ PairEq qs ps := by
  induction h with
  | nil => exact .nil
  | cons he _ ih =>
    exact .cons (hs _ (by simp) _ he) (ih fun e he => hs e (List.mem_cons_of_mem _ he))

theorem pairs_trans (h : List.Forall₂ PairEq ps qs) (h' : List.Forall₂ PairEq qs rs)
    (ht : ∀ e ∈ ps, ∀ f g, PairEq e f → PairEq f g → PairEq e g) :
    List.Forall₂ PairEq ps rs := by
  induction h generalizing rs with
  | nil => exact h'
  | cons he _ ih =>
    cases h' with
    | cons hf hqs =>
      exact .cons (ht _ (by simp) _ _ he hf)
        (ih hqs fun e he => ht e (List.mem_cons_of_mem _ he))

theorem beq_symm {v w : Value} (h : (v == w) = true) : (w == v) = true := by
  induction v using literal_or_hash generalizing w with
  | literal l =>
    cases l <;> cases w <;> try cases h
    case float.float x y => exact (Double.beq_comm y x).trans h
    all_goals simp_all [Literal.toValue, BEq.beq, beq]
  | hash ps ih =>
    induction w using literal_or_hash with
    | literal l => rw [hash_beq_literal] at h; cases h
    | hash qs _ =>
      rw [hash_beq_iff] at h ⊢
      exact pairs_symm h fun e he f hf => ⟨(ih e he).1 hf.1, (ih e he).2 hf.2⟩

theorem beq_comm (v w : Value) : (v == w) = (w == v) := by
  rw [Bool.eq_iff_iff]
  exact ⟨beq_symm, beq_symm⟩

theorem beq_trans {v w u : Value} (h : (v == w) = true) (h' : (w == u) = true) :
    (v == u) = true := by
  induction v using literal_or_hash generalizing w u with
  | literal l =>
    cases l <;> cases w <;> try cases h
    all_goals cases u <;> try cases h'
    case float.float.float => exact Double.beq_trans h h'
    all_goals simp_all [Literal.toValue, BEq.beq, beq]
  | hash ps ih =>
    induction w using literal_or_hash with
    | literal l => rw [hash_beq_literal] at h; cases h
    | hash qs _ =>
      induction u using literal_or_hash with
      | literal l => rw [hash_beq_literal] at h'; cases h'
      | hash rs _ =>
        rw [hash_beq_iff] at h h' ⊢
        exact pairs_trans h h' fun e he f g hf hg =>
          ⟨(ih e he).1 hf.1 hg.1, (ih e he).2 hf.2 hg.2⟩

end Value

end Dispatch
