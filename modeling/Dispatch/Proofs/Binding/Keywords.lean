import Dispatch.Proofs.Binding.Outcome
import Dispatch.Proofs.Keys

/-!
# How keywords are written

A binding reads the trailing hash twice: each keyword parameter looks up its symbol, and then the
keys are searched for one that no parameter has. Collecting the pairs first changes neither answer,
and with distinct keys the order of the pairs can only change which unknown key is found first.
-/

namespace Dispatch

namespace Pairs

/-- Searching only the first of equal keys finds the same key, if equal keys are found alike. -/
theorem find?_newKeys {found : Value → Bool} (hf : ∀ k l, (k == l) = true → found k = found l)
    (hb : ∀ k ∈ before, found k = false) :
    (newKeys before ks).find? found = ks.find? found := by
  induction ks generalizing before with
  | nil => rfl
  | cons k ks ih =>
    by_cases hk : found k = true
    · have hnew : ¬ before.any (· == k) = true := by
        intro ha
        obtain ⟨l, hl, hlk⟩ := List.any_eq_true.mp ha
        rw [← hf l k hlk, hb l hl] at hk
        cases hk
      rw [newKeys, if_neg hnew, List.find?_cons_of_pos hk, List.find?_cons_of_pos hk]
    · have hks : (newKeys (k :: before) ks).find? found = ks.find? found := by
        refine ih fun l hl => ?_
        rcases List.mem_cons.mp hl with rfl | hl
        · exact eq_false_of_ne_true hk
        · exact hb l hl
      rw [newKeys, List.find?_cons_of_neg hk]
      split
      · exact hks
      · rw [List.find?_cons_of_neg hk, hks]

end Pairs

namespace Signature

theorem fill_congr (h : ∀ n, Pairs.lookup ps (.symbol n) = Pairs.lookup qs (.symbol n))
    (params : List Param) (surplus : Nat) (vs : List Value) :
    fill ps params surplus vs = fill qs params surplus vs := by
  fun_induction fill ps params surplus vs <;> simp_all [fill]

theorem unknownKey_eq_find? (sig : Signature) (ps : Pairs) :
    sig.unknownKey ps = ps.keys.find? fun k => !sig.knows k := by
  rw [Pairs.keys, List.find?_map]
  rfl

theorem knows_congr (sig : Signature) {k l : Value} (h : (k == l) = true) :
    sig.knows k = sig.knows l := by
  have hsymbol : ∀ n, k = .symbol n ↔ l = .symbol n := by
    intro n
    rw [← Value.beq_symbol_iff, ← Value.beq_symbol_iff]
    exact ⟨Value.beq_trans (Value.beq_symm h), Value.beq_trans h⟩
  rw [Bool.eq_iff_iff, knows_iff, knows_iff]
  simp only [Knows, hsymbol]

theorem unknownKey_collect (sig : Signature) (ps : Pairs) :
    sig.unknownKey (Pairs.collect ps) = sig.unknownKey ps := by
  rw [unknownKey_eq_find?, unknownKey_eq_find?, Pairs.keys_collect]
  exact Pairs.find?_newKeys (fun k l h => by rw [sig.knows_congr h]) (by simp)

/-- The answer with a trailing hash, once its keywords are looked up and its keys searched. -/
theorem bind_trailing {sig : Signature} (hd : sig.Declares) (xs : List Value) (ps : Pairs) :
    sig.bind (xs ++ [.hash ps]) =
      if sig.arity.accepts xs.length then do
        let entries ← fill ps sig.params (xs.length - sig.arity.required) xs
        match sig.unknownKey ps with
        | none => .ok ⟨entries⟩
        | some key => .error (.unknownKeyword key.keyText)
      else .error (.arity xs.length sig.arity) := by
  have hs : sig.Splits (xs ++ [.hash ps]) xs (some ps) := .trailing hd
  by_cases ha : sig.arity.accepts xs.length = true
  · rw [if_pos ha]
    cases hf : fill ps sig.params (xs.length - sig.arity.required) xs with
    | error e => exact bind_of_fill_error hs ha hf
    | ok entries => exact bind_of_fill_ok hs ha hf
  · rw [if_neg ha]
    exact bind_of_not_accepts hs ha

theorem bind_trailing_congr {sig : Signature} (hd : sig.Declares) (xs : List Value)
    (hl : ∀ n, Pairs.lookup ps (.symbol n) = Pairs.lookup qs (.symbol n))
    (hu : sig.unknownKey ps = sig.unknownKey qs) :
    sig.bind (xs ++ [.hash ps]) = sig.bind (xs ++ [.hash qs]) := by
  rw [bind_trailing hd, bind_trailing hd, fill_congr hl, hu]

theorem unknownKey_eq_none_perm (sig : Signature) (hp : ps.Perm qs) :
    sig.unknownKey ps = none ↔ sig.unknownKey qs = none := by
  simp only [unknownKey_eq_none_iff, hp.mem_iff]

theorem bind_trailing_unknown {sig : Signature} (hd : sig.Declares) (xs : List Value)
    (hl : ∀ n, Pairs.lookup ps (.symbol n) = Pairs.lookup qs (.symbol n))
    (hk : sig.unknownKey ps = some key) (hk' : sig.unknownKey qs = some key') :
    sig.bind (xs ++ [.hash ps]) = sig.bind (xs ++ [.hash qs]) ∨
      sig.bind (xs ++ [.hash ps]) = .error (.unknownKeyword key.keyText) ∧
      sig.bind (xs ++ [.hash qs]) = .error (.unknownKeyword key'.keyText) := by
  rw [bind_trailing hd, bind_trailing hd, fill_congr hl, hk, hk']
  split
  · cases fill qs sig.params (xs.length - sig.arity.required) xs with
    | error e => exact .inl rfl
    | ok entries => exact .inr ⟨rfl, rfl⟩
  · exact .inl rfl

/-- Collecting a trailing hash changes no answer. Changing the order of its pairs, with no two keys
equal, changes an answer at most by the unknown keyword that it names. -/
theorem bind_reads_keywords_alike {sig : Signature} (hd : sig.Declares) (xs : List Value)
    (ps : Pairs) :
    sig.bind (xs ++ [.hash ps]) = sig.bind (xs ++ [Value.collect ps]) ∧
    ∀ qs : Pairs, ps.Distinct → ps.Perm qs →
      sig.bind (xs ++ [.hash ps]) = sig.bind (xs ++ [.hash qs]) ∨
        ∃ name name', sig.bind (xs ++ [.hash ps]) = .error (.unknownKeyword name) ∧
          sig.bind (xs ++ [.hash qs]) = .error (.unknownKeyword name') := by
  refine ⟨bind_trailing_congr hd xs (fun n => (Pairs.lookup_collect ps _).symm)
    (unknownKey_collect sig ps).symm, fun qs hdistinct hp => ?_⟩
  have hl : ∀ n, Pairs.lookup ps (.symbol n) = Pairs.lookup qs (.symbol n) :=
    fun n => Pairs.lookup_perm hdistinct hp _
  have hnone := sig.unknownKey_eq_none_perm hp
  cases hk : sig.unknownKey ps with
  | none => exact .inl (bind_trailing_congr hd xs hl (hk.trans (hnone.mp hk).symm))
  | some key =>
    cases hk' : sig.unknownKey qs with
    | none =>
      rw [hnone.mpr hk'] at hk
      cases hk
    | some key' => exact (bind_trailing_unknown hd xs hl hk hk').imp_right fun h => ⟨_, _, h⟩

/-- `f(a, k:, j: 1)` -/
def keyworded : Signature where
  name := some "f"
  params := [⟨"a", .required⟩, ⟨"k", .keyword none⟩, ⟨"j", .keyword (some (.integer 1))⟩]

/-- A key given twice counts once, and of two unknown keys the first is named. -/
theorem bind_keyworded :
    let repeated : Pairs := [(.symbol "k", .nil), (.symbol "j", .nil), (.symbol "k", .integer 2)]
    let unknown : Pairs := [(.symbol "k", .nil), (.symbol "x", .nil), (.string "y", .nil)]
    let reversed : Pairs := [(.string "y", .nil), (.symbol "x", .nil), (.symbol "k", .nil)]
    keyworded.Declares ∧
      keyworded.bind ([.nil] ++ [.hash repeated]) =
        keyworded.bind ([.nil] ++ [Value.collect repeated]) ∧
      unknown.Distinct ∧ unknown.Perm reversed ∧
      (keyworded.bind ([.nil] ++ [.hash unknown]) = keyworded.bind ([.nil] ++ [.hash reversed]) ∨
        ∃ name name',
          keyworded.bind ([.nil] ++ [.hash unknown]) = .error (.unknownKeyword name) ∧
          keyworded.bind ([.nil] ++ [.hash reversed]) = .error (.unknownKeyword name')) := by
  intro repeated unknown reversed
  have hd : keyworded.Declares := ⟨⟨"k", .keyword none⟩, by simp [keyworded], none, rfl⟩
  have hdistinct : unknown.Distinct := by decide
  have hp : unknown.Perm reversed := unknown.reverse_perm.symm
  exact ⟨hd, (bind_reads_keywords_alike hd _ repeated).1, hdistinct, hp,
    (bind_reads_keywords_alike hd _ unknown).2 reversed hdistinct hp⟩

end Signature

end Dispatch
