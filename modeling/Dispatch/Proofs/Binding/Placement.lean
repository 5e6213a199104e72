import Dispatch.Proofs.Binding.Fill

/-!
# Where arguments go

`bind_places_every_argument`: a successful binding has one entry for each parameter. The required
parameters and the first optional ones hold the positional arguments, each once and in order; the
other optional parameters hold their defaults, and a keyword holds the last value given for it.
-/

namespace Dispatch.Signature

/-- The parameter in this place is required, or it is optional with fewer than `surplus` optional
parameters before it. -/
def takes (ps : List Param) (surplus i : Nat) : Bool :=
  match ps[i]? with
  | some ⟨_, .required⟩ => true
  | some ⟨_, .optional _⟩ => decide ((ps.take i).countP (·.kind.isOptional) < surplus)
  | _ => false

def takers (ps : List Param) (surplus : Nat) : List Nat :=
  (List.range ps.length).filter (takes ps surplus)

def valueAt (entries : List (String × Value)) (i : Nat) : Option Value :=
  entries[i]?.map Prod.snd

def KeywordValue (keywords : Pairs) (name : String) (default : Option Literal) (v : Value) : Prop :=
  keywords.Last (.symbol name) v ∨
    ¬ keywords.Has (.symbol name) ∧ ∃ d, default = some d ∧ v = d.toValue

structure Placed (ps : List Param) (surplus : Nat) (positional : List Value) (keywords : Pairs)
    (entries : List (String × Value)) : Prop where
  names : entries.map Prod.fst = ps.map Param.name
  arguments : (takers ps surplus).map (valueAt entries) = positional.map some
  defaults (i : Nat) (n : String) (d : Literal) : ps[i]? = some ⟨n, .optional d⟩ →
    takes ps surplus i = false → entries[i]? = some (n, d.toValue)
  keyword (i : Nat) (n : String) (d : Option Literal) : ps[i]? = some ⟨n, .keyword d⟩ →
    ∃ v, entries[i]? = some (n, v) ∧ KeywordValue keywords n d v

theorem takes_succ (h : Step keywords p surplus vs v surplus' vs') (ps : List Param) (i : Nat) :
    takes (p :: ps) surplus (i + 1) = takes ps surplus' i := by
  cases h <;> simp [takes, List.countP_cons]

theorem takers_cons (h : Step keywords p surplus vs v surplus' vs') (ps : List Param) :
    takers (p :: ps) surplus =
      (if takes (p :: ps) surplus 0 then [0] else []) ++ (takers ps surplus').map (· + 1) := by
  have tail : takes (p :: ps) surplus ∘ Nat.succ = takes ps surplus' :=
    funext fun i => takes_succ h ps i
  simp only [takers, List.length_cons, List.range_succ_eq_map, List.filter_cons, List.filter_map,
    tail]
  split <;> rfl

theorem takes_zero (h : Step keywords p surplus vs v surplus' vs') (ps : List Param) :
    vs = (if takes (p :: ps) surplus 0 then [v] else []) ++ vs' := by
  cases h <;> simp [takes]

theorem placed_cons (h : Step keywords p surplus vs v surplus' vs')
    (hp : Placed ps surplus' vs' keywords rest) :
    Placed (p :: ps) surplus vs keywords ((p.name, v) :: rest) where
  names := by simp [hp.names]
  arguments := by
    have shift : (takers ps surplus').map (valueAt ((p.name, v) :: rest) ∘ (· + 1)) =
        vs'.map some := hp.arguments
    rw [takers_cons h, List.map_append, List.map_map, shift, takes_zero h ps, List.map_append]
    split <;> rfl
  defaults := by
    intro i n d hi ht
    cases i with
    | zero =>
      cases h <;> simp [takes] at hi ht ⊢
      exact ⟨hi.1, by rw [hi.2]⟩
    | succ i => exact hp.defaults i n d hi (by rw [← takes_succ h]; exact ht)
  keyword := by
    intro i n d hi
    cases i with
    | zero =>
      cases h <;> simp at hi
      case given hl =>
        obtain ⟨rfl, rfl⟩ := hi
        exact ⟨v, rfl, .inl hl⟩
      case absent d hn =>
        obtain ⟨rfl, rfl⟩ := hi
        exact ⟨_, rfl, .inr ⟨hn, d, rfl, rfl⟩⟩
    | succ i => exact hp.keyword i n d hi

theorem placed_of_fill (hf : Fits ps surplus vs)
    (h : fill keywords ps surplus vs = .ok entries) : Placed ps surplus vs keywords entries := by
  induction ps generalizing surplus vs entries with
  | nil =>
    cases hf.nil
    simp only [fill, Except.ok.injEq] at h
    subst h
    exact ⟨rfl, rfl, by simp, by simp⟩
  | cons p ps ih =>
    obtain ⟨v, surplus', vs', rest, hstep, hf', hrest, rfl⟩ := fill_cons_ok hf h
    exact placed_cons hstep (ih hf' hrest)

theorem value?_of_nodup {entries : List (String × Value)} {i : Nat}
    (hn : (entries.map Prod.fst).Nodup) (hi : entries[i]? = some (n, v)) :
    (BoundArgs.mk entries).value? n = some v := by
  induction entries generalizing i with
  | nil => simp at hi
  | cons e rest ih =>
    obtain ⟨m, w⟩ := e
    obtain ⟨hm, hn⟩ := List.nodup_cons.mp hn
    cases i with
    | zero =>
      cases hi
      simp [BoundArgs.value?]
    | succ i =>
      have hne : m ≠ n := by
        rintro rfl
        exact hm (List.mem_map.mpr ⟨_, List.mem_of_getElem? hi, rfl⟩)
      have := ih hn hi
      simpa [BoundArgs.value?, List.find?_cons, hne] using this

/-- Nothing is lost or used twice: the positional arguments are what the takers hold, in order. -/
theorem bind_places_every_argument (h : sig.bind args = .ok bound) :
    ∃ positional keywords, Splits sig args positional keywords ∧
      Placed sig.params (positional.length - sig.params.countP (·.kind.isRequired)) positional
        (keywords.getD []) bound.entries ∧
      ∀ text, parse text = .ok sig → ∀ (i : Nat) (p : Param), sig.params[i]? = some p →
        ∃ v, bound.entries[i]? = some (p.name, v) ∧ bound.value? p.name = some v := by
  have hs := splits_splitKeywords sig args
  obtain ⟨hf, hfill⟩ := fill_of_bind_ok hs h
  have hp := placed_of_fill hf hfill
  refine ⟨_, _, hs, hp, ?_⟩
  intro text ht i p hi
  have hname : (bound.entries.map Prod.fst)[i]? = some p.name := by simp [hp.names, hi]
  rw [List.getElem?_map, Option.map_eq_some_iff] at hname
  obtain ⟨⟨n, v⟩, he, hn⟩ := hname
  cases hn
  exact ⟨v, he, value?_of_nodup (hp.names ▸ names_nodup_of_parse ht) he⟩

/-- `f(a, b = 1, k:, c = 2, d)` -/
def interleaved : Signature where
  name := some "f"
  params := [⟨"a", .required⟩, ⟨"b", .optional (.integer 1)⟩, ⟨"k", .keyword none⟩,
    ⟨"c", .optional (.integer 2)⟩, ⟨"d", .required⟩]

/-- Three arguments and a keyword that is given twice: `c` alone takes its default. -/
theorem bind_interleaved :
    let args : List Value := [.integer 10, .integer 20, .integer 40,
      .hash [(.symbol "k", .nil), (.symbol "k", .boolean true)]]
    let bound : BoundArgs := ⟨[("a", .integer 10), ("b", .integer 20), ("k", .boolean true),
      ("c", .integer 2), ("d", .integer 40)]⟩
    interleaved.bind args = .ok bound ∧
      ∃ positional keywords, Splits interleaved args positional keywords ∧
        Placed interleaved.params (positional.length - 2) positional (keywords.getD [])
          bound.entries ∧
        ∀ text, parse text = .ok interleaved → ∀ (i : Nat) (p : Param),
          interleaved.params[i]? = some p →
          ∃ v, bound.entries[i]? = some (p.name, v) ∧ bound.value? p.name = some v :=
  ⟨rfl, bind_places_every_argument rfl⟩

end Dispatch.Signature
