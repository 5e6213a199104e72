import Dispatch.Registry
import Dispatch.Proofs.Tables
import Mathlib.Tactic.SplitIfs

/-!
# The classes of a registry

A registry holds for each name the class that was registered last under it, and the names stand in
the order of their bytes: `latest_ofClasses`. Texts compare character by character, and in the same
way byte by byte.
-/

namespace Dispatch

def bytes (s : String) : List UInt8 := s.toByteArray.data.toList

theorem bytes_eq_flatMap (s : String) : bytes s = s.toList.flatMap String.utf8EncodeChar := by
  have h : (String.ofList s.toList).toByteArray = s.toList.utf8Encode := String.toByteArray_ofList
  rw [String.ofList_toList] at h
  rw [bytes, h, List.utf8Encode, List.data_toByteArray]

theorem ofNat_cons_lt_iff {a b : Nat} (ha : a < 256) (hb : b < 256) {s t : List UInt8} :
    UInt8.ofNat a :: s < UInt8.ofNat b :: t ↔ a < b ∨ a = b ∧ s < t := by
  rw [List.cons_lt_cons_iff, UInt8.lt_iff_toNat_lt, ← UInt8.toNat_inj,
    UInt8.toNat_ofNat_of_lt' ha, UInt8.toNat_ofNat_of_lt' hb]

/-- Of two characters the lesser has the lesser bytes, whatever follows them. -/
theorem utf8EncodeChar_lt {c d : Char} (h : c < d) (s t : List UInt8) :
    String.utf8EncodeChar c ++ s < String.utf8EncodeChar d ++ t := by
  have hlt : c.val.toNat < d.val.toNat := h
  have hmax : d.val.toNat < 1114112 := by
    have hd : d.val.toNat.isValidChar := d.valid
    unfold Nat.isValidChar at hd
    omega
  simp only [String.utf8EncodeChar]
  generalize c.val.toNat = v at *
  generalize d.val.toNat = w at *
  -- the bytes are digits to the base 64, the first one marked by how many there are
  have hv : v / 4096 = v / 64 / 64 ∧ v / 262144 % 8 = v / 64 / 64 / 64 := by omega
  have hw : w / 4096 = w / 64 / 64 ∧ w / 262144 % 8 = w / 64 / 64 / 64 := by omega
  rw [hv.1, hv.2, hw.1, hw.2]
  split_ifs <;>
    simp (disch := omega) only [List.cons_append, List.nil_append, ofNat_cons_lt_iff] <;> omega

theorem flatMap_utf8EncodeChar_lt {s t : List Char} (h : s < t) :
    s.flatMap String.utf8EncodeChar < t.flatMap String.utf8EncodeChar := by
  induction s generalizing t with
  | nil =>
    cases t with
    | nil => exact absurd h (List.lt_irrefl _)
    | cons d t =>
      have hd : ∃ b bs, String.utf8EncodeChar d = b :: bs :=
        List.exists_cons_of_ne_nil String.utf8EncodeChar_ne_nil
      obtain ⟨b, bs, hd⟩ := hd
      simp only [List.flatMap_nil, List.flatMap_cons, hd, List.cons_append]
      exact List.nil_lt_cons _ _
  | cons c s ih =>
    cases t with
    | nil => exact absurd h (List.not_lt_nil _)
    | cons d t =>
      simp only [List.flatMap_cons]
      rcases List.cons_lt_cons_iff.mp h with hlt | ⟨rfl, hlt⟩
      · exact utf8EncodeChar_lt hlt _ _
      · exact List.append_left_lt (ih hlt)

theorem bytes_lt_of_lt {s t : String} (h : s < t) : bytes s < bytes t := by
  rw [bytes_eq_flatMap, bytes_eq_flatMap]
  exact flatMap_utf8EncodeChar_lt (String.lt_iff.mp h)

def Class.Called (name : String) (c : Class) : Prop := c.name = name

namespace Registry

def ofClasses (cs : List Class) : Registry := cs.foldl register []

section
variable {cs : List Class} {c : Class} {name : String}

theorem ofClasses_eq (cs : List Class) :
    ofClasses cs = Table.ofList (cs.map fun c => (c.name, c)) := by
  rw [ofClasses, Table.ofList, List.foldl_map]
  rfl

theorem ascending_ofClasses (cs : List Class) : Table.Ascending (ofClasses cs) := by
  rw [ofClasses_eq]
  exact Table.ascending_ofList _

theorem lookup_ofClasses : Table.lookup (ofClasses cs) name = some c ↔
    LastWith (Class.Called name) cs c := by
  rw [ofClasses_eq, Table.lookup_ofList, lastWith_map]
  constructor
  · rintro ⟨d, hd, he⟩
    cases he
    exact hd
  · exact fun h => ⟨c, h, by rw [h.mem.2]⟩

theorem get_eq_ok_iff {r : Registry} : r.get name = .ok c ↔ Table.lookup r name = some c := by
  unfold get
  split <;> simp_all

theorem get_ofClasses : (ofClasses cs).get name = .ok c ↔ LastWith (Class.Called name) cs c :=
  get_eq_ok_iff.trans lookup_ofClasses

theorem mem_ofClasses {x : String × Class} :
    x ∈ ofClasses cs ↔ LastWith (Class.Called x.1) cs x.2 := by
  rw [← lookup_ofClasses, (ascending_ofClasses cs).lookup_eq_some_iff]

theorem name_of_mem {x : String × Class} (h : x ∈ ofClasses cs) : x.2.name = x.1 :=
  (mem_ofClasses.mp h).mem.2

/-- The classes that a registry lists: each name once, with the class that was registered last. -/
structure Latest (cs latest : List Class) : Prop where
  ascending : (latest.map fun c => bytes c.name).Pairwise (· < ·)
  last (c : Class) : c ∈ latest ↔ LastWith (Class.Called c.name) cs c
  names (name : String) : name ∈ latest.map Class.name ↔ name ∈ cs.map Class.name

theorem latest_ofClasses (cs : List Class) : Latest cs ((ofClasses cs).map Prod.snd) := by
  have hlast (c : Class) : c ∈ (ofClasses cs).map Prod.snd ↔
      LastWith (Class.Called c.name) cs c := by
    rw [← mem_ofClasses (x := (c.name, c)), List.mem_map]
    constructor
    · rintro ⟨x, hx, rfl⟩
      rwa [name_of_mem hx]
    · exact fun h => ⟨_, h, rfl⟩
  refine ⟨?_, hlast, fun name => ?_⟩
  · have hnames : (ofClasses cs).map (fun x => x.2.name) = (ofClasses cs).map Prod.fst :=
      List.map_congr_left fun x hx => name_of_mem hx
    have hasc := ascending_ofClasses cs
    rw [Table.Ascending, ← hnames] at hasc
    simpa [List.pairwise_map] using hasc.imp bytes_lt_of_lt
  · simp only [List.mem_map (f := Class.name)]
    constructor
    · rintro ⟨c, hc, rfl⟩
      exact ⟨c, ((hlast c).mp hc).mem.1, rfl⟩
    · rintro ⟨c, hc, rfl⟩
      have hcalled : Class.Called c.name c := rfl
      obtain ⟨d, hd⟩ := exists_lastWith.mpr ⟨c, hc, hcalled⟩
      have hname : d.name = c.name := hd.mem.2
      exact ⟨d, (hlast d).mpr (hname ▸ hd), hname⟩

end

end Registry

end Dispatch
