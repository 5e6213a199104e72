/-!
# Texts

Characters that are blank, texts joined with a separator, whole numbers in base ten, and texts
between double quotes. A quoted text has a backslash in front of a quote, of a backslash, and of
`n` and `t` for a line feed and a tab.
-/

namespace Dispatch.Text

/-- The code points with the Unicode property `White_Space`, as ranges with both ends. -/
def blankRanges : List (Nat × Nat) :=
  [(0x09, 0x0D), (0x20, 0x20), (0x85, 0x85), (0xA0, 0xA0), (0x1680, 0x1680), (0x2000, 0x200A),
   (0x2028, 0x2029), (0x202F, 0x202F), (0x205F, 0x205F), (0x3000, 0x3000)]

def isBlank (c : Char) : Bool :=
  blankRanges.any fun (first, last) => first ≤ c.toNat && c.toNat ≤ last

def blank (s : List Char) : Bool := s.all isBlank

/-- The text between its first and its last character that is not blank. -/
def trim (s : List Char) : List Char :=
  ((s.dropWhile isBlank).reverse.dropWhile isBlank).reverse

theorem isBlank_of_isWhitespace {c : Char} (h : c.isWhitespace = true) : isBlank c = true := by
  simp only [Char.isWhitespace, Bool.or_eq_true, decide_eq_true_eq] at h
  rcases h with ((h | h) | h) | h <;> subst h <;> decide

theorem blank_append (s t : List Char) : blank (s ++ t) = (blank s && blank t) := by
  simp [blank]

example : (blankRanges.map fun (first, last) => last - first + 1).sum = 25 := by decide

def joined (separator : List Char) : List (List Char) → List Char
  | [] => []
  | [t] => t
  | t :: u :: ts => t ++ separator ++ joined separator (u :: ts)

def listed (ts : List (List Char)) : List Char := joined [',', ' '] ts

@[simp] theorem joined_nil (separator : List Char) : joined separator [] = [] := rfl

@[simp] theorem joined_singleton (separator t : List Char) : joined separator [t] = t := rfl

theorem joined_cons {ts : List (List Char)} (h : ts ≠ []) (separator t : List Char) :
    joined separator (t :: ts) = t ++ separator ++ joined separator ts := by
  cases ts with
  | nil => exact absurd rfl h
  | cons u ts => rfl

theorem joined_eq_intercalate (separator : List Char) (ts : List (List Char)) :
    joined separator ts = separator.intercalate ts := by
  fun_induction joined separator ts <;> simp_all [List.intercalate]

def signed (i : Int) : List Char :=
  if i < 0 then '-' :: Nat.toDigits 10 i.natAbs else Nat.toDigits 10 i.natAbs

def ofSigned (negative : Bool) (digits : List Char) : Int :=
  let n : Int := Nat.ofDigitChars 10 digits 0
  if negative then -n else n

theorem ofSigned_digits (i : Int) :
    ofSigned (decide (i < 0)) (Nat.toDigits 10 i.natAbs) = i := by
  simp only [ofSigned, Nat.ofDigitChars_toDigits (b := 10) (by decide) (by decide),
    decide_eq_true_eq]
  split <;> omega

namespace Quoted

def escapeMark : Char → Option Char
  | '"' => some '"'
  | '\\' => some '\\'
  | '\n' => some 'n'
  | '\t' => some 't'
  | _ => none

def unescapeMark : Char → Option Char
  | '"' => some '"'
  | '\\' => some '\\'
  | 'n' => some '\n'
  | 't' => some '\t'
  | _ => none

def escape : List Char → List Char
  | [] => []
  | c :: s => match escapeMark c with
    | some m => '\\' :: m :: escape s
    | none => c :: escape s

def encode (s : List Char) : List Char := '"' :: (escape s ++ ['"'])

theorem unescapeMark_of_escapeMark {c m : Char} (h : escapeMark c = some m) :
    unescapeMark m = some c := by
  unfold escapeMark at h
  split at h <;> cases h <;> rfl

end Quoted

end Dispatch.Text
