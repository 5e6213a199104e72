import Dispatch.Text.Basic

/-!
# Scanning

A scan takes a value off the front of a text and gives it back with what is left, or declines. A
located scan also says what it missed and at which text it stood. A choice tries its scans in order
on the same text and fails where the last of them fails, however far the others had come; a list and
a part that may be absent do not fail.

Words, the names of methods and quoted texts are read by located scans. `toScan` forgets where a
scan failed, and each combinator is then the one of scans. Only space, tab, carriage return and
line feed may stand between the parts of an expression; letters and digits are those of ASCII.
-/

namespace Dispatch

abbrev Scan (α : Type) := List Char → Option (α × List Char)

namespace Scan

def isSpace (c : Char) : Bool := c = ' ' || c = '\t' || c = '\r' || c = '\n'

def skip (s : List Char) : List Char := s.dropWhile isSpace

def map (f : α → β) (scan : Scan α) : Scan β := fun s =>
  (scan s).map fun (a, rest) => (f a, rest)

def orElse (first second : Scan α) : Scan α := fun s =>
  match first s with
  | some result => some result
  | none => second s

def padded (scan : Scan α) : Scan α := fun s =>
  (scan (skip s)).map fun (a, rest) => (a, skip rest)

def spaced (scan : Scan α) : Scan α := fun s => scan (skip s)

def after (c : Char) (scan : Scan α) : Scan α
  | d :: s => if d = c then scan s else none
  | [] => none

def optional (scan : Scan α) (s : List Char) : Option α × List Char :=
  match scan s with
  | some (a, rest) => (some a, rest)
  | none => (none, s)

/-- Items that each follow a comma. A comma with no item behind it is left. -/
def more (item : Scan α) : Nat → List Char → List α × List Char
  | rounds + 1, ',' :: s =>
    match item s with
    | some (a, rest) =>
      let (as, rest) := more item rounds rest
      (a :: as, rest)
    | none => ([], ',' :: s)
  | _, s => ([], s)

/-- Items with commas between them. A text holds no more commas than characters. -/
def items (item : Scan α) (s : List Char) : List α × List Char :=
  match item s with
  | some (a, rest) =>
    let (as, rest) := more item rest.length rest
    (a :: as, rest)
  | none => ([], s)

def bracketed (opening closing : Char) (item : Scan α) : Scan (List α) :=
  after opening fun s =>
    let (as, rest) := items (padded item) s
    after closing (fun rest => some (as, rest)) (skip rest)

end Scan

-- ---------------------------------------------------------------------
-- Located scans
-- ---------------------------------------------------------------------

/-- What a located scan can expect: a given character or text, a character of a kind, one that may
stand behind a backslash, a number that has a value. -/
inductive Expected
  | character
  | tag
  | letter
  | digit
  | mark
  | escape
  | value
  deriving DecidableEq

structure Miss where
  expected : Expected
  rest : List Char
  deriving DecidableEq

abbrev Located (α : Type) := List Char → Except Miss (α × List Char)

namespace Located

def toScan (scan : Located α) : Scan α := fun s => (scan s).toOption

def give (a : α) : Located α := fun s => .ok (a, s)

def one (expected : Expected) (p : Char → Bool) : Located Char
  | c :: s => if p c then .ok (c, s) else .error ⟨expected, c :: s⟩
  | [] => .error ⟨expected, []⟩

def digits : Located (List Char) := fun s =>
  if (s.takeWhile Char.isDigit).isEmpty then .error ⟨.digit, s⟩
  else .ok (s.takeWhile Char.isDigit, s.dropWhile Char.isDigit)

def map (f : α → β) (scan : Located α) : Located β := fun s =>
  (scan s).map fun (a, rest) => (f a, rest)

def orElse (first second : Located α) : Located α := fun s =>
  match first s with
  | .ok result => .ok result
  | .error _ => second s

def spaced (scan : Located α) : Located α := fun s => scan (Scan.skip s)

def padded (scan : Located α) : Located α := fun s => do
  let (a, rest) ← spaced scan s
  return (a, Scan.skip rest)

def after (c : Char) (scan : Located α) : Located α := fun s => do
  let (_, s) ← one .character (· = c) s
  scan s

def optional (scan : Located α) : Located (Option α) := fun s =>
  .ok (Scan.optional scan.toScan s)

def items (item : Located α) : Located (List α) := fun s =>
  .ok (Scan.items item.toScan s)

def bracketed (opening closing : Char) (item : Located α) : Located (List α) :=
  after opening fun s => do
    let (as, s) ← items (padded item) s
    spaced (after closing (give as)) s

section
variable {α β : Type} {scan first second : Located α}

theorem toScan_eq_some_iff : scan.toScan s = some result ↔ scan s = .ok result := by
  simp only [toScan]
  cases scan s <;> simp [Except.toOption]

theorem orElse_error (h : orElse first second s = .error miss) : second s = .error miss := by
  unfold orElse at h
  split at h
  · cases h
  · exact h

theorem after_eq_ok_iff {c : Char} :
    after c scan s = .ok result ↔ ∃ t, s = c :: t ∧ scan t = .ok result := by
  cases s with
  | nil => simp [after, one, bind, Except.bind]
  | cons d s =>
    by_cases h : d = c <;> simp [after, one, bind, Except.bind, h]

theorem map_eq_ok_iff {f : α → β} {read : Except Miss α} {b : β} :
    read.map f = .ok b ↔ ∃ a, read = .ok a ∧ f a = b := by
  cases read <;> simp [Except.map]

theorem toOption_bind (scan : Located α) (s : List Char)
    (next : α × List Char → Except Miss β) :
    (scan s >>= next).toOption = (scan.toScan s).bind fun result => (next result).toOption := by
  simp only [toScan]
  cases scan s <;> rfl

theorem ok_bind (a : α) (next : α → Except Miss β) : (Except.ok a >>= next) = next a := rfl

theorem toOption_map (f : α → β) (result : Except Miss α) :
    (result.map f).toOption = result.toOption.map f := by
  cases result <;> rfl

theorem toScan_one_cons (expected : Expected) (p : Char → Bool) (c : Char) (s : List Char) :
    (one expected p).toScan (c :: s) = if p c then some (c, s) else none := by
  simp only [toScan, one]
  split <;> rfl

theorem optional_of_ok (h : scan s = .ok (a, rest)) : optional scan s = .ok (some a, rest) := by
  simp only [Located.optional, Scan.optional, toScan, h, Except.toOption]

theorem optional_of_error (h : scan s = .error miss) : optional scan s = .ok (none, s) := by
  simp only [Located.optional, Scan.optional, toScan, h, Except.toOption]

theorem optional_one_cons (expected : Expected) (p : Char → Bool) (c : Char) (s : List Char) :
    optional (one expected p) (c :: s) = .ok (if p c then (some c, s) else (none, c :: s)) := by
  simp only [optional, Scan.optional, toScan_one_cons]
  cases p c <;> rfl

@[simp] theorem toScan_give (a : α) : (give a).toScan = fun s => some (a, s) := rfl

@[simp] theorem toScan_map (f : α → β) : (map f scan).toScan = Scan.map f scan.toScan := by
  funext s
  simp only [toScan, map, Scan.map, toOption_map]

@[simp] theorem toScan_orElse :
    (orElse first second).toScan = Scan.orElse first.toScan second.toScan := by
  funext s
  simp only [toScan, orElse, Scan.orElse]
  cases first s <;> rfl

@[simp] theorem toScan_spaced : (spaced scan).toScan = Scan.spaced scan.toScan := rfl

@[simp] theorem toScan_padded : (padded scan).toScan = Scan.padded scan.toScan := by
  funext s
  simp only [toScan, padded, spaced, Scan.padded]
  cases scan (Scan.skip s) <;> rfl

@[simp] theorem toScan_after (c : Char) : (after c scan).toScan = Scan.after c scan.toScan := by
  funext s
  cases s with
  | nil => rfl
  | cons d s =>
    rw [toScan, after, toOption_bind, toScan_one_cons, Scan.after]
    simp only [decide_eq_true_eq]
    split <;> rfl

@[simp] theorem toScan_optional :
    (optional scan).toScan = fun s => some (Scan.optional scan.toScan s) := rfl

@[simp] theorem toScan_bracketed (opening closing : Char) :
    (bracketed opening closing scan).toScan = Scan.bracketed opening closing scan.toScan := by
  rw [bracketed, toScan_after]
  congr 1
  funext s
  rw [← toScan_padded]
  exact congrFun (toScan_after closing) _

end

end Located

-- ---------------------------------------------------------------------
-- Words
-- ---------------------------------------------------------------------

namespace Scan

def isWordStart (c : Char) : Bool := c.isAlpha || c = '_'

def isWordPart (c : Char) : Bool := c.isAlphanum || c = '_'

def isMark (c : Char) : Bool := c = '?' || c = '!' || c = '='

def isIdentifier (name : String) : Bool :=
  match name.toList with
  | c :: s => isWordStart c && s.all isWordPart
  | [] => false

end Scan

namespace Located

def identifier : Located String := fun s => do
  let (c, s) ← orElse (one .tag (· = '_')) (one .letter Char.isAlpha) s
  return (String.ofList (c :: s.takeWhile Scan.isWordPart), s.dropWhile Scan.isWordPart)

def methodName : Located String := fun s => do
  let (name, s) ← identifier s
  let (mark, s) ← optional (one .mark Scan.isMark) s
  return ((mark.map name.push).getD name, s)

theorem identifier_cons (c : Char) (s : List Char) : identifier (c :: s) =
    if Scan.isWordStart c then
      .ok (String.ofList (c :: s.takeWhile Scan.isWordPart), s.dropWhile Scan.isWordPart)
    else .error ⟨.letter, c :: s⟩ := by
  by_cases hu : c = '_'
  · subst hu
    rfl
  · have hstart : Scan.isWordStart c = c.isAlpha := by simp [Scan.isWordStart, hu]
    simp only [identifier, orElse, one, hu, hstart, decide_false]
    cases c.isAlpha <;> rfl

end Located

namespace Scan

def identifier : Scan String := Located.identifier.toScan

def methodName : Scan String := Located.methodName.toScan

def constant : Scan String
  | c :: s =>
    if c.isUpper then some (String.ofList (c :: s.takeWhile isWordPart), s.dropWhile isWordPart)
    else none
  | [] => none

theorem identifier_cons (c : Char) (s : List Char) : identifier (c :: s) =
    if isWordStart c then some (String.ofList (c :: s.takeWhile isWordPart), s.dropWhile isWordPart)
    else none := by
  simp only [identifier, Located.toScan, Located.identifier_cons]
  split <;> rfl

theorem methodName_eq (s : List Char) : methodName s = match identifier s with
    | some (name, c :: rest) =>
      if isMark c then some (name.push c, rest) else some (name, c :: rest)
    | result => result := by
  rw [methodName, Located.toScan, Located.methodName, Located.toOption_bind, ← identifier]
  cases identifier s with
  | none => rfl
  | some result =>
    obtain ⟨name, rest⟩ := result
    cases rest with
    | nil => rfl
    | cons c rest =>
      simp only [Option.bind_some, Located.optional_one_cons, Located.ok_bind]
      split <;> rfl

end Scan

-- ---------------------------------------------------------------------
-- Quoted texts
-- ---------------------------------------------------------------------

namespace Text.Quoted

open Located

/-- A text with escapes, up to a quote or its end. -/
def escaped : Located (List Char)
  | [] => .ok ([], [])
  | '"' :: rest => .ok ([], '"' :: rest)
  | '\\' :: m :: s =>
    match unescapeMark m with
    | some c => (escaped s).map fun (text, rest) => (c :: text, rest)
    | none => .error ⟨.tag, m :: s⟩
  | '\\' :: [] => .error ⟨.escape, ['\\']⟩
  | c :: s => (escaped s).map fun (text, rest) => (c :: text, rest)

/-- Text that an escape spoils is backed out of: the closing quote is then missed right behind the
opening one. -/
def body : Located (List Char) := fun s => do
  let (text, s) ← optional escaped s
  after '"' (give (text.getD [])) s

def double : Located String := after '"' (map String.ofList body)

/-- Up to the closing quote each character stands for itself. -/
def rawBody : Located (List Char) := fun s =>
  after '\'' (give (s.takeWhile (· ≠ '\''))) (s.dropWhile (· ≠ '\''))

def single : Located String := after '\'' (map String.ofList rawBody)

end Text.Quoted

end Dispatch
