/-!
# Tables

Entries by name in ascending order of the names, compared code point by code point. A later
entry of a name takes the place of an earlier one.
-/

namespace Dispatch

abbrev Table (α : Type) := List (String × α)

namespace Table

def put (name : String) (entry : α) : Table α → Table α
  | [] => [(name, entry)]
  | (n, e) :: rest =>
    if name < n then (name, entry) :: (n, e) :: rest
    else if name = n then (name, entry) :: rest
    else (n, e) :: put name entry rest

def lookup (table : Table α) (name : String) : Option α :=
  (List.find? (fun (n, _) => n == name) table).map Prod.snd

def ofList (entries : List (String × α)) : Table α :=
  entries.foldl (fun table (name, entry) => put name entry table) []

theorem lookup_put_self (name : String) (entry : α) (table : Table α) :
    lookup (put name entry table) name = some entry := by
  induction table with
  | nil => simp [put, lookup]
  | cons e rest ih =>
    obtain ⟨n, old⟩ := e
    simp only [put]
    split
    · simp [lookup]
    · split
      · simp [lookup]
      · rename_i h
        have hn : (n == name) = false := by simpa using fun e => h e.symm
        simpa [lookup, hn] using ih

theorem lookup_put_of_ne {name other : String} (h : other ≠ name) (entry : α) (table : Table α) :
    lookup (put name entry table) other = lookup table other := by
  have hn : (name == other) = false := by simpa using fun e => h e.symm
  induction table with
  | nil => simp [put, lookup, hn]
  | cons e rest ih =>
    obtain ⟨n, old⟩ := e
    simp only [put]
    split
    · simp [lookup, hn]
    · split
      · rename_i he
        subst he
        simp [lookup, hn]
      · simp only [lookup, List.find?_cons] at ih ⊢
        cases n == other <;> simp [ih]

end Table

end Dispatch
