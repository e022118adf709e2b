namespace Stencil

/-! Association lists whose keys are all different. Looking up is the library's
`List.lookup`; `put` keeps the order of insertion and `putSorted` the order of
the keys. -/

namespace Table

/-- Replace the value of a key in its place, or add the key at the end. -/
def put {α : Type} (key : String) (value : α) : List (String × α) → List (String × α)
  | [] => [(key, value)]
  | (other, old) :: rest =>
      if other = key then (key, value) :: rest else (other, old) :: put key value rest

/-- Replace the value of a key, or add the key in its place among sorted keys. -/
def putSorted {α : Type} (key : String) (value : α) : List (String × α) → List (String × α)
  | [] => [(key, value)]
  | (other, old) :: rest =>
      if other = key then (key, value) :: rest
      else if key < other then (key, value) :: (other, old) :: rest
      else (other, old) :: putSorted key value rest

/-- The table of these entries; a key that comes again keeps its place and takes
the later value. -/
def ofList {α : Type} (entries : List (String × α)) : List (String × α) :=
  entries.foldl (fun table (key, value) => put key value table) []

/-- A sorted table with these entries put on top of it. -/
def mergeSorted {α : Type} (table entries : List (String × α)) : List (String × α) :=
  entries.foldl (fun table (key, value) => putSorted key value table) table

theorem lookup_put {α : Type} (key other : String) (value : α) (table : List (String × α)) :
    (put key value table).lookup other
      = if other = key then some value else table.lookup other := by
  induction table with
  | nil =>
      by_cases equal : other = key
      · simp [put, equal]
      · have different : (other == key) = false := by simpa using equal
        simp [put, List.lookup_cons, equal, different]
  | cons entry rest induction =>
      obtain ⟨first, old⟩ := entry
      unfold put
      by_cases here : first = key
      · subst here
        by_cases equal : other = first
        · simp [equal]
        · have different : (other == first) = false := by simpa using equal
          simp [List.lookup_cons, equal, different]
      · rw [if_neg here]
        by_cases same : other = first
        · subst same
          simp [here]
        · have different : (other == first) = false := by simpa using same
          simp only [List.lookup_cons, different, induction]

end Table

end Stencil
