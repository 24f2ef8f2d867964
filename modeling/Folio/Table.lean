/-!
# Tables

A table is a list of entries under texts as keys, in the ascending order of the keys. An entry is
found with `List.lookup`.
-/

namespace Folio

/-- Entries under keys. -/
abbrev Table (α : Type) := List (String × α)

namespace Table

variable {α : Type}

/-- Puts a value under a key, in place of the one that is there. -/
def put (key : String) (value : α) : Table α → Table α
  | [] => [(key, value)]
  | (k, v) :: rest =>
    if key = k then (key, value) :: rest
    else if key < k then (key, value) :: (k, v) :: rest
    else (k, v) :: put key value rest

/-- Changes the value under a key, if there is one. -/
def change (key : String) (f : α → α) (t : Table α) : Table α :=
  t.map fun (k, v) => (k, if k = key then f v else v)

def keys (t : Table α) : List String := t.map Prod.fst

theorem lookup_cons (key k : String) (v : α) (t : Table α) :
    List.lookup k ((key, v) :: t) = if k = key then some v else t.lookup k := by
  rw [List.lookup_cons]
  by_cases h : k = key
  · simp [h]
  · rw [beq_eq_false_iff_ne.2 h, if_neg h]

@[simp]
theorem lookup_put (key k : String) (value : α) (t : Table α) :
    (t.put key value).lookup k = if k = key then some value else t.lookup k := by
  induction t with
  | nil => simp [put, lookup_cons]
  | cons e t ih =>
    obtain ⟨k', v⟩ := e
    unfold put
    split
    · subst_vars
      by_cases h : k = k' <;> simp [lookup_cons, h]
    · split
      · simp [lookup_cons]
      · by_cases h : k = k' <;> by_cases h' : k = key <;> simp_all [lookup_cons]

end Table

end Folio
