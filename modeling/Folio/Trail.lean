import Folio.Location

/-!
# Trails

A trail holds the names on the way to the present one, each of them once. Going to a name that
is already on the way closes a cycle, which `Trail.add?` reports instead of a longer trail. A
`CallStack` is a trail of block expansions with the places they were called from.
-/

namespace Folio

/-- The names on the way, from the first to the present one. -/
structure Trail where
  entries : List String := []
  nodup : entries.Nodup := by exact List.nodup_nil
  deriving DecidableEq

namespace Trail

instance : Inhabited Trail := ⟨{}⟩

/-- Names with arrows between them. -/
def arrows (names : List String) : String :=
  "->".intercalate names

def text (t : Trail) : String := arrows t.entries

theorem nodup_append_singleton {names : List String} {name : String} (h : names.Nodup)
    (hn : name ∉ names) : (names ++ [name]).Nodup := by
  refine List.nodup_append.2 ⟨h, by simp, ?_⟩
  rintro a ha b hb rfl
  exact hn (List.mem_singleton.1 hb ▸ ha)

/-- Goes on to a name. If it is already on the way, the answer is the cycle from there back to
it. -/
def add? (t : Trail) (name : String) : Except (List String) Trail :=
  if h : name ∈ t.entries then .error (t.entries.dropWhile (· ≠ name) ++ [name])
  else .ok ⟨t.entries ++ [name], nodup_append_singleton t.nodup h⟩

end Trail

/-- The block expansions under way, with the place each of them was called from. -/
structure CallStack where
  trail : Trail := {}
  locations : List Location := []
  deriving DecidableEq, Inhabited

namespace CallStack

/-- Enters a block that is called from a place. -/
def add? (s : CallStack) (name : String) (location : Location) :
    Except (List String) CallStack :=
  match s.trail.add? name with
  | .ok trail => .ok ⟨trail, s.locations ++ [location]⟩
  | .error cycle => .error cycle

/-- The places of the calls, with arrows between them. -/
def text (s : CallStack) : String :=
  " -> ".intercalate (s.locations.map Location.text)

end CallStack

end Folio
