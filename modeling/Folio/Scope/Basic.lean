import Folio.Node

/-!
# Scopes

Names are known in scopes. Every document has a scope, and every expansion of a block opens one.
A scope has two parents: the *dynamic* one, in which the block is expanded, and the *static* one,
in which the block is defined. What is registered in a scope is handed on along the dynamic
parents, and what is not found in a scope is looked for along the static ones. Behind the scope
of a document lies the index of all documents.

`Registry` holds the scopes and everything that is registered in them. Things lie in arrays and
refer to each other by position. Names are looked up in lists of entries, in which the first
entry of a name counts, so that a new entry in front replaces an older one.
-/

namespace Folio

/-- The position of a scope. -/
structure ScopeId where
  index : Nat
  deriving DecidableEq, Repr, Inhabited

/-- The position of a registered labeled node. -/
structure EntryId where
  index : Nat
  deriving DecidableEq, Repr, Inhabited

/-- The position of a registered block. -/
structure BlockId where
  index : Nat
  deriving DecidableEq, Repr, Inhabited

/-- The position of a bound value. -/
structure ValueId where
  index : Nat
  deriving DecidableEq, Repr, Inhabited

/-- The position of a frame, the place in which nodes are handled (`Folio.Resolution.Basic`). -/
structure FrameId where
  index : Nat
  deriving DecidableEq, Repr, Inhabited

/-- A registered labeled node. -/
structure Entry where
  id : LabelId
  document : String
  location : Location
  /-- The tags of the node as seen from outside its document. -/
  anchors : List String := []
  slot : Option SlotId := none
  abbreviation : String := ""
  title : Option String := none
  deriving DecidableEq, Repr

/-- A registered block, with the values of its default arguments. -/
structure BlockEntry where
  block : Block
  scope : ScopeId
  defaults : Table ValueId

/-- An inline text, and the frame it is evaluated in. -/
structure Binding where
  body : InlineText
  frame : FrameId
  deriving DecidableEq, Repr

/-- A registered tag of a node, which is not labeled. -/
structure TagEntry where
  scope : ScopeId
  node : NodeKey
  location : Location
  deriving DecidableEq, Repr

/-- What a link leads to. -/
inductive Target where
  | entry (id : EntryId)
  | document (path : String)
  deriving DecidableEq, Repr

/-- What a link leads to, and how it is addressed from outside. -/
structure Address where
  document : String
  anchor : String
  target : Target
  deriving DecidableEq, Repr

/-- A place where names are known. -/
structure Scope where
  /-- The name in the dynamic parent, empty for documents. -/
  name : String
  /-- The names of the scopes from below the document down to this one. -/
  fullName : String
  document : String
  /-- The dynamic parent. -/
  parent : Option ScopeId
  /-- The static parent. -/
  origin : Option ScopeId
  ids : List (LabelId × EntryId) := []
  anchors : List (String × EntryId) := []
  blocks : List (String × BlockId) := []
  /-- Tags by type and name. -/
  tags : List ((String × String) × TagEntry) := []
  values : List (String × ValueId) := []
  /-- How often a name was given to a scope below. -/
  counts : List (String × Nat) := []
  children : Table ScopeId := []
  deriving DecidableEq, Repr

namespace Scope

/-- The anchor that a link has in the scope, empty if it leads to another document. -/
def anchorOf (s : Scope) (link : Link) : String :=
  if link.isTag ∨ link.path = "" ∨ link.path = s.document then link.anchor else ""

/-- A tag as it is handed on to the dynamic parent: a relative one gets the name of the scope in
front. -/
def lift (s : Scope) (tag : String) : String :=
  if Path.isAbs tag ∨ s.name = "" then tag else Path.join s.name tag

/-- The tags of a labeled node as they are handed on. The last one is its id, which stays. -/
def liftAll (s : Scope) (tags : List String) : List String :=
  tags.dropLast.map s.lift ++ tags.getLast?.toList

end Scope

/-- What is known in all documents. -/
structure GlobalIndex where
  addresses : List (Link × Address) := []
  /-- Tags by type and name. The name of a relative tag has its document in front. -/
  tags : List ((String × String) × TagEntry) := []
  blocks : List (String × BlockId) := []
  /-- The labeled nodes that stand for whole documents. -/
  roots : List (String × EntryId) := []
  documents : List (String × ScopeId) := []
  deriving DecidableEq, Repr

/-- The scopes, and everything that is registered in them. -/
structure Registry where
  /-- The first node with a label of this type stands for its document. -/
  rootType : String
  scopes : Array Scope := #[]
  entries : Array Entry := #[]
  blocks : Array BlockEntry := #[]
  values : Array Binding := #[]
  index : GlobalIndex := {}

namespace Registry

def scope? (r : Registry) (s : ScopeId) : Option Scope := r.scopes[s.index]?

def entryAt? (r : Registry) (e : EntryId) : Option Entry := r.entries[e.index]?

def block? (r : Registry) (b : BlockId) : Option BlockEntry := r.blocks[b.index]?

def value? (r : Registry) (v : ValueId) : Option Binding := r.values[v.index]?

def modifyScope (r : Registry) (s : ScopeId) (f : Scope → Scope) : Registry :=
  { r with scopes := r.scopes.modify s.index f }

def modifyEntry (r : Registry) (e : EntryId) (f : Entry → Entry) : Registry :=
  { r with entries := r.entries.modify e.index f }

/-- The scopes from one on along a choice of parents. A parent comes earlier than its children, so
`fuel` need not exceed the number of scopes. -/
def chain (r : Registry) (up : Scope → Option ScopeId) : Nat → Option ScopeId → List ScopeId
  | _, none => []
  | 0, some _ => []
  | fuel + 1, some s => s :: chain r up fuel ((r.scope? s).bind up)

/-- A scope and its dynamic parents, the outermost last. -/
def dynamicChain (r : Registry) (s : ScopeId) : List ScopeId :=
  r.chain Scope.parent r.scopes.size (some s)

/-- A scope and its static parents, the outermost last. -/
def staticChain (r : Registry) (s : ScopeId) : List ScopeId :=
  r.chain Scope.origin r.scopes.size (some s)

end Registry

end Folio
