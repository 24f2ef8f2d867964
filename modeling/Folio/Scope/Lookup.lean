import Folio.Scope.Basic

/-!
# Looking up names

A name is looked for in the scope at hand, along its static parents, and at last in the index of
all documents.
-/

namespace Folio.Registry

/-- The first thing that is found in a scope or its static parents. -/
def findStatic {α : Type} (r : Registry) (s : ScopeId) (f : Scope → Option α) : Option α :=
  (r.staticChain s).findSome? fun s => (r.scope? s).bind f

/-- What is registered under a link's anchor in a scope, if the link has one there. -/
def atAnchor {α : Type} (entries : Scope → List (String × α)) (link : Link) (s : Scope) :
    Option α :=
  if s.anchorOf link = "" then none else (entries s).lookup (s.anchorOf link)

/-- How a link is addressed from everywhere. -/
def address? (r : Registry) (link : Link) : Option Address := r.index.addresses.lookup link

/-- What a link leads to, as seen from a scope. -/
def lookupTarget (r : Registry) (s : ScopeId) (link : Link) : Option Target :=
  ((r.findStatic s (atAnchor Scope.anchors link)).map Target.entry).or
    ((r.address? link).map Address.target)

/-- The block that a link leads to, as seen from a scope. -/
def lookupBlock (r : Registry) (s : ScopeId) (link : Link) : Option BlockId :=
  (r.findStatic s (atAnchor Scope.blocks link)).or
    (match link with
      | .tag name => r.index.blocks.lookup name
      | .place path anchor =>
        ((r.index.documents.lookup path).bind r.scope?).bind (·.blocks.lookup anchor))

/-- The node with a tag of some type, as seen from a scope. -/
def lookupTag (r : Registry) (s : ScopeId) (typ tag : String) : Option TagEntry :=
  (r.findStatic s (·.tags.lookup (typ, tag))).or (r.index.tags.lookup (typ, tag))

/-- The value with a name, as seen from a scope. -/
def lookupValue (r : Registry) (s : ScopeId) (name : String) : Option ValueId :=
  r.findStatic s (·.values.lookup name)

def documentScope? (r : Registry) (document : String) : Option ScopeId :=
  r.index.documents.lookup document

/-- The labeled node that stands for a document. -/
def root? (r : Registry) (document : String) : Option EntryId := r.index.roots.lookup document

/-- The labeled nodes of a document in the order they were registered. -/
def entriesOf (r : Registry) (document : String) : List Entry :=
  r.entries.toList.filter (·.document = document)

end Folio.Registry
