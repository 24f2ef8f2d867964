import Folio.Resolution.Basic

/-!
# Reports on a resolution

The labels of the nodes of a document, and label and title of what a link leads to.
-/

namespace Folio

/-- What is known about the label of a node. -/
structure LabelReport where
  id : LabelId
  name : String
  level : Option Nat
  abbreviation : String
  title : Option String
  anchors : List String
  deriving DecidableEq, Repr

namespace Resolution

/-- The label that is bound to a labeled node. -/
def labelOf? (s : Resolution) (e : Entry) : Option Label :=
  (e.slot.bind s.numbering.layout.slot?).bind Slot.label

/-- The report on a labeled node. -/
def labelReport (s : Resolution) (e : Entry) : LabelReport :=
  let label := s.labelOf? e
  { id := e.id
    name := (label.map s.numbering.layout.labelName).getD ""
    level := label.bind fun label => label.rule.level
    abbreviation := e.abbreviation
    title := e.title
    anchors := e.anchors }

/-- The reports on the labeled nodes of a document, in the order they were registered. -/
def labels (s : Resolution) (document : String) : List LabelReport :=
  (s.registry.entriesOf document).map s.labelReport

/-- How a written link in a document is addressed from everywhere. -/
def addressOf? (s : Resolution) (document link : String) : Except LinkError (Option Address) := do
  let link ← (← Link.read? true link).abs? document true
  return s.registry.address? link

/-- The labeled node that a written link in a document leads to. The link to a document leads to
the node that stands for it. -/
def entryFor? (s : Resolution) (document link : String) : Option Entry :=
  match s.addressOf? document link with
  | .ok (some ⟨_, _, .entry id⟩) => s.registry.entryAt? id
  | .ok (some ⟨_, _, .document path⟩) => (s.registry.root? path).bind s.registry.entryAt?
  | _ => none

/-- The label that a written link in a document leads to. -/
def labelFor? (s : Resolution) (document link : String) : Option String :=
  ((s.entryFor? document link).bind Entry.slot).bind s.numbering.layout.name

/-- The title that a written link in a document leads to. -/
def titleFor? (s : Resolution) (document link : String) : Option String :=
  (s.entryFor? document link).bind Entry.title

/-- The document that embeds a document. -/
def embeddedBy? (s : Resolution) (document : String) : Option String :=
  ((s.info? document).bind DocumentInfo.embeddedBy).map Prod.fst

end Resolution

end Folio
