import Folio.Resolution.Text

/-!
# Writing documents out

The nodes of a document are written one after the other: labeled nodes with their labels and
titles, embeddings as links.
-/

namespace Folio.Resolution

/-- The line of a labeled node: the name of its label, if it has one, and its title. -/
def renderHeading (s : Resolution) (f : FrameId) (entry : EntryId) (title : InlineText) :
    Except ResolveError String := do
  let slot := (s.registry.entryAt? entry).bind Entry.slot
  let label := match slot.bind s.numbering.layout.name with
    | some name => name ++ " "
    | none => ""
  return label ++ (← s.renderText f title) ++ "\n"

/-- The line of an embedding: the link to the document. -/
def renderEmbedding (s : Resolution) (f : FrameId) (location : Location) (link : Link) :
    Except ResolveError String :=
  match s.determineLink (s.documentOf f) link with
  | .ok text => .ok (text ++ "\n")
  | .error cause => .error (.located location (.link cause))

mutual

/-- Writes a node out. `enter` writes the nodes of an expanded block. -/
def renderNode (s : Resolution) (enter : FrameId → List Node → Except ResolveError String)
    (f : FrameId) : Node → Except ResolveError String
  | .text content => do return (← s.renderText f content) ++ "\n"
  | .labeled heading body =>
    match s.state? f heading.key with
    | some (.labeled entry inner) => do
      let line ← s.renderHeading f entry heading.title
      return line ++ (← s.renderNodes enter inner body)
    | _ => .error (.located heading.location .missingNodeContext)
  | .embedding key location _ =>
    match s.state? f key with
    | some (.embedding link) => s.renderEmbedding f location link
    | _ => .error (.located location .missingNodeContext)
  | .expansion key location _ _ _ =>
    match s.state? f key with
    | some (.expansion inner body) => enter inner body
    | _ => .error (.located location .missingNodeContext)
  | .term _ _ _ text => s.renderText f text
  | .probe _ _ _ body => s.renderNodes enter f body

/-- Writes nodes out in their order. -/
def renderNodes (s : Resolution) (enter : FrameId → List Node → Except ResolveError String)
    (f : FrameId) : List Node → Except ResolveError String
  | [] => .ok ""
  | n :: rest => do
    let text ← s.renderNode enter f n
    return text ++ (← s.renderNodes enter f rest)

end

/-- Writes nodes out whose expansions lie less deep than `fuel`. -/
def renderWithin (s : Resolution) : Nat → FrameId → List Node → Except ResolveError String
  | 0, f, _ => .error (.located (.document (s.documentOf f)) .tooDeep)
  | fuel + 1, f, nodes => s.renderNodes (renderWithin s fuel) f nodes

/-- Writes a document out. -/
def render (s : Resolution) (document : String) : Except ResolveError String :=
  match s.info? document with
  | none => .error (.located (.document document) (.unresolvedLink document))
  | some info => s.renderWithin (s.frames.size + 1) info.frame info.document.nodes

end Folio.Resolution
