import Folio.Resolution.Probing

/-!
# Registration

The first phase makes everything known. Every document gets its scope and frame, and its blocks
are registered, before the nodes of the first document are. Labeled nodes get their ids, blocks
are expanded, and the documents to embed are noted.

Expansions that lie in one another belong to different blocks, so their depth is bounded by the
number of blocks.
-/

namespace Folio

/-- The label type of a labeled node. -/
def Heading.typeIn (h : Heading) (options : Options) : String := h.typ.getD options.sectionType

namespace Run

/-- Registers a labeled node and opens the frame for its body. -/
def registerHeading (f : FrameId) (h : Heading) : Run FrameId := do
  let typ := h.typeIn (← get).options
  let ids ← nextId f typ
  let id := ids.id typ
  let (tags, explicit) ←
    match h.tag with
    | none => pure ([], false)
    | some tag => do
      let (tag, explicit) ← evaluateTag f h.location tag
      pure (if tag = "" then ([], false) else ([tag], explicit))
  requestRange f typ
  let s ← get
  let e : Entry := { id, document := s.documentOf f, location := h.location }
  let entry ← registry (Registry.registerEntry (s.scopeOf f) e (tags ++ [id.text]) explicit)
  registerText f h.title
  let inner ← subRangeFrame f typ (.below id)
  setState f h.key (.labeled entry inner)
  return inner

/-- Reads the link of an embedding, which leads to a document or to a tag. -/
def readEmbedding (f : FrameId) (location : Location) (text : String) : Run Link := do
  let link ← ofLink location (Link.read? false text)
  if !link.isTag && link.anchor ≠ "" then fail location (.notStructural text)
  ofLink location (link.abs? ((← get).documentOf f) false)

/-- Registers an embedding, which counts as a section. -/
def registerEmbedding (f : FrameId) (key : NodeKey) (location : Location) (text : String) :
    Run Unit := do
  let typ := (← get).options.sectionType
  let _ ← nextId f typ
  requestRange f typ
  let link ← readEmbedding f location text
  requestDocument f link location
  setState f key (.embedding link)

/-- Registers the definition of a term. -/
def registerTerm (f : FrameId) (key : NodeKey) (location : Location) (tag : String)
    (text : InlineText) : Run Unit := do
  let (tag, explicit) ← evaluateTag f location tag
  let scope := (← get).scopeOf f
  registry (Registry.registerTag scope termType tag ⟨scope, key, location⟩ explicit)
  setState f key (.term none)
  registerText f text

mutual

/-- Registers a node. `enter` registers the nodes of an expanded block. -/
def registerNode (enter : FrameId → List Node → Run Unit) (f : FrameId) : Node → Run Unit
  | .text content => registerText f content
  | .labeled heading body => do registerNodes enter (← registerHeading f heading) body
  | .embedding key location link => registerEmbedding f key location link
  | .expansion key location block tag arguments => do
    let (inner, body) ← openExpansion f location block tag arguments
    setState f key (.expansion inner body)
    enter inner body
  | .term key location tag text => registerTerm f key location tag text
  | .probe key location questions body => do
    registerNodes enter f body
    askAll .register key location f questions

/-- Registers nodes in their order. -/
def registerNodes (enter : FrameId → List Node → Run Unit) (f : FrameId) : List Node → Run Unit
  | [] => pure ()
  | n :: rest => do
    registerNode enter f n
    registerNodes enter f rest

end

/-- Registers nodes with expansions that lie less deep than `fuel`. -/
def registerWithin : Nat → FrameId → List Node → Run Unit
  | 0, f, _ => do fail (.document ((← get).documentOf f)) .tooDeep
  | fuel + 1, f, nodes => registerNodes (registerWithin fuel) f nodes

/-- Makes a document known. -/
def addDocument (document : Document) : Run Unit := do
  let s ← get
  let (scope, registry) := s.registry.addDocument document.path
  set { s with registry }
  let frame ← pushFrame
    { parent := none, document := document.path, scope, kind := .document [] }
  modify fun s => { s with documents := s.documents.put document.path { document, scope, frame } }

end Run

mutual

/-- The number of blocks in a block, itself included. -/
def Block.total : Block → Nat
  | ⟨_, _, _, _, blocks, _⟩ => Block.totalAll blocks + 1

/-- The number of blocks in blocks, themselves included. -/
def Block.totalAll : List Block → Nat
  | [] => 0
  | b :: rest => b.total + Block.totalAll rest

end

namespace Run

/-- Registers the documents: all of their scopes first, then all of their blocks, then the nodes
of one document after the other. -/
def registerAll (documents : List Document) : Run Unit := do
  documents.forM addDocument
  let infos := (← get).documents
  infos.forM fun (_, info) => registerBlocks info.scope info.frame info.document.blocks
  let depth := Block.totalAll (documents.flatMap Document.blocks) + 2
  infos.forM fun (_, info) => do
    info.document.settings.keys.forM (requestRange info.frame)
    registerWithin depth info.frame info.document.nodes

end Run

end Folio
