import Folio.Resolution.Frames

/-!
# The order of documents

A document can be embedded by one other document, and then stands below it. The embeddings have to
be free of cycles, so that every document has a root: the one at the top, which no other document
embeds.
-/

namespace Folio.Run

/-- Finds the document that a request is for, and notes who embeds it. -/
def resolveRequest (source : String) (request : EmbeddingRequest) : Run EmbeddingRequest := do
  let s ← get
  let target := match request.link with
    | .tag _ => ((s.registry.address? request.link).map Address.document).getD ""
    | .place path _ => path
  let info ← orFail request.location (.unresolvedLink request.link.text) (s.info? target)
  match info.embeddedBy with
  | some (_, first) => fail request.location (.duplicateEmbedding target first)
  | none => pure ()
  let count := info.document.topLevelSections
  if count > 1 then fail request.location (.topLevelSections target count)
  set (s.modifyInfo target fun info => { info with embeddedBy := some (source, request.location) })
  return { request with target := some target }

/-- Finds the documents that all requests are for. -/
def resolveStructure : Run Unit := do
  (← get).paths.forM fun source => do
    match (← get).info? source with
    | none => return
    | some info =>
      let requests ← info.requests.mapM (resolveRequest source)
      modify (·.modifyInfo source fun info => { info with requests })

/-- Finds the root of a document. `trail` holds the documents below it that ask for theirs, so
`fuel` need not exceed the number of documents by more than one. -/
def findRoot : Nat → Trail → String → Run String
  | 0, _, document => fail (.document document) .tooDeep
  | fuel + 1, trail, document => do
    match (← get).info? document with
    | none => return document
    | some { root := some root, .. } => return root
    | some info =>
      let trail ←
        match trail.add? document with
        | .ok trail => pure trail
        | .error cycle =>
          let location := (info.embeddedBy.map Prod.snd).getD (.document document)
          fail location (.structuralCycle cycle)
      let root ←
        match info.embeddedBy with
        | some (parent, _) => findRoot fuel trail parent
        | none =>
          modify fun s => { s with roots := s.roots.put document [] }
          pure document
      modify (·.modifyInfo document fun info => { info with root := some root })
      return root

/-- Finds the root of every document. -/
def orderDocuments : Run Unit := do
  let paths := (← get).paths
  paths.forM fun document => do
    let _ ← findRoot (paths.length + 1) {} document

end Folio.Run
