import Folio.Resolution.Ranges
import Folio.Resolution.Rendering
import Folio.Resolution.Report
import Folio.Resolution.Structure
import Folio.Resolution.Values

/-!
# Collections

A collection holds the documents that are resolved together. Documents have absolute paths, and
each path belongs to one document. `Collection.resolve` goes through all phases.
-/

namespace Folio

/-- Documents under their paths, and the options for all of them. -/
structure Collection where
  options : Options := {}
  documents : Table Document := []

namespace Collection

/-- Adds a document under its path. -/
def add (c : Collection) (document : Document) : Except ResolveError Collection :=
  if !Path.isAbs document.path then
    .error (.located (.document document.path) (.description .relativePath))
  else if (c.documents.lookup document.path).isSome then
    .error (.duplicateDocument document.path)
  else .ok { c with documents := c.documents.put document.path document }

/-- The path of a document that is given relative to the root. -/
def fullPath (path : String) : String := Path.clean (Path.join "/" path)

/-- Reads a document and adds it under its full path. -/
def addText (c : Collection) (path text : String) : Except ResolveError Collection := do
  c.add (← Document.read? (fullPath path) text)

/-- What is known before the first phase. -/
def start (c : Collection) : Resolution :=
  { options := c.options, registry := { rootType := c.options.sectionType } }

/-- All phases in their order. -/
def phases (c : Collection) : Run Unit := do
  Run.registerAll (c.documents.map Prod.snd)
  Run.resolveStructure
  Run.orderDocuments
  Run.resolveRanges
  Run.resolveValues

/-- Resolves the documents. The result tells what is known in the end, also after a failure. -/
def resolve (c : Collection) : EStateM.Result ResolveError Resolution Unit :=
  c.phases.run c.start

/-- The resolution of the documents, or what stops it. -/
def resolution? (c : Collection) : Except ResolveError Resolution :=
  match c.resolve with
  | .ok _ s => .ok s
  | .error e _ => .error e

end Collection

end Folio
