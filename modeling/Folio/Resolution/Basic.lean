import Folio.Document
import Folio.Options
import Folio.Probe.Answer
import Folio.Scope.Registration

/-!
# Resolutions

A resolution works off a set of documents in phases: names are registered, documents are put in
order, slots are claimed and labels bound to them, and texts that depend on all that are found.
`Resolution` is what is known at a time.

Nodes are handled in *frames*. The frame of a document and the frames inside labeled nodes count
ids. The frame of a block's expansion brings the scope of the expansion, and a value is evaluated
in a frame with the scope it was bound in. Frames lie in an array, and each was opened from
inside an earlier one.

What a node has to keep from one phase to the next is its *state*. Since a node can be expanded
more than once, states belong to a node and a scope. They are kept in a list in which the first
state of a node in a scope counts.
-/

namespace Folio

/-- What a frame is for. -/
inductive FrameKind where
  /-- The top of a document, with the ids of each label type. -/
  | document (ids : List (String × Ordinals))
  /-- The inside of a labeled node, with the ids of the same type, and the range for them once it
  is there. -/
  | subRange (typ : String) (ids : Ordinals) (range : Option RangeId)
  /-- The expansion of a block. -/
  | block (calls : CallStack)
  /-- The evaluation of a value. -/
  | static

/-- A place in which nodes are handled. -/
structure Frame where
  parent : Option FrameId
  /-- The document that is worked on, which need not be the one that the nodes were written in. -/
  document : String
  scope : ScopeId
  kind : FrameKind

/-- What a node keeps. -/
inductive NodeState where
  | labeled (entry : EntryId) (frame : FrameId)
  | reference (link : Link) (target : Option Target)
  | value (frame : FrameId) (body : InlineText)
  | embedding (link : Link)
  | expansion (frame : FrameId) (body : List Node)
  | term (text : Option String)
  | probe (n : Nat)

/-- A request to embed a document. -/
structure EmbeddingRequest where
  link : Link
  location : Location
  target : Option String := none
  deriving DecidableEq, Repr

/-- What is known about a document. -/
structure DocumentInfo where
  document : Document
  scope : ScopeId
  frame : FrameId
  /-- The label types in use, in the order they are asked for. -/
  ranges : List String := []
  requests : List EmbeddingRequest := []
  /-- The document that embeds this one, and where it does. -/
  embeddedBy : Option (String × Location) := none
  /-- The ranges that the embedding document hands over, by label type. -/
  handedRanges : List (String × RangeId) := []
  /-- The document at the top of the embeddings. -/
  root : Option String := none

/-- The range of a label type in a root document. -/
structure RangeEntry where
  typ : String
  range : RangeId
  master : Option String
  location : Location
  deriving DecidableEq, Repr

/-- What is known at a time of a resolution. -/
structure Resolution where
  options : Options
  documents : Table DocumentInfo := []
  /-- The documents that no other one embeds, with the ranges they share with the documents below
  them. -/
  roots : Table (List RangeEntry) := []
  registry : Registry
  numbering : Numbering := {}
  frames : Array Frame := #[]
  states : List ((ScopeId × NodeKey) × NodeState) := []
  /-- The texts that were not found in the present pass. -/
  unresolved : List Unresolved := []
  /-- What probes were answered. -/
  journal : List Probe.Record := []
  /-- What probes have found. -/
  found : List (NodeKey × Probe.Findings) := []

/-- A step of a resolution. What was done before a failure stays. -/
abbrev Run := EStateM ResolveError Resolution

namespace Resolution

def frame? (s : Resolution) (f : FrameId) : Option Frame := s.frames[f.index]?

/-- The scope of a frame. -/
def scopeOf (s : Resolution) (f : FrameId) : ScopeId := ((s.frame? f).map Frame.scope).getD ⟨0⟩

/-- The document that is worked on in a frame. -/
def documentOf (s : Resolution) (f : FrameId) : String :=
  ((s.frame? f).map Frame.document).getD ""

/-- The frames from one outwards, together with their positions. Each was opened from inside an
earlier one, so `fuel` need not exceed the number of frames. -/
def framesUp (s : Resolution) : Nat → Option FrameId → List (FrameId × Frame)
  | _, none => []
  | 0, some _ => []
  | fuel + 1, some f =>
    match s.frame? f with
    | none => []
    | some frame => (f, frame) :: framesUp s fuel frame.parent

/-- A frame and those it lies in, the innermost first. -/
def frameChain (s : Resolution) (f : FrameId) : List (FrameId × Frame) :=
  s.framesUp s.frames.size (some f)

/-- Documents in the order of their paths. -/
def paths (s : Resolution) : List String := s.documents.keys

def info? (s : Resolution) (document : String) : Option DocumentInfo :=
  s.documents.lookup document

/-- The range entry of a label type in a root document. -/
def rangeFor? (s : Resolution) (root typ : String) : Option RangeEntry :=
  (s.roots.lookup root).bind (·.find? (·.typ = typ))

/-- The range in use for a label type at the top of a document. -/
def documentRange? (s : Resolution) (document typ : String) : Option RangeId := do
  let info ← s.info? document
  match info.handedRanges.lookup typ with
  | some range => range
  | none => (← s.rangeFor? (← info.root) typ).range

/-- The document that a link leads to or into. -/
def documentFor? (s : Resolution) (link : Link) : Option String := do
  let address ← s.registry.address? link
  if (s.info? address.document).isSome then address.document else none

/-- The written link to what a link leads to, as seen from a document: a relative path, unless it
is the same document, and the anchor. -/
def determineLink (s : Resolution) (origin : String) (link : Link) : Except LinkError String := do
  let link ← link.abs? origin true
  match s.registry.address? link with
  | none => .error (.unresolved link.text)
  | some address =>
    let path :=
      if address.document = origin then ""
      else Path.relative (Path.dir origin) (address.document ++ s.options.linkSuffix)
    .ok (if address.anchor = "" then path else path ++ "#" ++ address.anchor)

/-- The values of the attributes of a frame. -/
def attribute? (s : Resolution) (f : FrameId) (name : String) : Option String :=
  let scope := s.registry.scope? (s.scopeOf f)
  let document := s.documentOf f
  if name = "scope" then some ((scope.map Scope.name).getD "")
  else if name = "namespace" then some ((scope.map Scope.fullName).getD "")
  else if name = "docpath" then some document
  else if name = "docname" then some (Path.base document)
  else if name = "docdir" then some (Path.dir document)
  else none

/-- The state of a node in a scope. -/
def stateIn? (s : Resolution) (scope : ScopeId) (key : NodeKey) : Option NodeState :=
  s.states.lookup (scope, key)

/-- The state of a node that is handled in a frame. -/
def state? (s : Resolution) (f : FrameId) (key : NodeKey) : Option NodeState :=
  s.stateIn? (s.scopeOf f) key

def setState (s : Resolution) (f : FrameId) (key : NodeKey) (state : NodeState) : Resolution :=
  { s with states := ((s.scopeOf f, key), state) :: s.states }

def modifyInfo (s : Resolution) (document : String) (f : DocumentInfo → DocumentInfo) :
    Resolution :=
  { s with documents := s.documents.change document f }

end Resolution

namespace Run

/-- Fails at a location. -/
def fail {α : Type} (location : Location) (cause : Cause) : Run α :=
  throw (.located location cause)

/-- Takes a value, or fails at a location. -/
def orFail {α : Type} (location : Location) (cause : Cause) : Option α → Run α
  | some x => pure x
  | none => fail location cause

/-- Takes the result of something that can fail for a link. -/
def ofLink {α : Type} (location : Location) : Except LinkError α → Run α
  | .ok x => pure x
  | .error cause => fail location (.link cause)

/-- Carries out a step of registration. -/
def registry {α : Type} (step : Registry.Step α) : Run α := fun s =>
  match step s.registry with
  | .ok x registry => .ok x { s with registry }
  | .error e registry => .error e { s with registry }

/-- Carries out a step of numbering for the node at a location. -/
def numbering {α : Type} (location : Location)
    (step : Numbering → Except NumberingError (α × Numbering)) : Run α := do
  match step (← get).numbering with
  | .ok (x, numbering) =>
    modify fun s => { s with numbering }
    return x
  | .error cause => fail location (.numbering cause)

end Run

end Folio
