import Folio.Resolution.Basic

/-!
# Working in frames

Ids are counted, and ranges are found, in the innermost frame that counts a label type: the
inside of a node of the same type, or else the top of the document.
-/

namespace Folio

/-- Does a frame count the ids of a label type? -/
def FrameKind.counts (typ : String) : FrameKind → Bool
  | .document _ => true
  | .subRange t _ _ => t = typ
  | _ => false

namespace Resolution

/-- The innermost frame that counts the ids of a label type. -/
def countingFrame? (s : Resolution) (f : FrameId) (typ : String) : Option (FrameId × Frame) :=
  (s.frameChain f).find? fun (_, frame) => frame.kind.counts typ

/-- The expansions that a frame lies in. -/
def callStack (s : Resolution) (f : FrameId) : CallStack :=
  ((s.frameChain f).findSome? fun (_, frame) =>
    match frame.kind with
    | .block calls => some calls
    | _ => none).getD {}

def modifyKind (s : Resolution) (f : FrameId) (kind : FrameKind → FrameKind) : Resolution :=
  { s with frames := s.frames.modify f.index fun frame => { frame with kind := kind frame.kind } }

end Resolution

namespace Run

/-- Opens a frame. -/
def pushFrame (frame : Frame) : Run FrameId := do
  let s ← get
  set { s with frames := s.frames.push frame }
  return ⟨s.frames.size⟩

/-- Counts on in the frame that counts a label type. -/
def nextId (f : FrameId) (typ : String) : Run Ordinals := do
  let s ← get
  match s.countingFrame? f typ with
  | some (owner, { kind := .document ids, .. }) =>
    let next := ((ids.lookup typ).getD {}).next
    set (s.modifyKind owner fun _ => .document ((typ, next) :: ids))
    return next
  | some (owner, { kind := .subRange t ids range, .. }) =>
    let next := ids.next
    set (s.modifyKind owner fun _ => .subRange t next range)
    return next
  | _ => return ({} : Ordinals).next

/-- Notes that a label type is in use in the document of a frame. -/
def requestRange (f : FrameId) (typ : String) : Run Unit :=
  modify fun s => s.modifyInfo (s.documentOf f) fun info =>
    if info.ranges.contains typ then info else { info with ranges := info.ranges ++ [typ] }

/-- Asks for a document to be embedded into the document of a frame, once. -/
def requestDocument (f : FrameId) (link : Link) (location : Location) : Run Unit := do
  let s ← get
  match s.info? (s.documentOf f) with
  | none => return
  | some info =>
    match info.requests.find? (·.link = link) with
    | some first => fail location (.duplicateRequest link.text first.location)
    | none =>
      set (s.modifyInfo (s.documentOf f) fun info =>
        { info with requests := info.requests ++ [{ link, location }] })

/-- Opens the frame inside a labeled node. -/
def subRangeFrame (f : FrameId) (typ : String) (ids : Ordinals) : Run FrameId := do
  let s ← get
  pushFrame
    { parent := some f, document := s.documentOf f, scope := s.scopeOf f
      kind := .subRange typ ids none }

/-- Opens a frame with the scope that a value was bound in. -/
def staticFrame (f : FrameId) (binding : Binding) : Run FrameId := do
  let s ← get
  pushFrame
    { parent := some f, document := s.documentOf f, scope := s.scopeOf binding.frame
      kind := .static }

/-- The range in use for a label type. -/
def numberRange (f : FrameId) (typ : String) (location : Location) : Run RangeId := do
  let s ← get
  let range := match s.countingFrame? f typ with
    | some (_, { kind := .subRange _ _ range, .. }) => range
    | some (_, { kind := .document _, document, .. }) => s.documentRange? document typ
    | _ => none
  orFail location (.missingNumberRange typ) range

/-- The value with a name, as seen from a frame. -/
def lookupValue (f : FrameId) (name : String) : Run (Option Binding) := do
  let s ← get
  return (s.registry.lookupValue (s.scopeOf f) name).bind s.registry.value?

def setState (f : FrameId) (key : NodeKey) (state : NodeState) : Run Unit :=
  modify (·.setState f key state)

end Run

end Folio
