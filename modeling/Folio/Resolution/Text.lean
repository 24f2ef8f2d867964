import Folio.Resolution.Frames

/-!
# Inline text in a resolution

The parts of an inline text take part in the phases. References are read when they are registered
and find their targets once all names are known. A value stands for the text that it is bound to,
which is handled in the place where it was bound, and may hold values itself. Since such a place
has an earlier scope each time, and the frames of registered values come later and later, the
numbers of scopes and of frames bound the depth.

* `registerText` registers the parts, `labelText` finds the targets of references, `checkText`
  goes through the values again, and `renderText` writes the text out.
* `staticText` writes a text out before anything is registered, which references do not allow.
-/

namespace Folio

namespace Run

/-- Writes out a text of values, attributes and plain text. -/
def staticTextWithin : Nat → FrameId → InlineText → Run String
  | 0, _, body => fail body.location .tooDeep
  | fuel + 1, f, body => do
    let texts ← body.parts.mapM fun part =>
      match part with
      | .text text => pure text
      | .attribute name => do
        orFail body.location (.unknownValue name) ((← get).attribute? f name)
      | .value _ name => do
        let binding ← orFail body.location (.unknownValue name) (← lookupValue f name)
        staticTextWithin fuel (← staticFrame f binding) binding.body
      | .reference .. | .term _ => fail body.location .notStatic
    return String.join texts

/-- Writes out a text of values, attributes and plain text. -/
def staticText (f : FrameId) (body : InlineText) : Run String := do
  staticTextWithin ((← get).registry.scopes.size + 2) f body

/-- Reads a link that stands in the document of a frame. -/
def readLink (f : FrameId) (location : Location) (text : String) : Run Link := do
  let link ← ofLink location (Link.read? true text)
  ofLink location (link.abs? ((← get).documentOf f) false)

/-- Registers the parts of a text. -/
def registerTextWithin : Nat → FrameId → InlineText → Run Unit
  | 0, _, body => fail body.location .tooDeep
  | fuel + 1, f, body =>
    body.parts.forM fun part =>
      match part with
      | .text _ | .term _ => pure ()
      | .attribute name => do
        let _ ← orFail body.location (.unknownValue name) ((← get).attribute? f name)
      | .reference key _ link => do
        setState f key (.reference (← readLink f body.location link) none)
      | .value key name => do
        let binding ← orFail body.location (.unknownValue name) (← lookupValue f name)
        let inner ← staticFrame f binding
        setState f key (.value inner binding.body)
        registerTextWithin fuel inner binding.body

/-- Registers the parts of a text. -/
def registerText (f : FrameId) (body : InlineText) : Run Unit := do
  registerTextWithin ((← get).registry.scopes.size + 2) f body

/-- The text that a value stands for, and the frame it is handled in. -/
def valueState (f : FrameId) (location : Location) (key : NodeKey) :
    Run (FrameId × InlineText) := do
  match (← get).state? f key with
  | some (.value inner body) => pure (inner, body)
  | _ => fail location .missingNodeContext

/-- Finds the targets of the references in a text. -/
def labelTextWithin : Nat → FrameId → InlineText → Run Unit
  | 0, _, body => fail body.location .tooDeep
  | fuel + 1, f, body =>
    body.parts.forM fun part =>
      match part with
      | .text _ | .term _ | .attribute _ => pure ()
      | .reference key _ _ => do
        let s ← get
        match s.state? f key with
        | some (.reference link _) =>
          let target ← orFail body.location (.unresolvedLink link.text)
            (s.registry.lookupTarget (s.scopeOf f) link)
          setState f key (.reference link (some target))
        | _ => fail body.location .missingNodeContext
      | .value key _ => do
        let (inner, body) ← valueState f body.location key
        labelTextWithin fuel inner body

/-- Finds the targets of the references in a text. -/
def labelText (f : FrameId) (body : InlineText) : Run Unit := do
  labelTextWithin ((← get).frames.size + 1) f body

/-- Goes through the values in a text, which all have to be registered. -/
def checkTextWithin : Nat → FrameId → InlineText → Run Unit
  | 0, _, body => fail body.location .tooDeep
  | fuel + 1, f, body =>
    body.parts.forM fun part =>
      match part with
      | .value key _ => do
        let (inner, body) ← valueState f body.location key
        checkTextWithin fuel inner body
      | _ => pure ()

/-- Goes through the values in a text, which all have to be registered. -/
def checkText (f : FrameId) (body : InlineText) : Run Unit := do
  checkTextWithin ((← get).frames.size + 1) f body

end Run

/-- The label type of terms. -/
def termType : String := "term"

namespace Resolution

/-- The labeled node that a reference with a found target shows. -/
def referenced? (s : Resolution) : Option Target → Option Entry
  | some (.entry id) => s.registry.entryAt? id
  | some (.document path) => (s.registry.root? path).bind s.registry.entryAt?
  | none => none

/-- What a reference shows of a labeled node, if it is known by now. -/
def aspect? (s : Resolution) (e : Entry) : Aspect → Option String
  | .label => (e.slot.bind s.numbering.layout.name).map fun name =>
      if e.abbreviation = "" then name else e.abbreviation ++ " " ++ name
  | .title => e.title

/-- What an aspect is called. -/
def aspectName : Aspect → String
  | .label => "label"
  | .title => "title"

/-- Writes a part of a text that stands at a location. `value` writes the text of a value. -/
def renderPart (s : Resolution) (value : FrameId → InlineText → Except ResolveError String)
    (f : FrameId) (location : Location) : Part → Except ResolveError String
  | .text text => .ok text
  | .attribute name => .ok ((s.attribute? f name).getD "")
  | .reference key aspect written =>
    match s.state? f key with
    | some (.reference link target) =>
      match s.referenced? target with
      | none => .error (.located location (.unresolvedLink link.text))
      | some e =>
        match s.aspect? e aspect with
        | some text => .ok text
        | none => .error (.located location (.notResolved (aspectName aspect ++ " of " ++ written)))
    | _ => .error (.located location .missingNodeContext)
  | .value key _ =>
    match s.state? f key with
    | some (.value inner body) => value inner body
    | _ => .error (.located location .missingNodeContext)
  | .term tag =>
    match s.registry.lookupTag (s.scopeOf f) termType tag with
    | none => .error (.located location (.unknownTag termType tag))
    | some e =>
      match s.stateIn? e.scope e.node with
      | some (.term (some text)) => .ok text
      | _ => .error (.located location (.notResolved ("term " ++ tag)))

/-- Writes a text out. -/
def renderTextWithin (s : Resolution) : Nat → FrameId → InlineText → Except ResolveError String
  | 0, _, body => .error (.located body.location .tooDeep)
  | fuel + 1, f, body => do
    let texts ← body.parts.mapM (s.renderPart (renderTextWithin s fuel) f body.location)
    return String.join texts

/-- Writes a text out. -/
def renderText (s : Resolution) (f : FrameId) (body : InlineText) : Except ResolveError String :=
  s.renderTextWithin (s.frames.size + 1) f body

end Resolution

end Folio
