import Folio.Resolution.Expansion

/-!
# Answering probes

A probe asks its questions in the frame it stands in, or in a frame that it has opened before. A
question that fails is answered by its error and does not stop anything.
-/

namespace Folio.Run

/-- What a probe has found so far. -/
def findings (key : NodeKey) : Run Probe.Findings := do
  return ((← get).found.lookup key).getD {}

def setFindings (key : NodeKey) (found : Probe.Findings) : Run Unit :=
  modify fun s => { s with found := (key, found) :: s.found }

/-- Notes a frame that a probe has opened. The answer is its number. -/
def noteFrame (key : NodeKey) (f : FrameId) : Run Probe.Answer := do
  let found ← findings key
  setFindings key { found with frames := found.frames ++ [f] }
  return .number found.frames.length

/-- An answer for something that may be absent. -/
def answerOption {α : Type} (answer : α → Probe.Answer) (x : Option α) : Probe.Answer :=
  (x.map answer).getD .nothing

/-- Claims the next slot of a range that a probe has found. -/
def probeClaim (range : RangeId) : Run Probe.Answer := do
  let s ← get
  match s.numbering.next range with
  | .error cause => return .rejected cause
  | .ok (slot, numbering) =>
    set { s with numbering }
    return answerOption (fun slot => .id slot.id) (numbering.layout.slot? slot)

/-- A range as probes see it. -/
def rangeView (layout : Layout) (range : RangeId) (r : Range) : Probe.RangeView :=
  let idOf (slot : SlotId) : Option LabelId := (layout.slot? slot).map Slot.id
  { typ := r.typ, abbreviation := r.abbreviation, level := r.level, separator := r.separator
    slots := (layout.slotsOf range).filterMap idOf
    actual := (layout.actual range).bind idOf }

/-- Answers a request of the probe with the given key, in a frame. -/
def answer (key : NodeKey) (location : Location) (f : FrameId) :
    Probe.Request → Run Probe.Answer
  | .nextId typ => do return .id ((← nextId f typ).id typ)
  | .subRange typ => do
    let ids ← nextId f typ
    noteFrame key (← subRangeFrame f typ (.below (ids.id typ)))
  | .expand link tag => do
    let s ← get
    match (s.registry.lookupBlock (s.scopeOf f) link).bind s.registry.block? with
    | none => return .nothing
    | some entry => noteFrame key (← expandBlock f entry tag location)
  | .requestRange typ => do
    requestRange f typ
    return .nothing
  | .requestDocument link => do
    requestDocument f link location
    return .nothing
  | .registerTag typ tag explicit => do
    let scope := (← get).scopeOf f
    registry (Registry.registerTag scope typ tag ⟨scope, key, location⟩ explicit)
    return .nothing
  | .registerBlock tag name => do
    let block : Block := { location, tag, name, parameters := [], blocks := [], body := [] }
    registerBlocks ((← get).scopeOf f) f [block]
    return .nothing
  | .evaluateTag tag => do
    let (tag, explicit) ← evaluateTag f location tag
    return .tag tag explicit
  | .attributes => do
    let s ← get
    return .attributes (["scope", "namespace", "docpath", "docname", "docdir", "other"].map
      fun name => (name, s.attribute? f name))
  | .sectionType => do return .text (← get).options.sectionType
  | .lookupTarget link => do
    let s ← get
    match s.registry.lookupTarget (s.scopeOf f) link with
    | some (.entry id) => return answerOption .entry (s.registry.entryAt? id)
    | some (.document path) => return .document path
    | none => return .nothing
  | .lookupBlock link => do
    let s ← get
    return answerOption (fun e => .text e.block.name)
      ((s.registry.lookupBlock (s.scopeOf f) link).bind s.registry.block?)
  | .lookupTag typ tag => do
    let s ← get
    return answerOption (fun e => .text e.location.text)
      (s.registry.lookupTag (s.scopeOf f) typ tag)
  | .lookupValue name => do return .flag (← lookupValue f name).isSome
  | .setValue name => do
    setValue f name (← addValue ⟨location, []⟩ f)
    return .nothing
  | .callStack => do return .calls ((← get).callStack f)
  | .documentForLink link => do return answerOption .text ((← get).documentFor? link)
  | .determineLink link => do
    let s ← get
    match s.determineLink (s.documentOf f) link with
    | .ok text => return .text text
    | .error cause => return .refused cause
  | .roots => do return .names (← get).roots.keys
  | .numberRange typ => do
    let range ← numberRange f typ location
    let found ← findings key
    setFindings key { found with ranges := found.ranges ++ [range] }
    let layout := (← get).numbering.layout
    return answerOption (fun r => .range (rangeView layout range r)) (layout.range? range)
  | .claim i => do
    match (← findings key).ranges[i]? with
    | none => return .nothing
    | some range => probeClaim range
  | .setState n => do
    setState f key (.probe n)
    return .nothing
  | .state => probeState
  | .increaseState => do
    let n ← probeState
    match n with
    | .number n =>
      setState f key (.probe (n + 1))
      return .number (n + 1)
    | other => return other
where
  /-- The number that a probe keeps as its state. -/
  probeState : Run Probe.Answer := do
    match (← get).state? f key with
    | some (.probe n) => return .number n
    | _ => fail location .missingNodeContext

/-- Asks one question, and writes the answer into the journal. -/
def ask (phase : Probe.Phase) (key : NodeKey) (location : Location) (f : FrameId)
    (q : Probe.Question) : Run Unit := do
  let found ← findings key
  let f := (q.frame.bind fun i => found.frames[i]?).getD f
  let s ← get
  let (answer, s) : Probe.Answer × Resolution :=
    match (Run.answer key location f q.request).run s with
    | .ok answer s => (answer, s)
    | .error e s => (.failed e, s)
  let record : Probe.Record := ⟨phase, q.request, answer⟩
  set { s with journal := s.journal ++ [record] }

/-- Asks the questions of a phase. -/
def askAll (phase : Probe.Phase) (key : NodeKey) (location : Location) (f : FrameId)
    (questions : Probe.Questions) : Run Unit :=
  (questions.inPhase phase).forM (ask phase key location f)

end Folio.Run
