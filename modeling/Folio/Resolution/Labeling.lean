import Folio.Numbering.Binding
import Folio.Resolution.Probing
import Folio.Resolution.Registration

/-!
# Claiming slots

In the second phase, labeled nodes claim the next slot of the range in use for their type, and
open the range for the nodes inside. An embedding claims a slot for the top level section of the
embedded document and hands it over. References find their targets on the way.

An expansion that was registered inside another one has a later frame, so the number of frames
bounds the depth of the expansions.
-/

namespace Folio.Run

/-- The entry of a labeled node, and the frame for its body. -/
def labeledState (f : FrameId) (h : Heading) : Run (EntryId × FrameId) := do
  match (← get).state? f h.key with
  | some (.labeled entry inner) => pure (entry, inner)
  | _ => fail h.location .missingNodeContext

/-- The frame and the nodes of an expansion. -/
def expansionState (f : FrameId) (key : NodeKey) (location : Location) :
    Run (FrameId × List Node) := do
  match (← get).state? f key with
  | some (.expansion inner body) => pure (inner, body)
  | _ => fail location .missingNodeContext

/-- Binds a slot of a range to a labeled node. -/
def bindSlot (entry : EntryId) (range : RangeId) (slot : SlotId) : Run Unit :=
  modify fun s =>
    let abbreviation := ((s.numbering.layout.range? range).map Range.abbreviation).getD ""
    { s with registry := s.registry.modifyEntry entry fun e =>
        { e with slot := some slot, abbreviation } }

/-- Sets the rule for the ranges inside a node. -/
def setNestedRule (range : RangeId) (nested : NestedRule) : Run Unit :=
  modify fun s =>
    let numbering :=
      if nested.level.isSome then s.numbering.setWeight range nested.level else s.numbering
    { s with numbering := numbering.setRule range nested.separator nested.rule }

/-- Sets the range that is counted inside a labeled node. -/
def setFrameRange (f : FrameId) (range : RangeId) : Run Unit :=
  modify fun s => s.modifyKind f fun kind =>
    match kind with
    | .subRange typ ids _ => .subRange typ ids (some range)
    | other => other

/-- Claims the slot of a labeled node and opens the range inside. The answer is the frame for the
body. -/
def labelHeading (f : FrameId) (h : Heading) : Run FrameId := do
  let (entry, inner) ← labeledState f h
  labelText f h.title
  let typ := h.typeIn (← get).options
  let range ← numberRange f typ h.location
  let slot ← numbering h.location (·.next range)
  bindSlot entry range slot
  let below ← numbering h.location (·.sub range)
  match h.nested with
  | some nested => setNestedRule below nested
  | none => pure ()
  setFrameRange inner below
  return inner

/-- The level that a document sets for the slot that it is embedded at. -/
def embeddedLevel (info : DocumentInfo) (typ : String) : Option Nat := do
  let settings ← info.document.settings.lookup typ
  if settings.rule.isSome then none else settings.level

/-- Claims a slot for the top level section of an embedded document. -/
def labelEmbedding (f : FrameId) (key : NodeKey) (location : Location) : Run Unit := do
  let s ← get
  let link ←
    match s.state? f key with
    | some (.embedding link) => pure link
    | _ => fail location .missingNodeContext
  let unresolved : Cause := .unresolvedLink link.text
  let _ ← orFail location unresolved (s.registry.lookupTarget (s.scopeOf f) link)
  let document ← orFail location unresolved (s.documentFor? link)
  let typ := s.options.sectionType
  let range ← numberRange f typ location
  match (← get).info? document with
  | none => return
  | some info =>
    let assigned ← numbering location (·.assign range (embeddedLevel info typ))
    modify (·.modifyInfo document fun info =>
      { info with handedRanges := (typ, assigned) :: info.handedRanges })

mutual

/-- Claims the slots of a node. `enter` claims those of the nodes of an expanded block. -/
def labelNode (enter : FrameId → List Node → Run Unit) (f : FrameId) : Node → Run Unit
  | .text content => labelText f content
  | .labeled heading body => do labelNodes enter (← labelHeading f heading) body
  | .embedding key location _ => labelEmbedding f key location
  | .expansion key location _ _ _ => do
    let (inner, body) ← expansionState f key location
    enter inner body
  | .term _ _ _ text => labelText f text
  | .probe key location questions body => do
    labelNodes enter f body
    askAll .labels key location f questions

/-- Claims the slots of nodes in their order. -/
def labelNodes (enter : FrameId → List Node → Run Unit) (f : FrameId) : List Node → Run Unit
  | [] => pure ()
  | n :: rest => do
    labelNode enter f n
    labelNodes enter f rest

end

/-- Claims the slots of nodes with expansions that lie less deep than `fuel`. -/
def labelWithin : Nat → FrameId → List Node → Run Unit
  | 0, f, _ => do fail (.document ((← get).documentOf f)) .tooDeep
  | fuel + 1, f, nodes => labelNodes (labelWithin fuel) f nodes

end Folio.Run
