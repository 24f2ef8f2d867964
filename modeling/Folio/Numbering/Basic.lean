import Folio.Label.Rule

/-!
# Numbering

Labels are assigned in two phases. In the first one, nodes claim *slots* in *ranges* and open sub
ranges below their slots. That fixes the shape of the numbering, which a `Layout` holds: ranges
and slots lie in two arrays, refer to each other by position, and a reference always leads to
something that exists. In the second phase labels are bound to the slots
(`Folio.Numbering.Binding`).

A range may follow another one, its *master*. Each of its slots then keeps the slot of the master
that was the present one when it was claimed, its *lead*. A `Lead` finds that slot; it is a
function of the layout and belongs to the range, not to the layout.
-/

namespace Folio

/-- The position of a range. -/
structure RangeId where
  index : Nat
  deriving DecidableEq, Repr, Inhabited

/-- The position of a slot. -/
structure SlotId where
  index : Nat
  deriving DecidableEq, Repr, Inhabited

/-- What the rules of use of a range forbid. -/
inductive NumberingError where
  | noCurrentSlot (typ : String)
  | subRangeExists (id : LabelId)
  | finalized (typ : String)
  | missingRule (typ : String)
  | unknownRange (range : RangeId)
  deriving DecidableEq, Repr

/-- The wording of the cause. -/
def NumberingError.message : NumberingError → String
  | noCurrentSlot typ => "number range " ++ typ ++ " used before first slot"
  | subRangeExists id => "sub range for " ++ id.text ++ " already created"
  | finalized typ => "number range " ++ typ ++ " already finalized by assignment"
  | missingRule typ => "no label rule for number range " ++ typ
  | unknownRange range => "no number range at position " ++ toString range.index

/-- A rule that is bound to a slot, and the slot whose name goes in front of its own name. -/
inductive Label where
  | plain (rule : LabelRule)
  | led (lead : SlotId) (separator : String) (rule : LabelRule)
  deriving DecidableEq, Repr

namespace Label

def rule : Label → LabelRule
  | plain r => r
  | led _ _ r => r

def lead? : Label → Option SlotId
  | plain _ => none
  | led lead _ _ => some lead

/-- The label of a slot with a lead or without one. -/
def ofLead (lead : Option SlotId) (separator : String) (rule : LabelRule) : Label :=
  match lead with
  | some slot => led slot separator rule
  | none => plain rule

/-- The name of the label, given the names of slots. -/
def nameWith (slotName : SlotId → Option String) : Label → String
  | plain r => r.name
  | led lead separator r =>
    let front := (slotName lead).getD ""
    if front = "" then r.name else front ++ separator ++ r.name

end Label

/-- A place for one label. -/
structure Slot where
  /-- The structural identity, independent of the label that is bound later. -/
  id : LabelId
  range : RangeId
  /-- How many slots lie above. -/
  level : Nat
  parent : Option SlotId
  lead : Option SlotId
  /-- A display level that the label has in any case. -/
  pinned : Option Nat
  /-- The range with the slots below. -/
  nested : Option RangeId := none
  next : Option SlotId := none
  label : Option Label := none
  deriving DecidableEq, Repr

/-- How a range hands out slots. -/
inductive Stage where
  /-- Every request claims a new slot. -/
  | growing
  /-- The next request gets the slot that the range was made for. -/
  | assigned
  /-- That slot is taken. -/
  | finalized
  deriving DecidableEq, Repr

/-- A sequence of slots of one depth, or a handle on one slot of such a sequence. -/
structure Range where
  typ : String
  abbreviation : String
  /-- How many slots lie above. -/
  level : Nat := 0
  /-- Where the ids of the slots stand. -/
  ordinals : Ordinals := {}
  parent : Option SlotId := none
  first : Option SlotId := none
  current : Option SlotId := none
  lead : Option SlotId := none
  /-- Stands in front of the own rule, and behind the name of the lead. -/
  separator : String := ""
  /-- The rule of the range itself. -/
  rule : Option LabelRule := none
  /-- The display level of all labels. -/
  weight : Option Nat := none
  /-- Is there a sub range below the current slot? -/
  subOpened : Bool := false
  stage : Stage := .growing
  deriving DecidableEq, Repr

/-- The shape of a numbering: its ranges and slots, and the ranges that are in use for the types
at the moment. -/
structure Layout where
  ranges : Array Range := #[]
  slots : Array Slot := #[]
  active : List (String × RangeId) := []
  deriving DecidableEq, Repr, Inhabited

namespace Layout

def range? (l : Layout) (range : RangeId) : Option Range := l.ranges[range.index]?

def slot? (l : Layout) (slot : SlotId) : Option Slot := l.slots[slot.index]?

/-- The range in use for a type. -/
def active? (l : Layout) (typ : String) : Option RangeId := l.active.lookup typ

/-- The latest slot of a range, not counting those below it. -/
def current (l : Layout) (range : RangeId) : Option SlotId :=
  (l.range? range).bind Range.current

/-- The latest slot below a slot. Each step leads to a later slot, so `fuel` need not exceed the
number of slots. -/
def deepest (l : Layout) : Nat → SlotId → SlotId
  | 0, slot => slot
  | fuel + 1, slot =>
    match ((l.slot? slot).bind Slot.nested).bind l.current with
    | some below => deepest l fuel below
    | none => slot

/-- The latest slot of a range and of everything below it. -/
def actual (l : Layout) (range : RangeId) : Option SlotId :=
  (l.current range).map (l.deepest l.slots.size)

/-- The slots from one slot on. -/
def chain (l : Layout) : Nat → Option SlotId → List SlotId
  | _, none => []
  | 0, some _ => []
  | fuel + 1, some slot => slot :: chain l fuel ((l.slot? slot).bind Slot.next)

/-- The slots of a range in the order they were claimed. -/
def slotsOf (l : Layout) (range : RangeId) : List SlotId :=
  l.chain l.slots.size ((l.range? range).bind Range.first)

/-- The nearest slot at or above a slot whose level does not exceed a limit. Parents come earlier
than the slots below them, so `fuel` need not exceed the number of slots. -/
def ancestor (l : Layout) (limit : Nat) : Nat → SlotId → Option SlotId
  | 0, _ => none
  | fuel + 1, slot =>
    match l.slot? slot with
    | none => none
    | some s => if s.level ≤ limit then some slot else s.parent.bind (ancestor l limit fuel)

/-- The slot itself, or its ancestor at a limit. -/
def atLimit (l : Layout) (limit : Option Nat) (slot : SlotId) : Option SlotId :=
  match limit with
  | none => some slot
  | some limit => l.ancestor limit l.slots.size slot

/-- The name of a slot once a label is bound to it. A lead comes earlier than the slots it leads,
so `fuel` need not exceed the number of slots. -/
def nameAt (l : Layout) : Nat → SlotId → Option String
  | 0, _ => none
  | fuel + 1, slot => ((l.slot? slot).bind Slot.label).map (Label.nameWith (nameAt l fuel))

def name (l : Layout) (slot : SlotId) : Option String := l.nameAt l.slots.size slot

/-- The name of a label, with the names of its leads in front. -/
def labelName (l : Layout) (label : Label) : String := label.nameWith l.name

def setRange (l : Layout) (range : RangeId) (r : Range) : Layout :=
  { l with ranges := l.ranges.modify range.index fun _ => r }

def modifySlot (l : Layout) (slot : SlotId) (f : Slot → Slot) : Layout :=
  { l with slots := l.slots.modify slot.index f }

def addRange (l : Layout) (r : Range) : RangeId × Layout :=
  (⟨l.ranges.size⟩, { l with ranges := l.ranges.push r })

/-- Adds a slot at the end of a range. The slot before it, or the slot above if it is the first
one, is linked to it. -/
def addSlot (l : Layout) (range : RangeId) (r : Range) (pinned : Option Nat) : SlotId × Layout :=
  let id : SlotId := ⟨l.slots.size⟩
  let ordinals := r.ordinals.next
  let slot : Slot :=
    { id := ordinals.id r.typ
      range, level := r.level, parent := r.parent, lead := r.lead, pinned }
  let grown : Range :=
    { r with
      ordinals
      first := if r.current.isNone then some id else r.first
      current := some id }
  let l := { l with slots := l.slots.push slot }.setRange range grown
  match r.current, r.parent with
  | some previous, _ => (id, l.modifySlot previous fun s => { s with next := some id })
  | none, some parent => (id, l.modifySlot parent fun s => { s with nested := some range })
  | none, none => (id, l)

end Layout

/-- Finds the slot that leads a new slot. -/
abbrev Lead := Layout → Option SlotId

/-- The lead that follows the range in use for a master type, at most down to a limit. -/
def Lead.ofMaster (master : String) (limit : Option Nat) : Lead := fun l =>
  ((l.active? master).bind l.actual).bind (l.atLimit limit)

/-- A layout, and the leads of the ranges that follow a master. -/
structure Numbering where
  layout : Layout := {}
  leads : List (RangeId × Lead) := []
  deriving Inhabited

namespace Numbering

/-- Adds a range at the top. -/
def newRange (n : Numbering) (typ abbreviation : String) (lead : Option Lead) :
    RangeId × Numbering :=
  let (id, layout) := n.layout.addRange { typ, abbreviation }
  match lead with
  | some lead => (id, ⟨layout, (id, lead) :: n.leads⟩)
  | none => (id, ⟨layout, n.leads⟩)

/-- Sets the rule of a range and its separator. -/
def setRule (n : Numbering) (range : RangeId) (separator : String) (rule : Option LabelRule) :
    Numbering :=
  { n with layout.ranges := n.layout.ranges.modify range.index fun r =>
      { r with separator, rule } }

/-- Sets the display level of the labels of a range. -/
def setWeight (n : Numbering) (range : RangeId) (weight : Option Nat) : Numbering :=
  { n with layout.ranges := n.layout.ranges.modify range.index fun r => { r with weight } }

/-- Sets the ranges that are in use for the types. -/
def setActive (n : Numbering) (active : List (String × RangeId)) : Numbering :=
  { n with layout.active := active }

/-- Asks the lead of a range, if it has one, and adds a slot. -/
def claim (n : Numbering) (range : RangeId) (r : Range) (pinned : Option Nat) :
    SlotId × Numbering :=
  let lead := match n.leads.lookup range with
    | some lead => lead n.layout
    | none => r.lead
  let (slot, layout) := n.layout.addSlot range { r with lead } pinned
  (slot, { n with layout })

/-- Requests the next slot of a range. -/
def next (n : Numbering) (range : RangeId) : Except NumberingError (SlotId × Numbering) :=
  match n.layout.range? range with
  | none => .error (.unknownRange range)
  | some r =>
    match r.stage, r.current with
    | .finalized, _ => .error (.finalized r.typ)
    | .assigned, some slot =>
      let r := { r with subOpened := false, stage := .finalized }
      .ok (slot, { n with layout := n.layout.setRange range r })
    | _, _ => .ok (n.claim range { r with subOpened := false } none)

/-- Opens a range below the current slot, once for each slot. -/
def sub (n : Numbering) (range : RangeId) : Except NumberingError (RangeId × Numbering) :=
  match n.layout.range? range with
  | none => .error (.unknownRange range)
  | some r =>
    match r.current.bind fun slot => (n.layout.slot? slot).map (slot, ·) with
    | none => .error (.noCurrentSlot r.typ)
    | some (slot, s) =>
      if r.subOpened then .error (.subRangeExists s.id)
      else
        let (id, layout) := (n.layout.setRange range { r with subOpened := true }).addRange
          { typ := r.typ, abbreviation := r.abbreviation, level := r.level + 1
            ordinals := .below s.id, parent := some slot, lead := r.lead, separator := r.separator }
        .ok (id, { n with layout })

/-- Claims a slot and makes a range that hands out just this slot, with a display level that the
label of the slot then has. So the sequence of a document goes on inside another one. -/
def assign (n : Numbering) (range : RangeId) (level : Option Nat) :
    Except NumberingError (RangeId × Numbering) :=
  match n.layout.range? range with
  | none => .error (.unknownRange range)
  | some r =>
    let (slot, n) := n.claim range r level
    let r := (n.layout.range? range).getD r
    let (id, layout) := n.layout.addRange
      { typ := r.typ, abbreviation := r.abbreviation, level := r.level
        ordinals := r.ordinals, parent := r.parent, current := some slot, lead := r.lead
        separator := r.separator, weight := level, stage := .assigned }
    .ok (id, { n with layout })

end Numbering

end Folio
