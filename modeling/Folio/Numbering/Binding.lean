import Folio.Numbering.Basic

/-!
# Binding labels

Labels are bound to the slots of a range in the order the slots were claimed, and below each slot
to those of its nested range. A range counts by the rule that comes from the slot above, or by
its own rule glued behind that. Whenever the lead changes from one slot to the next, the shown
numbers start again, so that a range that follows sections counts 2-a, 2-b, 3-a.
-/

namespace Folio

namespace Range

/-- The rule of a range below a slot, given the rule that comes from there. An own rule is glued
behind the rule of the slot above. -/
def ruleBelow (r : Range) (incoming : LabelRule) : LabelRule :=
  let rule := match r.rule with
    | none => incoming
    | some own =>
      match incoming.parent? with
      | some above => .compose above r.separator own
      | none => own
  rule.withLevel r.weight

/-- The rule of a range at the top. -/
def ruleAtTop? (r : Range) : Option LabelRule :=
  r.rule.map (·.withLevel r.weight)

end Range

namespace Layout

/-- The rule of the next slot, given the rule of the slot before and the leads of both. -/
def advance (rule : LabelRule) (previous lead : Option SlotId) : LabelRule :=
  (if lead = previous then rule else rule.reset).next

/-- Binds labels to the slots from one slot on and to all slots below them. The links lead to
later slots, so `fuel` need not exceed the number of slots by more than one. -/
def bindFrom : Nat → String → LabelRule → Option SlotId → Option SlotId → Layout → Layout
  | 0, _, _, _, _, l => l
  | fuel + 1, separator, rule, previous, cursor, l =>
    match cursor.bind fun id => (l.slot? id).map (id, ·) with
    | none => l
    | some (id, slot) =>
      let rule := advance rule previous slot.lead
      let bound := rule.withLevel slot.pinned
      let l := l.modifySlot id fun s => { s with label := some (.ofLead slot.lead separator bound) }
      let l := match slot.nested.bind l.range? with
        | none => l
        | some r => bindFrom fuel r.separator (r.ruleBelow bound.sub) none r.first l
      bindFrom fuel separator rule slot.lead slot.next l

/-- Binds labels to the slots of a range and to all slots below them. `incoming` is a rule that
the range continues. -/
def createLabels (l : Layout) (range : RangeId) (incoming : Option LabelRule) :
    Except NumberingError Layout :=
  match l.range? range with
  | none => .error (.unknownRange range)
  | some r =>
    let rule := match incoming with
      | some rule => some (r.ruleBelow rule)
      | none => r.ruleAtTop?
    match rule with
    | none => .error (.missingRule r.typ)
    | some rule => .ok (l.bindFrom (l.slots.size + 1) r.separator rule none r.first)

end Layout

/-- Binds labels to the slots of a range and to all slots below them. -/
def Numbering.createLabels (n : Numbering) (range : RangeId) (incoming : Option LabelRule) :
    Except NumberingError Numbering :=
  (n.layout.createLabels range incoming).map fun layout => { n with layout }

end Folio
