import Folio.Resolution.Labeling

/-!
# Finding texts

Titles and terms can show other titles, terms and labels, so they are found in passes over the
documents. What cannot be found in a pass is noted and tried again in the next one. As long as
fewer texts are missing than after the pass before, it goes on.
-/

namespace Folio.Run

/-- Notes that a text could not be found. -/
def noteUnresolved (f : FrameId) (location : Location) (error : ResolveError) : Run Unit :=
  modify fun s =>
    let u : Unresolved := { document := s.documentOf f, location, message := error.message }
    { s with unresolved := s.unresolved ++ [u] }

/-- Finds the title of a labeled node. The answer is the frame for the body. -/
def findTitle (f : FrameId) (h : Heading) : Run FrameId := do
  let (entry, inner) ← labeledState f h
  checkText f h.title
  match (← get).renderText f h.title with
  | .ok text =>
    let title := Text.trim text
    if title.toList.contains '\n' then fail h.location (.multilineTitle title)
    modify fun s =>
      { s with registry := s.registry.modifyEntry entry fun e => { e with title := some title } }
  | .error e => noteUnresolved f h.location e
  return inner

/-- Finds the text of a term. -/
def findTerm (f : FrameId) (key : NodeKey) (location : Location) (body : InlineText) :
    Run Unit := do
  checkText f body
  let s ← get
  match s.renderText f body with
  | .ok text =>
    match s.state? f key with
    | some (.term _) => setState f key (.term (some (Text.trim text)))
    | _ => fail location .missingNodeContext
  | .error e => noteUnresolved f location e

mutual

/-- Finds the texts of a node. `enter` finds those of the nodes of an expanded block. -/
def findNode (enter : FrameId → List Node → Run Unit) (f : FrameId) : Node → Run Unit
  | .text content => checkText f content
  | .labeled heading body => do findNodes enter (← findTitle f heading) body
  | .embedding _ _ _ => pure ()
  | .expansion key location _ _ _ => do
    let (inner, body) ← expansionState f key location
    enter inner body
  | .term key location _ text => findTerm f key location text
  | .probe key location questions body => do
    findNodes enter f body
    askAll .values key location f questions

/-- Finds the texts of nodes in their order. -/
def findNodes (enter : FrameId → List Node → Run Unit) (f : FrameId) : List Node → Run Unit
  | [] => pure ()
  | n :: rest => do
    findNode enter f n
    findNodes enter f rest

end

/-- Finds the texts of nodes with expansions that lie less deep than `fuel`. -/
def findWithin : Nat → FrameId → List Node → Run Unit
  | 0, f, _ => do fail (.document ((← get).documentOf f)) .tooDeep
  | fuel + 1, f, nodes => findNodes (findWithin fuel) f nodes

/-- One pass over all documents that are no templates. The answer is how many texts are
missing. -/
def pass : Run Nat := do
  modify fun s => { s with unresolved := [] }
  (← get).documents.forM fun (_, info) => do
    if !info.document.template then
      findWithin ((← get).frames.size + 1) info.frame info.document.nodes
  return (← get).unresolved.length

/-- Passes after one that missed the given number of texts. Each misses fewer than the one before,
so `fuel` need not exceed that number. -/
def passesAfter : Nat → Nat → Run Unit
  | 0, _ => do throw (.unresolved (← get).unresolved)
  | fuel + 1, last => do
    let count ← pass
    if count = 0 then return
    if count ≥ last then throw (.unresolved (← get).unresolved)
    passesAfter fuel count

/-- Finds all texts. -/
def resolveValues : Run Unit := do
  let count ← pass
  if count = 0 then return
  passesAfter count count

end Folio.Run
