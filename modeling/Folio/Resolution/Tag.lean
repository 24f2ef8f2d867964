import Folio.Resolution.Text

/-!
# Tags with substitutions

A tag inside the expansion of a block may hold the names of attributes and of values in braces.
They are replaced by the texts they stand for, which makes the tag fit to be known outside: it is
*explicit*. Tags in the scope of a document are explicit from the start and hold no
substitutions.
-/

namespace Folio.Run

/-- The text that a name in a tag stands for. -/
def substitution (f : FrameId) (location : Location) (name : String) : Run String := do
  match (← get).attribute? f name with
  | some text => pure text
  | none =>
    let binding ← orFail location (.tag (.unknownSubstitution name)) (← lookupValue f name)
    return Text.trim (← staticText (← staticFrame f binding) binding.body)

/-- Works off a tag. `name` is the name in braces that is being read, backwards, and `read` is the
tag so far, together with whether it is explicit. -/
def substitute (f : FrameId) (location : Location) (inDocument : Bool) (tag : String) :
    Option (List Char) → String × Bool → List Char → Run (String × Bool)
  | none, read, [] => pure read
  | some _, _, [] => fail location (.tag (.unterminated tag))
  | none, (read, explicit), c :: cs =>
    if c ≠ '\x7b' then substitute f location inDocument tag none (read.push c, explicit) cs
    else if inDocument then fail location (.tag .documentScope)
    else substitute f location inDocument tag (some []) (read, explicit) cs
  | some name, (read, explicit), c :: cs => do
    if c ≠ '\x7d' then
      substitute f location inDocument tag (some (c :: name)) (read, explicit) cs
    else if name = [] then fail location (.tag .emptySubstitution)
    else
      let text ← substitution f location (String.ofList name.reverse)
      if text.toList.contains '\n' then fail location (.tag .lineBreak)
      substitute f location inDocument tag none (read ++ text, true) cs

/-- Replaces the substitutions in a tag. The answer is the tag, and whether it is explicit. -/
def evaluateTag (f : FrameId) (location : Location) (tag : String) : Run (String × Bool) := do
  let s ← get
  let inDocument := ((s.registry.scope? (s.scopeOf f)).map Scope.name).getD "" = ""
  substitute f location inDocument tag none ("", inDocument) tag.toList

end Folio.Run
