import Folio.Scope.Basic

/-!
# Answers to probes

What a resolution answers to the requests of probes, and the journal it keeps of them.
-/

namespace Folio.Probe

/-- The phases in which probes ask. -/
inductive Phase where
  | register
  | labels
  | values
  deriving DecidableEq, Repr

def Questions.inPhase (q : Questions) : Phase → List Question
  | .register => q.register
  | .labels => q.labels
  | .values => q.values

/-- A range as probes see it. -/
structure RangeView where
  typ : String
  abbreviation : String
  level : Nat
  separator : String
  slots : List LabelId
  actual : Option LabelId
  deriving DecidableEq, Repr

/-- The answer to a request. -/
inductive Answer where
  | nothing
  | failed (error : ResolveError)
  | rejected (cause : NumberingError)
  | refused (cause : LinkError)
  | number (n : Nat)
  | text (text : String)
  | flag (flag : Bool)
  | names (names : List String)
  | id (id : LabelId)
  | tag (tag : String) (explicit : Bool)
  | attributes (values : List (String × Option String))
  | entry (entry : Entry)
  | document (path : String)
  | calls (calls : CallStack)
  | range (view : RangeView)
  deriving DecidableEq

/-- A request with its answer. -/
structure Record where
  phase : Phase
  request : Request
  answer : Answer
  deriving DecidableEq

/-- The frames that a probe has opened and the ranges it has found, the first ones first. -/
structure Findings where
  frames : List FrameId := []
  ranges : List RangeId := []
  deriving DecidableEq, Repr

end Folio.Probe
