import Folio.Declaration.Basic
import Folio.Link
import Folio.Numbering.Basic
import Folio.Trail

/-!
# Errors

What can be wrong with documents and with the way they refer to each other. Nearly every error is
a cause at a location. `ResolveError.message` words them.
-/

namespace Folio

/-- What is wrong with the description of a document. -/
inductive DescriptionError where
  | malformed
  | relativePath
  | emptyRange
  | emptyDirective
  | missingArgument (keyword : String)
  | extraArgument (keyword : String)
  | unknownDirective (keyword : String)
  deriving DecidableEq, Repr

/-- The wording of the cause. -/
def DescriptionError.message : DescriptionError → String
  | malformed => "malformed text"
  | relativePath => "document reference path must be absolute"
  | emptyRange => "number range type may not be empty"
  | emptyDirective => "empty directive"
  | missingArgument keyword => "directive " ++ keyword ++ " requires an argument"
  | extraArgument keyword => "directive " ++ keyword ++ " takes a single argument"
  | unknownDirective keyword => "unknown directive " ++ Text.quoted keyword

/-- What is wrong with a tag that holds substitutions. -/
inductive TagError where
  | documentScope
  | emptySubstitution
  | lineBreak
  | unterminated (tag : String)
  | unknownSubstitution (name : String)
  deriving DecidableEq, Repr

/-- The wording of the cause. -/
def TagError.message : TagError → String
  | documentScope => "no anchor composition for document scope"
  | emptySubstitution => "empty tag substitution"
  | lineBreak => "tag substitution contains a newline"
  | unterminated tag => "unterminated substitution in tag " ++ Text.quoted tag
  | unknownSubstitution name => "invalid tag substitution " ++ Text.quoted name

/-- The name of a scope is taken. -/
structure NameTaken where
  name : String
  deriving DecidableEq, Repr

/-- The wording of the cause. -/
def NameTaken.message (e : NameTaken) : String :=
  "scope name " ++ Text.quoted e.name ++ " already used"

/-- What can be registered under a name. -/
inductive Registered where
  | anchor
  | tag
  | block
  deriving DecidableEq, Repr

def Registered.word : Registered → String
  | anchor => "anchor"
  | tag => "tag"
  | block => "block"

/-- What is wrong at a location. -/
inductive Cause where
  | numbering (cause : NumberingError)
  | declaration (cause : DeclarationError)
  | description (cause : DescriptionError)
  | link (cause : LinkError)
  /-- A section reference leads neither to a document nor to a tag. -/
  | notStructural (link : String)
  | tag (cause : TagError)
  | duplicate (kind : Registered) (name : String) (first : Location)
  | duplicateId (id : LabelId) (first : Location)
  | scopeName (cause : NameTaken)
  | duplicateRequest (document : String) (first : Location)
  | duplicateEmbedding (document : String) (first : Location)
  | topLevelSections (document : String) (count : Nat)
  | structuralCycle (cycle : List String)
  | unknownMaster (typ master : String)
  | masterCycle (cycle : List String)
  | embeddedRangeConfig (typ : String)
  | missingNumberRange (typ : String)
  | unresolvedLink (link : String)
  | unknownBlock (link : String)
  | recursiveBlock (block : String) (cycle : List String) (calls : CallStack)
  | unknownParameter (block name : String)
  | missingArgument (block name : String)
  | unknownValue (name : String)
  | unknownTag (typ tag : String)
  | notResolved (what : String)
  | multilineTitle (title : String)
  | missingNodeContext
  | notStatic
  /-- Expansions are nested deeper than there are things to expand. -/
  | tooDeep
  deriving DecidableEq

/-- The wording of the cause. -/
def Cause.message : Cause → String
  | numbering cause => cause.message
  | declaration cause => "invalid numberrange declaration: " ++ cause.message
  | description cause => "invalid document description: " ++ cause.message
  | link cause => "invalid link: " ++ cause.message
  | notStructural target =>
    "invalid link: section reference " ++ Text.quoted target
      ++ " must address a document or a global tag"
  | tag cause => "invalid tag: " ++ cause.message
  | duplicate kind name first =>
    "duplicate " ++ kind.word ++ " " ++ Text.quoted name ++ " (first registered at " ++ first.text
      ++ ")"
  | duplicateId id first =>
    "duplicate id " ++ id.text ++ " (first registered at " ++ first.text ++ ")"
  | scopeName cause => "scope name " ++ Text.quoted cause.message ++ " already used"
  | duplicateRequest document first =>
    "document " ++ Text.quoted document ++ " requested twice (first requested at " ++ first.text
      ++ ")"
  | duplicateEmbedding document first =>
    "document " ++ Text.quoted document ++ " already embedded by " ++ first.text
  | topLevelSections document count =>
    "embedded document " ++ Text.quoted document ++ " has " ++ toString count
      ++ " top level sections"
  | structuralCycle cycle => "structural document cycle " ++ Trail.arrows cycle
  | unknownMaster typ master =>
    "number range " ++ typ ++ " has unknown master " ++ Text.quoted master
  | masterCycle cycle => "number range master cycle " ++ Trail.arrows cycle
  | embeddedRangeConfig typ =>
    "number range " ++ typ ++ " cannot be configured in embedded document"
  | missingNumberRange typ => "number range " ++ typ ++ " not available"
  | unresolvedLink target => "link " ++ target ++ " cannot be resolved"
  | unknownBlock target => "block " ++ target ++ " not found"
  | recursiveBlock block cycle calls =>
    "recursive use of block " ++ block ++ " (" ++ Trail.arrows cycle ++ ") via " ++ calls.text
  | unknownParameter block name =>
    "unknown parameter " ++ Text.quoted name ++ " for block " ++ block
  | missingArgument block name => "missing argument " ++ Text.quoted name ++ " for block " ++ block
  | unknownValue name => "value " ++ Text.quoted name ++ " not defined"
  | unknownTag typ name => typ ++ " " ++ Text.quoted name ++ " not found"
  | notResolved what => what ++ " not resolved yet"
  | multilineTitle title => "title must not contain line breaks: " ++ Text.quoted title
  | missingNodeContext => "node context missing"
  | notStatic => "no static evaluation possible"
  | tooDeep => "nesting too deep"

/-- A text that could not be found in the last pass over the documents. -/
structure Unresolved where
  document : String
  location : Location
  message : String
  deriving DecidableEq, Repr

/-- The written form: the location and what is wrong there. -/
def Unresolved.text (u : Unresolved) : String := u.location.text ++ ": " ++ u.message

/-- What stops a resolution. -/
inductive ResolveError where
  | located (location : Location) (cause : Cause)
  | duplicateDocument (path : String)
  | unresolved (entries : List Unresolved)
  deriving DecidableEq

namespace ResolveError

def location? : ResolveError → Option Location
  | located location _ => some location
  | _ => none

/-- The wording of the error. -/
def message : ResolveError → String
  | located location cause => location.text ++ ": " ++ cause.message
  | duplicateDocument path => "document " ++ Text.quoted path ++ " added twice"
  | unresolved entries =>
    "found " ++ toString entries.length ++ " unresolved nodes:\n"
      ++ "\n".intercalate (entries.map fun e => "   " ++ e.text)

end ResolveError

end Folio
