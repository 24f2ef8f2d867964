import Folio.Declaration.Reader
import Folio.Description.Reader
import Folio.Node

/-!
# Documents

A document is made from its description: declarations are carried out, and texts are taken apart.
The statements, that is declarations, blocks and nodes, are numbered in reading order. Their
locations consist of that number and of the nesting depth.
-/

namespace Folio

/-- A document. -/
structure Document where
  path : String
  template : Bool
  settings : Settings
  blocks : List Block
  nodes : List Node

namespace Document

/-- How many sections stand at the top. -/
def topLevelSections (d : Document) : Nat := d.nodes.countP Node.isSection

/-- How many statements and nodes are numbered so far. -/
structure Position where
  line : Nat := 0
  nodes : Nat := 0

/-- Making a part of the document at a path. -/
abbrev Making (α : Type) := StateT Position (Except ResolveError) α

/-- The location of the next statement. -/
def nextLocation (document : String) (depth : Nat) : Making Location := do
  modify fun p => { p with line := p.line + 1 }
  return ⟨document, (← get).line, depth⟩

/-- The key of the next node. -/
def nextKey (document : String) : Making NodeKey := do
  modify fun p => { p with nodes := p.nodes + 1 }
  return ⟨document, (← get).nodes⟩

/-- Reads a text of the statement at a location. -/
def inlineText (document : String) (location : Location) (text : String) :
    Making InlineText := do
  let content ← InlineText.read? document ((← get).nodes + 1) location text
  modify fun p => { p with nodes := p.nodes + content.parts.length }
  return content

/-- Reads `[separator]kind[:#level]`. -/
def readNestedRule (typ text : String) : Except DeclarationError NestedRule := do
  let (kind, level) ← match text.toList.dropWhile (· ≠ ':') with
    | _ :: level => do
      let level ← readLevel "level" (String.ofList level)
      pure (String.ofList (text.toList.takeWhile (· ≠ ':')), some level)
    | [] => pure (text, none)
  let (separator, rule) ← readRuleKind typ kind level
  return { separator, rule, level }

/-- Reads the rule for the sub ranges inside the statement at a location. -/
def nestedRule (location : Location) (typ text : String) : Making NestedRule :=
  match readNestedRule typ text with
  | .ok rule => return rule
  | .error cause => throw (.located location (.declaration cause))

mutual

/-- Makes a node. -/
def node (document : String) (depth : Nat) : NodeDescription → Making Node
  | .text text => do
    let location ← nextLocation document depth
    return .text (← inlineText document location text)
  | .heading tag title body => do
    let location ← nextLocation document depth
    let key ← nextKey document
    let title ← inlineText document location title
    let body ← nodeList document (depth + 1) body
    return .labeled { key, location, typ := none, tag, title, nested := none } body
  | .subRange typ tag title rule body => do
    let location ← nextLocation document depth
    let key ← nextKey document
    if typ = "" then throw (.located location (.description .emptyRange))
    let title ← inlineText document location title
    let body ← nodeList document (depth + 1) body
    let nested ← rule.mapM (nestedRule location typ)
    return .labeled { key, location, typ := some typ, tag, title, nested } body
  | .embedding link => do
    let location ← nextLocation document depth
    return .embedding (← nextKey document) location link
  | .expansion block tag arguments => do
    let location ← nextLocation document depth
    let key ← nextKey document
    let arguments ← arguments.mapM fun (name, text) => do
      return (name, ← inlineText document location text)
    return .expansion key location block tag arguments
  | .term tag text => do
    let location ← nextLocation document depth
    let key ← nextKey document
    return .term key location tag (← inlineText document location text)

/-- Makes nodes in reading order. -/
def nodeList (document : String) (depth : Nat) : List NodeDescription → Making (List Node)
  | [] => return []
  | n :: rest => do
    let n ← node document depth n
    return n :: (← nodeList document depth rest)

end

mutual

/-- Makes a block, whose name starts with `outer`. -/
def block (document : String) (depth : Nat) (outer : String) : BlockDescription → Making Block
  | ⟨tag, parameters, blocks, body⟩ => do
    let location ← nextLocation document depth
    let parameters ← parameters.mapM fun p => do
      return (⟨p.name, ← p.default.mapM (inlineText document location)⟩ : Parameter)
    let name := outer ++ tag
    let blocks ← blockList document (depth + 1) (name ++ "/") blocks
    let body ← nodeList document (depth + 1) body
    return { location, tag, name, parameters, blocks, body }

/-- Makes blocks in reading order. -/
def blockList (document : String) (depth : Nat) (outer : String) :
    List BlockDescription → Making (List Block)
  | [] => return []
  | b :: rest => do
    let b ← block document depth outer b
    return b :: (← blockList document depth outer rest)

end

/-- Carries out declarations. -/
def declarations (document : String) (settings : Settings) : List String → Making Settings
  | [] => return settings
  | text :: rest => do
    let location ← nextLocation document 0
    match (Settings.declare location text).run settings with
    | .ok _ settings => declarations document settings rest
    | .error cause _ => throw (.located location (.declaration cause))

/-- Makes the document at a path from its description. -/
def ofDescription? (path : String) (description : Description) : Except ResolveError Document := do
  let make : Making Document := do
    let settings ← declarations path [] description.declarations
    let blocks ← blockList path 0 (path ++ "#") description.blocks
    let nodes ← nodeList path 0 description.nodes
    return { path, template := description.template, settings, blocks, nodes }
  return (← make.run {}).1

/-- Reads the document at a path. -/
def read? (path text : String) : Except ResolveError Document :=
  match Description.read? text with
  | some description => ofDescription? path description
  | none => .error (.located (.document path) (.description .malformed))

end Document

end Folio
