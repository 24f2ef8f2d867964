import Folio.Description.Basic
import Folio.Yaml.Record

/-!
# Reading descriptions

Descriptions are written in YAML:

```
numberranges:
  - "section:1.:#1 abbrev=Sect."
blocks:
  - tag: note
    params:
      - name: title
        default: Note
    nodes:
      - subrange: { range: figure, tag: "{title}", title: "{{value title}}" }
nodes:
  - section:
      tag: intro
      title: Introduction
      nodes:
        - text: "See {{ref #intro}}"
        - blockref: { block: note, args: { title: Details } }
  - sectionref: chapter
  - term: { tag: folio, text: a leaf of paper }
```

Documents, blocks and parameters know all of their keys. Nodes ignore the keys that they do not
know.
-/

namespace Folio.Description

open Yaml

mutual

/-- Reads a node, which is a mapping with one entry: its kind, and what belongs to it. -/
def readNode : (depth : Nat) → Tree → Reading NodeDescription
  | 0, _ => failure
  | depth + 1, t => do
    let (kind, content) ← t.variant
    match kind with
    | "text" => return .text (← content.text)
    | "section" => readHeading depth content
    | "subrange" => readSubRange depth content
    | "sectionref" => return .embedding (← content.text)
    | "blockref" =>
      let r ← Record.ofTree ["block", "tag", "args"] true depth content
      return .expansion (← r.get "block" Tree.text) (← r.getD "tag" Tree.optionalText none)
        (← r.getD "args" (Tree.table (depth - 1)) [])
    | "term" =>
      let r ← Record.ofTree ["tag", "text"] true depth content
      return .term (← r.get "tag" Tree.text) (← r.get "text" Tree.text)
    | _ => failure

/-- Reads what belongs to a section. -/
def readHeading : (depth : Nat) → Tree → Reading NodeDescription
  | 0, _ => failure
  | depth + 1, t => do
    let r ← Record.ofTree ["tag", "title", "nodes"] true (depth + 1) t
    return .heading (← r.getD "tag" Tree.optionalText none) (← r.get "title" Tree.text)
      (← r.getD "nodes" (readNodes depth) [])

/-- Reads what belongs to a statement of another range. -/
def readSubRange : (depth : Nat) → Tree → Reading NodeDescription
  | 0, _ => failure
  | depth + 1, t => do
    let r ← Record.ofTree ["range", "tag", "title", "numberrange", "nodes"] true (depth + 1) t
    return .subRange (← r.get "range" Tree.text) (← r.getD "tag" Tree.optionalText none)
      (← r.getD "title" Tree.text "") (← r.getD "numberrange" Tree.optionalText none)
      (← r.getD "nodes" (readNodes depth) [])

/-- Reads a sequence of nodes. -/
def readNodes : (depth : Nat) → Tree → Reading (List NodeDescription)
  | 0, t => do
    let _ ← t.items 0
    return []
  | depth + 1, t => do (← t.items (depth + 1)).mapM (readNode depth)

end

/-- Reads a parameter of a block. -/
def readParameter (depth : Nat) (t : Tree) : Reading ParameterDescription := do
  let r ← Record.ofTree ["name", "default"] false depth t
  return { name := ← r.get "name" Tree.text
           default := ← r.getD "default" Tree.optionalText none }

/-- Reads the parameters of a block. -/
def readParameters (depth : Nat) (t : Tree) : Reading (List ParameterDescription) := do
  (← t.items depth).mapM (readParameter (depth - 1))

mutual

/-- Reads a block. -/
def readBlock : (depth : Nat) → Tree → Reading BlockDescription
  | 0, _ => failure
  | depth + 1, t => do
    let r ← Record.ofTree ["tag", "params", "blocks", "nodes"] false (depth + 1) t
    return { tag := ← r.get "tag" Tree.text
             parameters := ← r.getD "params" (readParameters depth) []
             blocks := ← r.getD "blocks" (readBlocks depth) []
             nodes := ← r.getD "nodes" (readNodes depth) [] }

/-- Reads a sequence of blocks. -/
def readBlocks : (depth : Nat) → Tree → Reading (List BlockDescription)
  | 0, t => do
    let _ ← t.items 0
    return []
  | depth + 1, t => do (← t.items (depth + 1)).mapM (readBlock depth)

end

/-- Reads a description. -/
def ofTree (depth : Nat) (t : Tree) : Reading Description := do
  let r ← Record.ofTree ["template", "numberranges", "blocks", "nodes"] false depth t
  let depth := depth - 1
  return { template := ← r.getD "template" Tree.flag false
           declarations := ← r.getD "numberranges" (Tree.texts depth) []
           blocks := ← r.getD "blocks" (readBlocks depth) []
           nodes := ← r.getD "nodes" (readNodes depth) [] }

/-- Reads a description from a text. An empty text describes an empty document. -/
def read? (text : String) : Option Description := do (← Data.read? text).decode? ofTree

end Folio.Description
