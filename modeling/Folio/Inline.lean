import Folio.Error
import Folio.Text.Pieces

/-!
# Inline text

Texts may hold directives in double braces, which stand for something that is known only later:

* `ref link` is the label of a node, with the abbreviation of its type in front;
* `title link` is the title of a node;
* `value name` is a parameter of a block;
* `attr name` is an attribute of the place where the text stands;
* `term tag` is the text of a term.

Two opening braces that are not followed by a directive, that is by characters other than braces
and two closing ones, are plain text, and so is a single opening brace.
-/

namespace Folio

/-- Names a node. The nodes of a document are numbered in reading order, from 1 on. -/
structure NodeKey where
  document : String
  number : Nat
  deriving DecidableEq, Repr, Inhabited

/-- What a reference shows of its target. -/
inductive Aspect where
  | label
  | title
  deriving DecidableEq, Repr

/-- A part of an inline text. -/
inductive Part where
  | text (text : String)
  | reference (key : NodeKey) (aspect : Aspect) (link : String)
  | value (key : NodeKey) (name : String)
  | attribute (name : String)
  | term (tag : String)
  deriving DecidableEq, Repr

/-- A text with directives, and the location of the statement it belongs to. -/
structure InlineText where
  location : Location
  parts : List Part
  deriving DecidableEq, Repr, Inhabited

namespace Inline

/-- A piece of written text. -/
inductive Token where
  | text (text : List Char)
  | directive (content : List Char)
  deriving DecidableEq, Repr

/-- What was read of a possible directive. Contents are kept backwards. -/
inductive Reading where
  | plain
  | brace
  | inside (content : List Char)
  | closing (content : List Char)

namespace Reading

/-- What was read, as plain text, the last character first. -/
def back : Reading → List Char
  | plain => []
  | brace => ['\x7b']
  | inside content => content ++ ['\x7b', '\x7b']
  | closing content => '\x7d' :: content ++ ['\x7b', '\x7b']

end Reading

/-- A token for text that was collected backwards, if there is any. -/
def flush (text : List Char) : List Token :=
  if text = [] then [] else [.text text.reverse]

/-- Cuts a text into tokens. `text` is the plain text in front of what is being read, the last
character first. -/
def scan (reading : Reading) (text : List Char) : List Char → List Token
  | [] => flush (reading.back ++ text)
  | c :: cs =>
    if c = '\x7b' then
      match reading with
      | .brace => scan (.inside []) text cs
      | reading => scan .brace (reading.back ++ text) cs
    else
      match reading with
      | .inside content =>
        if c = '\x7d' then scan (.closing content) text cs
        else scan (.inside (c :: content)) text cs
      | .closing content =>
        if c = '\x7d' then flush text ++ .directive content.reverse :: scan .plain [] cs
        else scan .plain (c :: reading.back ++ text) cs
      | _ => scan .plain (c :: reading.back ++ text) cs

/-- The part for the content of a directive. -/
def directive? (key : NodeKey) (content : List Char) : Except DescriptionError Part :=
  match Text.words (String.ofList content) with
  | [] => .error .emptyDirective
  | [keyword] => .error (.missingArgument keyword)
  | [keyword, argument] =>
    if keyword = "ref" then .ok (.reference key .label argument)
    else if keyword = "title" then .ok (.reference key .title argument)
    else if keyword = "value" then .ok (.value key argument)
    else if keyword = "attr" then .ok (.attribute argument)
    else if keyword = "term" then .ok (.term argument)
    else .error (.unknownDirective keyword)
  | keyword :: _ => .error (.extraArgument keyword)

/-- The part for a token. -/
def Token.part? (key : NodeKey) : Token → Except DescriptionError Part
  | .text cs => .ok (.text (String.ofList cs))
  | .directive content => directive? key content

/-- The parts for tokens, with the keys from a number on. -/
def parts? (document : String) (number : Nat) : List Token → Except DescriptionError (List Part)
  | [] => .ok []
  | token :: rest => do
    let part ← token.part? ⟨document, number⟩
    return part :: (← parts? document (number + 1) rest)

theorem parts?_cons_eq_ok_iff {document : String} {number : Nat} {token : Token}
    {rest : List Token} {parts : List Part} :
    parts? document number (token :: rest) = .ok parts ↔
      ∃ part back, token.part? ⟨document, number⟩ = .ok part ∧
        parts? document (number + 1) rest = .ok back ∧ parts = part :: back := by
  rw [parts?]
  cases token.part? ⟨document, number⟩ with
  | error cause => simp [Bind.bind, Except.bind]
  | ok part =>
    cases parts? document (number + 1) rest with
    | error cause => simp [Bind.bind, Except.bind]
    | ok back => simp [Bind.bind, Except.bind, Pure.pure, Except.pure, eq_comm]

/-- Cuts a text into tokens. -/
def tokens (text : String) : List Token := scan .plain [] text.toList

end Inline

/-- Reads a text that stands at a location. The keys of its parts begin with `number`. -/
def InlineText.read? (document : String) (number : Nat) (location : Location) (text : String) :
    Except ResolveError InlineText :=
  match Inline.parts? document number (Inline.tokens text) with
  | .ok parts => .ok ⟨location, parts⟩
  | .error cause => .error (.located location (.description cause))

end Folio
