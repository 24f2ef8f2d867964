import Folio.Path
import Folio.Text.Quoted

/-!
# Links

A link leads to a document, to an anchor inside a document, or to a tag. Tags are known
everywhere. They are written like absolute anchors without a document, `#/figures/main`.

`Link.read?` takes a written link apart and `Link.text` writes it. `Link.abs?` reads a link from
the place of a document.
-/

namespace Folio

/-- What is wrong with a link. -/
inductive LinkError where
  | invalid (link : String)
  | anchorBehindPath (anchor : String)
  | outsideTree (path base : String)
  | unresolved (link : String)
  deriving DecidableEq, Repr

/-- The wording of the cause. -/
def LinkError.message : LinkError → String
  | invalid link => "invalid link target " ++ Text.quoted link
  | anchorBehindPath anchor =>
    "invalid absolute anchor " ++ Text.quoted anchor ++ " (path not possible)"
  | outsideTree path base =>
    "link " ++ Text.quoted path ++ " outside of tree " ++ Text.quoted base
  | unresolved link => "cannot resolve link " ++ link

/-- What a link leads to. -/
inductive Link where
  /-- The place that bears a tag, in whatever document. -/
  | tag (name : String)
  /-- A document, or an anchor in it. An empty path stands for the document at hand. -/
  | place (path anchor : String)
  deriving DecidableEq, Repr, Inhabited

namespace Link

/-- The link to a tag. There is no empty tag: such a link leads nowhere. -/
def ofTag (name : String) : Link :=
  if name = "" then place "" "" else tag name

/-- Does the link lead anywhere? -/
def isValid : Link → Bool
  | tag _ => true
  | place path anchor => path ≠ "" || anchor ≠ ""

def isTag : Link → Bool
  | tag _ => true
  | place _ _ => false

/-- The document of the link, empty for tags. -/
def path : Link → String
  | tag _ => ""
  | place p _ => p

/-- The anchor of the link, or its tag. -/
def anchor : Link → String
  | tag name => name
  | place _ a => a

/-- The written form. -/
def text : Link → String
  | tag name => "#" ++ name
  | place p a => if a = "" then p else p ++ "#" ++ a

/-- Reads `path`, `path#anchor`, `#anchor` or `#/tag`. A text without `#` is a path, or an anchor
if `asAnchor` is set. -/
def read? (asAnchor : Bool) (s : String) : Except LinkError Link :=
  match Text.pieces '#' s with
  | [only] =>
    if asAnchor then ofAnchor only
    else if only = "" then .error (.invalid s)
    else .ok (place only "")
  | [p, a] =>
    if p = "" then ofAnchor a
    else if Path.isAbs a then .error (.anchorBehindPath a)
    else .ok (place p a)
  | _ => .error (.invalid s)
where
  /-- An absolute anchor without a document is a tag. -/
  ofAnchor (a : String) : Except LinkError Link :=
    .ok (if Path.isAbs a then tag a else place "" a)

/-- The link as seen from everywhere, for a link that stands in the document `base`. Relative
paths start at the directory of `base` and have to stay below the root. A bare anchor receives
the path of `base` only if `global` is set, so that it can be told from an anchor of another
document. -/
def abs? (base : String) (global : Bool) : Link → Except LinkError Link
  | tag name => .ok (tag name)
  | place p a =>
    if Path.isAbs p then .ok (place p a)
    else if p = "" then .ok (place (if global then base else "") a)
    else if (Path.join (Path.dir (relativeBase base)) p).toList.head? = some '.' then
      .error (.outsideTree p base)
    else .ok (place (Path.join (Path.dir base) p) a)
where
  /-- The path of a document below the root. -/
  relativeBase (base : String) : String :=
    match base.toList with
    | '/' :: rest => String.ofList rest
    | _ => base

end Link

end Folio
