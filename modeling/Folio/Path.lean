import Folio.Text.Pieces

/-!
# Lexical paths

A path is a text of segments separated by slashes, absolute if it starts with one. Paths are
handled as texts alone: `..` takes back the segment before it and stops at the root.

`clean` is the normal form. `dir` and `base` cut a path at its last slash, `join` puts two paths
one behind the other, and `relative` leads from one absolute directory to another place.
-/

namespace Folio.Path

/-- Does the path start at the root? -/
def isAbs (p : String) : Bool :=
  p.toList.head? == some '/'

/-- The segments of a path, empty ones included. -/
def segments (p : String) : List String :=
  Text.pieces '/' p

/-- Takes one segment into account. `kept` holds the segments that stand so far, the last one
first. -/
def step (rooted : Bool) (kept : List String) (segment : String) : List String :=
  if segment = "" ∨ segment = "." then kept
  else if segment = ".." then
    match kept with
    | last :: rest => if last ≠ ".." then rest else if rooted then kept else ".." :: kept
    | [] => if rooted then [] else [".."]
  else segment :: kept

/-- The segments that stand once the empty ones, `.` and `..` are worked off. -/
def normal (rooted : Bool) (parts : List String) : List String :=
  (parts.foldl (step rooted) []).reverse

/-- The text of a path from its segments. A relative path without segments is written `.`. -/
def render (rooted : Bool) (parts : List String) : String :=
  if rooted then "/" ++ "/".intercalate parts
  else if parts = [] then "." else "/".intercalate parts

/-- The normal form of a path. -/
def clean (p : String) : String :=
  render (isAbs p) (normal (isAbs p) (segments p))

/-- One path behind the other, in normal form. An empty path adds nothing. -/
def join (a b : String) : String :=
  if a = "" ∧ b = "" then ""
  else if a = "" then clean b
  else if b = "" then clean a
  else clean (a ++ "/" ++ b)

/-- The directory of a path: what stands up to its last slash, in normal form. -/
def dir (p : String) : String :=
  clean (String.ofList (p.toList.reverse.dropWhile (· ≠ '/')).reverse)

/-- The last segment of a path, slashes at its end put aside. -/
def base (p : String) : String :=
  let trimmed := p.toList.reverse.dropWhile (· = '/')
  if p = "" then "."
  else if trimmed = [] then "/"
  else String.ofList (trimmed.takeWhile (· ≠ '/')).reverse

/-- What is left of two lists behind their longest common beginning. -/
def dropCommon : List String → List String → List String × List String
  | a :: as, b :: bs => if a = b then dropCommon as bs else (a :: as, b :: bs)
  | as, bs => (as, bs)

/-- The relative path that leads from the absolute directory `origin` to the absolute path
`target`: up to the deepest directory above both, and down from there. -/
def relative (origin target : String) : String :=
  let (up, down) := dropCommon ((segments (clean origin)).filter (· ≠ ""))
    ((segments (clean target)).filter (· ≠ ""))
  render false (up.map (fun _ => "..") ++ down)

end Folio.Path
