import XmlRules.Path
namespace XmlRules

-- Where the fixed part of a pattern is anchored: at the document root, or at the end of the path.
inductive Anchor where
  | absolute
  | relative
deriving DecidableEq, Repr

-- What a pattern asks beyond its fixed part `X`.
inductive Form where
  | exact          -- `X` names the element
  | anyChild       -- `X/?`: a child of an element that `X` names
  | anyDescendant  -- `X/*`: anything strictly below one
  | everything     -- `*`: every element, no fixed part
deriving DecidableEq, Repr

def Form.rank : Form → Nat
  | .exact => 3
  | .anyChild => 2
  | .anyDescendant => 1
  | .everything => 0

-- A pattern with its prefixes already expanded. `source` is the text it was read from.
structure Pattern where
  source : String
  universal : Bool
  anchor : Anchor
  form : Form
  fixed : String
deriving DecidableEq, Repr

namespace Pattern

def specificity (p : Pattern) : Nat := p.fixed.utf8ByteSize

def lastFixedSegment (p : Pattern) : String := Path.lastSegment p.fixed

-- Two registrations with one key share one action list: the text without its spelling.
def key (p : Pattern) : String :=
  let marker := if p.universal then "!" else ""
  let anchored := (if p.anchor = .relative then "*/" else "") ++ p.fixed
  marker ++ match p.form with
    | .everything => "*"
    | .exact => anchored
    | .anyChild => anchored ++ "/?"
    | .anyDescendant => anchored ++ "/*"

def fixedMatches (p : Pattern) (path : String) : Bool :=
  match p.anchor with
  | .absolute => path == p.fixed
  | .relative => Path.endsOnBoundary path p.fixed

def isMatch (p : Pattern) (path : String) : Bool :=
  path ≠ "" && match p.form with
    | .everything => true
    | .exact => p.fixedMatches path
    | .anyChild => (Path.parent? path).any p.fixedMatches
    | .anyDescendant => (Path.ancestors path).any p.fixedMatches

end Pattern
end XmlRules
