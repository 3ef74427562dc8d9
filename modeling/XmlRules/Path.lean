import XmlRules.Text.Bytes
namespace XmlRules.Path
open Text

-- A path is one segment per open element, outermost first, each behind a '/'. A segment is a local
-- name, or '{uri}' and a local name; a '/' inside the braces belongs to the URI.
-- One bit is all the state: braces do not nest.
def separatorsFrom (inUri : Bool) (offset : Nat) : List Char → List Nat
  | [] => []
  | c :: cs =>
    let next := offset + c.utf8Size
    if c = '\x7b' then separatorsFrom true next cs
    else if c = '\x7d' then separatorsFrom false next cs
    else if c = '/' ∧ inUri = false then offset :: separatorsFrom inUri next cs
    else separatorsFrom inUri next cs

def separators (path : String) : List Nat := separatorsFrom false 0 path.toList

def segmentsFrom (inUri : Bool) : List Char → List (List Char)
  | [] => [[]]
  | c :: cs =>
    if c = '/' ∧ inUri = false then [] :: segmentsFrom inUri cs
    else
      let inside := if c = '\x7b' then true else if c = '\x7d' then false else inUri
      match segmentsFrom inside cs with
      | [] => [[c]]
      | s :: ss => (c :: s) :: ss

def segments (cs : List Char) : List (List Char) := segmentsFrom false cs

def upTo (path : String) (offset : Nat) : String := String.ofList (takeBytes offset path.toList)

def lastSegment (path : String) : String :=
  match (separators path).getLast? with
  | some i => String.ofList (dropBytes (i + 1) path.toList)
  | none => path

def parent? (path : String) : Option String :=
  ((separators path).getLast?.filter (0 < ·)).map (upTo path)

def ancestors (path : String) : List String :=
  ((separators path).filter (0 < ·)).map (upTo path)

def endsOnBoundary (path tail : String) : Bool :=
  let cs := path.toList
  let ts := tail.toList
  let before := cs.take (cs.length - ts.length)
  !ts.isEmpty && ts.isSuffixOf cs && (before.isEmpty || before.getLast? == some '/')

end XmlRules.Path
