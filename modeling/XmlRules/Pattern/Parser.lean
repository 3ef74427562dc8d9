import Std.Data.TreeMap
import XmlRules.Pattern
import XmlRules.Pattern.Fault
import XmlRules.QName
import XmlRules.Text.Blank
namespace XmlRules

abbrev Prefixes := Std.TreeMap String String

namespace Pattern
open Text

def isNameChar (c : Char) : Bool :=
  !(c == '\x7b' || c == '\x7d' || c == ':' || c == '*' || c == '?' || isBlank c)

def checkName (name : List Char) : Except PatternFault Unit :=
  if name.isEmpty then throw .emptyName
  else if name.all isNameChar then pure ()
  else throw (.badName (String.ofList name))

-- One fixed segment with its prefix replaced by the URI it stands for. A segment that opens a brace
-- has been written out and stays; the name behind a prefix is judged before the prefix.
def expandSegment (prefixes : Prefixes) (segment : List Char) : Except PatternFault String :=
  match segment with
  | [] => throw .emptySegment
  | ['*'] | ['?'] => throw .wildcardInside
  | '\x7b' :: rest =>
    match cutAt '\x7d' rest with
    | none => throw .unclosedUri
    | some (_, name) => do
      checkName name
      return String.ofList segment
  | _ =>
    match cutAt ':' segment with
    | some (label, name) => do
      checkName name
      match prefixes[String.ofList label]? with
      | none => throw (.undeclaredPrefix (String.ofList label))
      | some uri => return QName.text ⟨uri, String.ofList name⟩
    | none => do
      checkName segment
      return String.ofList segment

def readMarker (cs : List Char) : Bool × List Char :=
  match cs with
  | '!' :: rest => (true, trimStart rest)
  | _ => (false, cs)

def readAnchor (cs : List Char) : Anchor × List Char :=
  match cs with
  | '*' :: '/' :: rest => (.relative, rest)
  | '/' :: rest => (.absolute, rest)
  | _ => (.relative, cs)

-- A wildcard counts only as the last segment.
def readForm (segments : List (List Char)) : Form × List (List Char) :=
  match segments.getLast? with
  | some ['?'] => (.anyChild, segments.dropLast)
  | some ['*'] => (.anyDescendant, segments.dropLast)
  | _ => (.exact, segments)

def assemble (anchor : Anchor) (segments : List String) : String :=
  (if anchor = .absolute then "/" else "") ++ "/".intercalate segments

def parseFixed (source : String) (prefixes : Prefixes) (universal : Bool) (rest : List Char) :
    Except PatternFault Pattern := do
  let (anchor, body) := readAnchor rest
  let body := dropTrailing (· == '/') body
  if body.isEmpty then throw .noSegments
  let (form, segments) := readForm (Path.segments body)
  if segments.isEmpty then throw .wildcardAlone
  let expanded ← segments.mapM (expandSegment prefixes)
  return ⟨source, universal, anchor, form, assemble anchor expanded⟩

def parse (prefixes : Prefixes) (source : String) : Except PatternFault Pattern :=
  let (universal, rest) := readMarker (trim source.toList)
  if rest.isEmpty then throw .empty
  else if rest = ['*'] then return ⟨source, universal, .relative, .everything, ""⟩
  else parseFixed source prefixes universal rest

end Pattern
end XmlRules
