import XmlRules.Markup.Attribute
namespace XmlRules.Markup

def xmlUri : Bytes := ascii "http://www.w3.org/XML/1998/namespace"
def xmlnsUri : Bytes := ascii "http://www.w3.org/2000/xmlns/"

def declaredPrefix? (key : Bytes) : Option Bytes :=
  let word := ascii "xmlns"
  if word.isPrefixOf key then
    match key.drop word.length with
    | [] => some []
    | b :: label => if b = colon then some label else none
  else none

abbrev RawBinding := Bytes × Bytes

-- The two reserved prefixes cannot be declared anew, and nothing else can take their URIs.
def binding (key uri : Bytes) : Except Fault (Option RawBinding) :=
  match declaredPrefix? key with
  | none => .ok none
  | some label =>
    if key.length = 5 then .ok (some ([], uri))
    else if label = ascii "xml" then if uri = xmlUri then .ok none else .error .boundXml
    else if label = ascii "xmlns" then .error .boundXmlns
    else if uri = xmlUri then .error .reservedXmlUri
    else if uri = xmlnsUri then .error .reservedXmlnsUri
    else .ok (some (label, uri))

def bindings (content : Bytes) : Except Fault (List RawBinding) :=
  (readAttributes false (tagRest content)).1.filterMapM fun a => binding a.key a.value

-- The bindings in force, innermost first, and among those of one tag the last first.
structure Scopes where
  levels : List (List RawBinding) := []

inductive Resolution where
  | bound (uri : Bytes)
  | unbound
  | unknown
deriving DecidableEq, Repr

namespace Scopes

def enter (s : Scopes) (declared : List RawBinding) : Scopes := ⟨declared.reverse :: s.levels⟩
def leave (s : Scopes) : Scopes := ⟨s.levels.tail⟩

def lookup? (s : Scopes) (label : Bytes) : Option Bytes :=
  (s.levels.flatten ++ [(ascii "xmlns", xmlnsUri), (ascii "xml", xmlUri)]).lookup label

def split (name : Bytes) : Option Bytes × Bytes :=
  let label := name.takeWhile (· != colon)
  if label.length < name.length then (some label, name.drop (label.length + 1)) else (none, name)

-- An empty prefix is never bound, and one that is bound to nothing is unknown. Without a prefix an
-- element takes the default namespace and an attribute none.
def resolve (s : Scopes) (forElement : Bool) (name : Bytes) : Resolution × Bytes :=
  let (label, rest) := split name
  let resolution := match label with
    | some [] => .unknown
    | some label =>
      match s.lookup? label with
      | none | some [] => .unknown
      | some uri => .bound uri
    | none =>
      if forElement then
        match s.lookup? [] with
        | none | some [] => .unbound
        | some uri => .bound uri
      else .unbound
  (resolution, rest)

end Scopes
end XmlRules.Markup
