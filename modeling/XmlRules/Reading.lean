import XmlRules.Dispatcher
import XmlRules.Markup.Reference
import XmlRules.Markup.Scanner
import XmlRules.Markup.Scopes
namespace XmlRules
open Markup

inductive ReadError where
  | dispatch (error : DispatchError)
  | rule (error : RuleError)
  | markup (fault : Fault) (position : Nat)
  | attribute (fault : AttributeFault)
  | notUtf8
  | unknownReference (name : String)
  | unboundPrefix (name : String)
  | sharedRules
  | missingFile
  | badSettings
deriving DecidableEq, Repr

def ReadError.message : ReadError → String
  | .dispatch error => "Dispatch failed: " ++ error.message
  | .rule error => "Invalid rule: " ++ error.message
  | .markup _ position => "XML error at byte " ++ toString position
  | .attribute _ => "Malformed attribute"
  | .notUtf8 => "UTF-8 error"
  | .unknownReference name => "Unknown entity reference '&" ++ name ++ ";'"
  | .unboundPrefix name =>
    "Element or attribute '" ++ name ++ "' uses an unbound namespace prefix"
  | .sharedRules => "The rule set is shared with another owner and cannot be modified"
  | .missingFile => "I/O error"
  | .badSettings => "Configuration error"

-- A fault that is not in the shape of the markup has no position of its own.
def ReadError.ofFault (fault : Fault) : ReadError := .markup fault 0

-- A start tag as the dispatcher takes it, with the prefixes it declares.
structure Tag where
  name : QName
  attributes : Attributes := {}
  declared : List (String × String) := []

namespace Tag

def text (bytes : Bytes) : Except ReadError String :=
  match decode? bytes with
  | some s => .ok s
  | none => .error .notUtf8

def content (bytes : Bytes) : Except ReadError String :=
  match decode? bytes with
  | some s => .ok s
  | none => .error (.ofFault .notUtf8)

def value (bytes : Bytes) : Except ReadError String := do
  match unescape (← content bytes).toList with
  | .ok cs => return String.ofList cs
  | .error fault => throw (.ofFault fault)

def resolve (scopes : Scopes) (forElement : Bool) (name : Bytes) (written : String) :
    Except ReadError QName := do
  let (resolution, rest) := scopes.resolve forElement name
  let rest ← text rest
  match resolution with
  | .bound uri => return ⟨← text uri, rest⟩
  | .unbound => return ⟨"", rest⟩
  | .unknown => throw (.unboundPrefix written)

-- Declarations are set aside, all other attributes are kept.
def take (scopes : Scopes) (aware : Bool) (tag : Tag) (a : RawAttribute) : Except ReadError Tag := do
  let written ← text a.key
  let value ← value a.value
  if aware then
    match declaredPrefix? a.key with
    | some label => return { tag with declared := tag.declared ++ [(← text label, value)] }
    | none =>
      let q ← resolve scopes false a.key written
      return { tag with attributes := tag.attributes.push ⟨q.space, q.name, written, value⟩ }
  else return { tag with attributes := tag.attributes.push ⟨"", written, written, value⟩ }

-- The attributes are read in order up to the first that is wrong; the name comes last.
def read (scopes : Scopes) (aware : Bool) (bytes : Bytes) : Except ReadError Tag := do
  let (given, fault) := readAttributes true (tagRest bytes)
  let tag ← given.foldlM (take scopes aware) { name := ⟨"", ""⟩ }
  match fault with
  | some fault => throw (.attribute fault)
  | none =>
    let written ← text (tagName bytes)
    let name ← if aware then resolve scopes true (tagName bytes) written else pure ⟨"", written⟩
    return { tag with name }

end Tag

abbrev ReadM (σ : Type) := Attempt ReadError (Dispatcher σ)

-- What is kept between two tokens: the bindings of the open tags and the names they were given.
structure Place where
  scopes : Scopes := {}
  opened : List QName := []

namespace Dispatcher
variable {σ : Type}

def event (step : DispatchM σ Unit) : ReadM σ Unit := step.adapt ReadError.dispatch

def startTag (catalogue : Catalogue σ) (aware : Bool) (scopes : Scopes) (bytes : Bytes) :
    ReadM σ (Scopes × QName) := do
  let declared ← ofExcept ((bindings bytes).mapError ReadError.ofFault)
  let inner := scopes.enter declared
  let tag ← Tag.read inner aware bytes
  modify fun d => tag.declared.foldl (fun d (label, uri) => d.startPrefixMapping label uri) d
  event (startElement catalogue tag.name tag.attributes)
  return (inner, tag.name)

-- One token. An end tag ends the element that was opened last, by the name it was given then.
def token (catalogue : Catalogue σ) (aware : Bool) (place : Place) : Token → ReadM σ Place
  | .start bytes => do
    let (inner, name) ← startTag catalogue aware place.scopes bytes
    return ⟨inner, name :: place.opened⟩
  | .empty bytes => do
    let (_, name) ← startTag catalogue aware place.scopes bytes
    event (endElement catalogue name)
    return place
  | .close _ =>
    match place.opened with
    | [] => throw (.dispatch (.internal .strayEndTag))
    | name :: opened => do
      event (endElement catalogue name)
      return ⟨place.scopes.leave, opened⟩
  | .text bytes | .cdata bytes => do
    event (characters (← Tag.content bytes))
    return place
  | .reference bytes => do
    let name ← Tag.content bytes
    match textReference? name.toList with
    | some c => event (characters (String.singleton c))
    | none => throw (.unknownReference name)
    return place
  | .other => return place

def play (catalogue : Catalogue σ) (aware : Bool) (tokens : List Token) (ending : Ending) :
    ReadM σ Unit := do
  event (startDocument catalogue)
  let _ ← tokens.foldlM (token catalogue aware) {}
  match ending with
  | .broken fault position => throw (.markup fault position)
  | .complete => event (endDocument catalogue)

-- Whatever goes wrong, the document is not left in progress.
def drive (catalogue : Catalogue σ) (aware : Bool) (tokens : List Token) (ending : Ending) :
    ReadM σ Unit :=
  tryCatch (play catalogue aware tokens ending) fun e => do
    modify abort
    throw e

def read (catalogue : Catalogue σ) (aware : Bool) (document : Bytes) : ReadM σ Unit :=
  let (tokens, ending) := tokens document
  drive catalogue aware tokens ending

end Dispatcher
end XmlRules
