import XmlRules.Markup.Token
import XmlRules.Text.Number
namespace XmlRules.Markup
open Text

def predefined? (name : List Char) : Option Char :=
  if name = "lt".toList then some '<'
  else if name = "gt".toList then some '>'
  else if name = "amp".toList then some '&'
  else if name = "apos".toList then some '\x27'
  else if name = "quot".toList then some '\x22'
  else none

def charRef? (allowsX : Bool) (digits : List Char) : Option Nat :=
  match digits with
  | 'x' :: hex => (readNumber 16 wordLimit hex).toOption
  | 'X' :: hex => if allowsX then (readNumber 16 wordLimit hex).toOption else none
  | _ => (readNumber 10 wordLimit digits).toOption

-- A reference between text. Either case of the 'x', a plus sign and zero are accepted.
def textReference? (name : List Char) : Option Char :=
  match name with
  | '#' :: digits => (charRef? true digits).bind scalar?
  | _ => predefined? name

def signed (digits : List Char) : Bool :=
  match digits with
  | 'x' :: c :: _ | c :: _ => c == '+' || c == '-'
  | [] => false

-- A reference in an attribute: lower case 'x' only, no sign, not zero.
def attributeReference (name : List Char) : Except Fault Char :=
  match name with
  | '#' :: digits =>
    if signed digits then .error .badCharRef
    else match (charRef? false digits).filter (· ≠ 0) |>.bind scalar? with
      | some c => .ok c
      | none => .error .badCharRef
  | _ =>
    match predefined? name with
    | some c => .ok c
    | none => .error .unknownEntity

-- Replaces the references in an attribute value; `taken` characters in front belong to the one
-- before.
def unescapeFrom (taken : Nat) : List Char → Except Fault (List Char)
  | [] => .ok []
  | c :: cs =>
    match taken with
    | left + 1 => unescapeFrom left cs
    | 0 =>
      if c = '&' then do
        let name := cs.takeWhile fun d => d != '&' && d != ';'
        if (cs.drop name.length).head? ≠ some ';' then throw .unterminatedEntity
        let meant ← attributeReference name
        return meant :: (← unescapeFrom (name.length + 1) cs)
      else return c :: (← unescapeFrom 0 cs)

def unescape (cs : List Char) : Except Fault (List Char) := unescapeFrom 0 cs

end XmlRules.Markup
