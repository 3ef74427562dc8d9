import XmlRules.Markup.Token
namespace XmlRules.Markup

inductive AttributeFault where
  | expectedEq
  | expectedValue
  | unquotedValue
  | expectedQuote
  | duplicated
deriving DecidableEq, Repr

structure RawAttribute where
  key : Bytes
  value : Bytes
deriving DecidableEq, Repr

def skipSpace (bs : Bytes) : Bytes := bs.dropWhile isSpace

-- A key runs up to an equals sign or a blank; its first byte may be either.
def keyTail (bs : Bytes) : Bytes := bs.takeWhile fun b => b != equals && !isSpace b

def afterEquals (bs : Bytes) : Except AttributeFault Bytes :=
  match skipSpace bs with
  | [] => .error .expectedEq
  | b :: rest => if b = equals then .ok rest else .error .expectedEq

def readValue (bs : Bytes) : Except AttributeFault (Bytes × Bytes) :=
  match skipSpace bs with
  | [] => .error .expectedValue
  | q :: rest =>
    if q = quote ∨ q = apostrophe then
      let value := rest.takeWhile (· != q)
      if value.length < rest.length then .ok (value, rest.drop (value.length + 1))
      else .error .expectedQuote
    else .error .unquotedValue

-- One attribute, whose first byte is `b`. A key that was seen before is reported ahead of anything
-- that is wrong with its value.
def readAttribute (isSeen : Bytes → Bool) (b : UInt8) (bs : Bytes) :
    Except AttributeFault (RawAttribute × Bytes) := do
  let key := b :: keyTail bs
  let written ← afterEquals (bs.drop (keyTail bs).length)
  if isSeen key then throw .duplicated
  let (value, rest) ← readValue written
  return (⟨key, value⟩, rest)

-- The attributes up to the first fault; `taken` bytes in front belong to the one before. With
-- `checked`, a key that comes twice is a fault.
def attributesFrom (checked : Bool) (seen : List Bytes) (taken : Nat) :
    Bytes → List RawAttribute × Option AttributeFault
  | [] => ([], none)
  | b :: bs =>
    match taken with
    | left + 1 => attributesFrom checked seen left bs
    | 0 =>
      if isSpace b then attributesFrom checked seen 0 bs
      else match readAttribute (fun key => checked && seen.contains key) b bs with
        | .error fault => ([], some fault)
        | .ok (a, rest) =>
          let (more, fault) := attributesFrom checked (a.key :: seen) (bs.length - rest.length) bs
          (a :: more, fault)

def readAttributes (checked : Bool) (bytes : Bytes) : List RawAttribute × Option AttributeFault :=
  attributesFrom checked [] 0 bytes

end XmlRules.Markup
