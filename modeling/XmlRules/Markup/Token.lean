namespace XmlRules.Markup

abbrev Bytes := List UInt8

def ascii (s : String) : Bytes := s.toList.map Char.toUInt8

def lt : UInt8 := 60
def gt : UInt8 := 62
def slash : UInt8 := 47
def ampersand : UInt8 := 38
def semicolon : UInt8 := 59
def equals : UInt8 := 61
def colon : UInt8 := 58
def quote : UInt8 := 34
def apostrophe : UInt8 := 39

def isSpace (b : UInt8) : Bool := b == 32 || b == 9 || b == 10 || b == 13

inductive Fault where
  | unclosedTag
  | unclosedComment
  | unclosedCData
  | unclosedDoctype
  | unclosedInstruction
  | invalidBang
  | mismatchedEnd
  | unmatchedEnd
  | missingDoctypeName
  | unclosedReference
  | notUtf8
  | unterminatedEntity
  | unknownEntity
  | badCharRef
  | boundXml
  | boundXmlns
  | reservedXmlUri
  | reservedXmlnsUri
deriving DecidableEq, Repr

-- A stretch of a document. Bytes are as they stand: nothing is decoded or replaced. A start tag or
-- an empty tag has everything between its name's first byte and its end.
inductive Token where
  | start (content : Bytes)
  | empty (content : Bytes)
  | close (name : Bytes)
  | text (content : Bytes)
  | cdata (content : Bytes)
  | reference (name : Bytes)
  | other
deriving DecidableEq, Repr

inductive Ending where
  | complete
  | broken (fault : Fault) (position : Nat)
deriving DecidableEq, Repr

def tagName (content : Bytes) : Bytes := content.takeWhile fun b => !isSpace b
def tagRest (content : Bytes) : Bytes := content.dropWhile fun b => !isSpace b

def decode? (bytes : Bytes) : Option String := String.fromUTF8? ⟨bytes.toArray⟩

end XmlRules.Markup
