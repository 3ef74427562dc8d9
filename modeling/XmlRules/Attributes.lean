namespace XmlRules

structure Attribute where
  space : String := ""
  name : String
  written : String := name
  value : String
deriving DecidableEq, Repr

structure Attributes where
  items : List Attribute := []
deriving DecidableEq, Repr

namespace Attributes

def getIn? (attrs : Attributes) (space name : String) : Option String :=
  (attrs.items.find? fun a => a.space = space ∧ a.name = name).map Attribute.value

def get? (attrs : Attributes) (name : String) : Option String := attrs.getIn? "" name

def size (attrs : Attributes) : Nat := attrs.items.length

def push (attrs : Attributes) (a : Attribute) : Attributes := ⟨attrs.items ++ [a]⟩

end Attributes
end XmlRules
