namespace XmlRules

structure Node (α : Type) where
  label : String := ""
  attributes : List (String × String) := []
  children : List α := []
  calls : List (List (Option String)) := []
  number : Option UInt32 := none

inductive Object where
  | node (parts : Node Object)
  | text (content : String)
  | int (value : Int64)

inductive ObjectType where
  | node
  | text
  | int
deriving DecidableEq, Repr

def ObjectType.name : ObjectType → String
  | .node => "driver::Node"
  | .text => "driver::Text"
  | .int => "i64"

def Object.type : Object → ObjectType
  | .node _ => .node
  | .text _ => .text
  | .int _ => .int

-- Objects are shared: stacks hold references, and a change is seen through every one of them.
structure Ref where
  index : Nat
deriving DecidableEq, Repr

structure Store where
  objects : Array Object := #[]

namespace Store

def add (s : Store) (o : Object) : Ref × Store := (⟨s.objects.size⟩, ⟨s.objects.push o⟩)
def get? (s : Store) (r : Ref) : Option Object := s.objects[r.index]?
def put (s : Store) (r : Ref) (o : Object) : Store := ⟨s.objects.setIfInBounds r.index o⟩

end Store
end XmlRules
