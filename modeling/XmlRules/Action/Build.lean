import XmlRules.Action
namespace XmlRules
open Step

-- Makes an object of a type when its element begins and takes it off the stack when it ends. The
-- value of an attribute may name another type.
structure Creation where
  type : String
  overriddenBy : Option String := none

def Creation.behaviour {σ : Type} (c : Creation) : Behaviour σ where
  name := "CreateAction"
  onBegin _ attrs := do
    let type := (c.overriddenBy.bind attrs.get?).getD c.type
    let factory := (← read).factory
    let known ← ofExcept (factory.resolve type)
    let made ← ofExcept (factory.instantiate known attrs)
    push (← create made)
  onEnd _ := do
    let _ ← pop

-- Hands the object on top of the stack to the one beneath it when the element ends.
structure Link where
  parent : ObjectType
  child : ObjectType
  join : Object → Object → Object

def Link.behaviour {σ : Type} (l : Link) : Behaviour σ where
  name := "LinkAction"
  onEnd _ := do
    let child ← peek
    let parent ← peekAt 1
    if child = parent then throw (.failed "cannot link an object to itself" none)
    let given ← expect l.child child
    let target ← expect l.parent parent
    put parent (l.join target given)

end XmlRules
