import Std.Data.TreeMap
import XmlRules.Action.Error
import XmlRules.Attributes
import XmlRules.Text.Quoted
namespace XmlRules

abbrev Constructor := Attributes → Except ActionError Object

namespace Constructor

def blank : Constructor := fun _ => .ok (.node {})

def labelled (label : String) (kept : List String) : Constructor := fun attrs =>
  .ok (.node { label, attributes := kept.filterMap fun name => (attrs.get? name).map (name, ·) })

def textOf (name : String) : Constructor := fun attrs => .ok (.text ((attrs.get? name).getD ""))

def required (name : String) : Constructor := fun attrs =>
  match attrs.get? name with
  | some value => .ok (.text value)
  | none => .error (.missingAttribute name)

def failing (message : String) : Constructor := fun _ => .error (.failed message none)

end Constructor

structure Factory where
  constructors : Std.TreeMap String Constructor := {}

namespace Factory

def register (f : Factory) (name : String) (make : Constructor) : Factory :=
  ⟨f.constructors.insert name make⟩

def contains (f : Factory) (name : String) : Bool := f.constructors.contains name

def resolve (f : Factory) (name : String) : Except ActionError String :=
  if f.contains name then .ok name else .error (.unknownType name)

def instantiate (f : Factory) (name : String) (attrs : Attributes) : Except ActionError Object :=
  match f.constructors[name]? with
  | some make => make attrs
  | none => .error (.unknownType name)

def describe (f : Factory) : String :=
  "TypeRegistry \x7b types: [" ++ ", ".intercalate (f.constructors.keys.map Text.quoted) ++ "] \x7d"

end Factory
end XmlRules
