import XmlRules.QName
import XmlRules.Text.Blank
namespace XmlRules

-- The prefix declarations of the open elements, innermost element first; those of one element in
-- the order they were declared.
structure Bindings where
  scopes : List (List (String × String)) := []
deriving DecidableEq, Repr

namespace Bindings

def xmlUri : String := "http://www.w3.org/XML/1998/namespace"

def enter (b : Bindings) (declared : List (String × String)) : Bindings := ⟨declared :: b.scopes⟩
def leave (b : Bindings) : Bindings := ⟨b.scopes.tail⟩
def depth (b : Bindings) : Nat := b.scopes.length

-- The last declaration of the innermost element that declares the prefix, whatever it says.
def declared? (b : Bindings) (label : String) : Option String :=
  b.scopes.findSome? fun scope => scope.reverse.lookup label

-- Declaring the empty URI undeclares the prefix; `xml` is bound once and for all.
def resolve? (b : Bindings) (label : String) : Option String :=
  if label = "xml" then some xmlUri else (b.declared? label).filter (· ≠ "")

def expand? (b : Bindings) (written : String) : Option String :=
  match Text.cutAt ':' written.toList with
  | some (label, name) =>
    (b.resolve? (String.ofList label)).map fun uri => QName.text ⟨uri, String.ofList name⟩
  | none => some (QName.text ⟨(b.resolve? "").getD "", written⟩)

@[simp] theorem leave_enter (b : Bindings) (declared : List (String × String)) :
    (b.enter declared).leave = b := rfl

end Bindings
end XmlRules
