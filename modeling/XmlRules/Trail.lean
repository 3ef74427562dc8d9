import XmlRules.Path
import XmlRules.QName
namespace XmlRules
open Text

-- The path of the innermost open element, with the length the path had before each open element
-- was entered, innermost first.
structure Trail where
  path : String := ""
  marks : List Nat := []
deriving DecidableEq, Repr

namespace Trail

def enter (t : Trail) (q : QName) : Trail :=
  ⟨t.path ++ "/" ++ q.text, width t.path.toList :: t.marks⟩

def leave? (t : Trail) : Option Trail :=
  match t.marks with
  | [] => none
  | mark :: marks => some ⟨Path.upTo t.path mark, marks⟩

def depth (t : Trail) : Nat := t.marks.length

def parent? (t : Trail) : Option String :=
  match t.marks with
  | [] => none
  | mark :: _ => if 0 < mark then some (Path.upTo t.path mark) else none

theorem leave?_enter (t : Trail) (q : QName) : (t.enter q).leave? = some t := by
  simp [leave?, enter, Path.upTo, takeBytes_width_append]

end Trail
end XmlRules
