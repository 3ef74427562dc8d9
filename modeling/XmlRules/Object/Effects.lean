import XmlRules.Action.Error
import XmlRules.Object.Printer
import XmlRules.Text.Blank
import XmlRules.Text.Number
namespace XmlRules
namespace Object

def join (parent child : Object) : Object :=
  match parent with
  | .node parts => .node { parts with children := parts.children ++ [child] }
  | .text content => .text (content ++ child.json)
  | .int value => .int value

def spellFrame (frame : List (Option String)) : String :=
  String.join (frame.map fun value => value.getD "~" ++ ";")

def takeCall (target : Object) (frame : List (Option String)) : Object × Except ActionError Unit :=
  match target with
  | .node parts => (.node { parts with calls := parts.calls ++ [frame] }, .ok ())
  | .text content => (.text (content ++ spellFrame frame), .ok ())
  | .int value => (.int value, .ok ())

def refuse (message : String) (target : Object) (_ : List (Option String)) :
    Object × Except ActionError Unit :=
  (target, .error (.failed message none))

def withNumber (target : Object) (n : Nat) : Object :=
  match target with
  | .node parts => .node { parts with number := some (UInt32.ofNat n) }
  | .text _ => .text (toString n)
  | .int value => .int value

def takeNumber (target : Object) (frame : List (Option String)) : Object × Except ActionError Unit :=
  let text := Text.trim ((frame.head?.join.getD "").toList)
  match Text.readNumber 10 Text.wordLimit text with
  | .ok n => (target.withNumber n, .ok ())
  | .error fault =>
    (target, .error (.failed ("invalid number '" ++ String.ofList text ++ "'") (some fault.message)))

end Object
end XmlRules
