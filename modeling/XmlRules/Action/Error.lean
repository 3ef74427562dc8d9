import XmlRules.Object
import XmlRules.Pattern.Fault
namespace XmlRules

inductive ActionError where
  | emptyStack (stack : String)
  | typeMismatch (expected : ObjectType)
  | missingAttribute (name : String)
  | unknownType (name : String)
  | unknownRuleSet (name : String)
  | noRuleScope (path : String)
  | invalidRule (error : RuleError)
  | failed (message : String) (cause : Option String)
  -- An index beyond the end of a stack or of a parameter frame.
  | outOfRange (index size : Nat)
  -- Rule scopes opening one another on a single element without end.
  | tooDeep
deriving DecidableEq, Repr

def ActionError.message : ActionError → String
  | .emptyStack stack => "Stack '" ++ stack ++ "' is empty"
  | .typeMismatch expected => "Object on the stack is not a '" ++ expected.name ++ "'"
  | .missingAttribute name => "Missing required attribute '" ++ name ++ "'"
  | .unknownType name => "Unknown object type '" ++ name ++ "'"
  | .unknownRuleSet name => "No rule set registered under '" ++ name ++ "'"
  | .noRuleScope path => "No rule scope is open at '" ++ path ++ "'"
  | .invalidRule error => "Invalid rule: " ++ error.message
  | .failed message _ => message
  | .outOfRange index size =>
    "Index " ++ toString index ++ " is out of range for a length of " ++ toString size
  | .tooDeep => "Rule scopes are nested without end"

end XmlRules
