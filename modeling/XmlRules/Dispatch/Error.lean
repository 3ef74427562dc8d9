import XmlRules.Action.Error
import XmlRules.QName
namespace XmlRules

inductive Phase where
  | startParse
  | begin
  | bodySegment
  | body
  | ending
  | finishParse
deriving DecidableEq, Repr

def Phase.name : Phase → String
  | .startParse => "start_parse"
  | .begin => "begin"
  | .bodySegment => "body_segment"
  | .body => "body"
  | .ending => "end"
  | .finishParse => "finish_parse"

inductive Misuse where
  | alreadyStarted
  | notStarted
  | aborted
  | stillOpen (path : String)
  | wrongEnd (ended opened : QName)
  | strayEnd (ended : QName)
  | strayEndTag
deriving DecidableEq, Repr

def Misuse.message : Misuse → String
  | .alreadyStarted => "document already started"
  | .notStarted => "no document has been started"
  | .aborted => "dispatcher was aborted by an earlier failure"
  | .stillOpen path => "document ended with '" ++ path ++ "' still open"
  | .wrongEnd ended opened => "end of '" ++ ended.text ++ "' while '" ++ opened.text ++ "' is open"
  | .strayEnd ended => "end of '" ++ ended.text ++ "' without an open element"
  | .strayEndTag => "end tag without an open element"

inductive DispatchError where
  | internal (misuse : Misuse)
  -- The path is that of the element whose actions were running.
  | action (name : String) (phase : Phase) (path : String) (cause : ActionError)
  | lifecycle (phase : Phase) (cause : ActionError)
deriving DecidableEq, Repr

def DispatchError.message : DispatchError → String
  | .internal misuse => "Internal matching error: " ++ misuse.message
  | .action name phase path cause =>
    "Action '" ++ name ++ "' failed during " ++ phase.name ++ " at '" ++ path ++ "': " ++ cause.message
  | .lifecycle phase cause => "Rule set failed during " ++ phase.name ++ ": " ++ cause.message

end XmlRules
