namespace XmlRules

inductive PatternFault where
  | empty
  | noSegments
  | wildcardAlone
  | emptySegment
  | wildcardInside
  | unclosedUri
  | emptyName
  | badName (name : String)
  | undeclaredPrefix (label : String)
deriving DecidableEq, Repr

inductive RuleError where
  | pattern (text : String) (fault : PatternFault)
  | copyUnsupported
deriving DecidableEq, Repr

def PatternFault.reason : PatternFault → String
  | .empty => "pattern is empty"
  | .noSegments => "pattern has no element segments"
  | .wildcardAlone => "wildcard needs a fixed prefix"
  | .emptySegment => "empty path segment"
  | .wildcardInside => "wildcards are only allowed as the final segment"
  | .unclosedUri => "unterminated namespace URI"
  | .emptyName => "empty local name"
  | .badName name => "invalid character in element name '" ++ name ++ "'"
  | .undeclaredPrefix label => "undeclared namespace prefix '" ++ label ++ "'"

def RuleError.message : RuleError → String
  | .pattern text (.undeclaredPrefix label) =>
    "Pattern '" ++ text ++ "' uses undeclared namespace prefix '" ++ label ++ "'"
  | .pattern text fault => "Malformed pattern '" ++ text ++ "': " ++ fault.reason
  | .copyUnsupported => "Scoped rule managers cannot be copied"

end XmlRules
