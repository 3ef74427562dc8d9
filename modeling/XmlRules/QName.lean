namespace XmlRules

structure QName where
  space : String
  name : String
deriving DecidableEq, Repr

-- `{uri}name`, or the bare name outside any namespace.
def QName.text (q : QName) : String :=
  if q.space = "" then q.name else "\x7b" ++ q.space ++ "\x7d" ++ q.name

end XmlRules
