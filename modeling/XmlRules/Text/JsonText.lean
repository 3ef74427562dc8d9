namespace XmlRules.Text

def hexUnit (n : Nat) : List Char :=
  let digits := Nat.toDigits 16 n
  List.replicate (4 - digits.length) '0' ++ digits

def jsonChar (c : Char) : List Char :=
  if c = '\x22' ∨ c = '\x5c' then ['\x5c', c]
  else if c = '\x08' then ['\x5c', 'b']
  else if c = '\x0c' then ['\x5c', 'f']
  else if c = '\n' then ['\x5c', 'n']
  else if c = '\r' then ['\x5c', 'r']
  else if c = '\t' then ['\x5c', 't']
  else if c.toNat < 0x20 then ['\x5c', 'u'] ++ hexUnit c.toNat
  else [c]

def jsonString (s : String) : String :=
  String.ofList ('\x22' :: s.toList.flatMap jsonChar ++ ['\x22'])

def jsonArray (items : List String) : String := "[" ++ ",".intercalate items ++ "]"

def jsonField (name value : String) : String := jsonString name ++ ":" ++ value

def jsonObject (fields : List (String × String)) : String :=
  "\x7b" ++ ",".intercalate (fields.map fun (name, value) => jsonField name value) ++ "\x7d"

end XmlRules.Text
