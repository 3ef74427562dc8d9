import XmlRules.Text.Formless
namespace XmlRules.Text

def quotedChar (c : Char) : List Char :=
  if c = '\x00' then ['\x5c', '0']
  else if c = '\t' then ['\x5c', 't']
  else if c = '\n' then ['\x5c', 'n']
  else if c = '\r' then ['\x5c', 'r']
  else if c = '\x22' then ['\x5c', '\x22']
  else if c = '\x5c' then ['\x5c', '\x5c']
  else if isFormless c then ['\x5c', 'u', '\x7b'] ++ Nat.toDigits 16 c.toNat ++ ['\x7d']
  else [c]

-- Text between double quotes with everything escaped that could not be read back from a terminal.
def quoted (s : String) : String :=
  String.ofList ('\x22' :: s.toList.flatMap quotedChar ++ ['\x22'])

end XmlRules.Text
