import XmlRules.Text.Number
namespace XmlRules.Settings

-- The pieces of a settings text. Numbers have no place in one.
inductive Token where
  | openBrace
  | closeBrace
  | openBracket
  | closeBracket
  | comma
  | colon
  | flag (b : Bool)
  | null
  | string (s : String)
deriving DecidableEq, Repr

def plainEscape? : Char → Option Char
  | '\x22' => some '\x22'
  | '\x5c' => some '\x5c'
  | '/' => some '/'
  | 'b' => some '\x08'
  | 'f' => some '\x0c'
  | 'n' => some '\n'
  | 'r' => some '\r'
  | 't' => some '\t'
  | _ => none

-- Four hexadecimal digits. Half of a surrogate pair is refused: no key and no value needs one.
def unit? (digits : List Char) : Option Char := do
  let values ← digits.mapM (Text.digitValue? 16)
  Text.scalar? (values.foldl (fun n d => n * 16 + d) 0)

-- Outside a string `text` is `none`; inside it holds what was read of the string, last first.
def tokensFrom (text : Option (List Char)) : List Char → Option (List Token)
  | [] => if text.isNone then some [] else none
  | c :: cs =>
    match text with
    | some read =>
      if c = '\x22' then (tokensFrom none cs).map (.string (String.ofList read.reverse) :: ·)
      else if c = '\x5c' then
        match cs with
        | 'u' :: h1 :: h2 :: h3 :: h4 :: rest =>
          (unit? [h1, h2, h3, h4]).bind fun u => tokensFrom (some (u :: read)) rest
        | e :: rest => (plainEscape? e).bind fun u => tokensFrom (some (u :: read)) rest
        | [] => none
      else if c.toNat < 0x20 then none
      else tokensFrom (some (c :: read)) cs
    | none =>
      if c = ' ' ∨ c = '\n' ∨ c = '\t' ∨ c = '\r' then tokensFrom none cs
      else if c = '\x22' then tokensFrom (some []) cs
      else if c = '\x7b' then (tokensFrom none cs).map (.openBrace :: ·)
      else if c = '\x7d' then (tokensFrom none cs).map (.closeBrace :: ·)
      else if c = '[' then (tokensFrom none cs).map (.openBracket :: ·)
      else if c = ']' then (tokensFrom none cs).map (.closeBracket :: ·)
      else if c = ',' then (tokensFrom none cs).map (.comma :: ·)
      else if c = ':' then (tokensFrom none cs).map (.colon :: ·)
      else match c, cs with
        | 't', 'r' :: 'u' :: 'e' :: rest => (tokensFrom none rest).map (.flag true :: ·)
        | 'f', 'a' :: 'l' :: 's' :: 'e' :: rest => (tokensFrom none rest).map (.flag false :: ·)
        | 'n', 'u' :: 'l' :: 'l' :: rest => (tokensFrom none rest).map (.null :: ·)
        | _, _ => none

def tokens? (s : String) : Option (List Token) := tokensFrom none s.toList

end XmlRules.Settings
