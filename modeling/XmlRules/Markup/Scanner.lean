import XmlRules.Markup.Token
namespace XmlRules.Markup

-- Where a tag ends: at the first '>' outside quotes. `open?` is the quote that is open.
def tagEnd (open? : Option UInt8) : Bytes → Option Nat
  | [] => none
  | b :: bs =>
    match open? with
    | some q => (tagEnd (if b = q then none else some q) bs).map (· + 1)
    | none =>
      if b = gt then some 0
      else (tagEnd (if b = quote ∨ b = apostrophe then some b else none) bs).map (· + 1)

def find (sequence : Bytes) : Bytes → Option Nat
  | [] => none
  | b :: bs => if sequence.isPrefixOf (b :: bs) then some 0 else (find sequence bs).map (· + 1)

-- The '>' that balances every '<' before it.
def balancedEnd (depth : Nat) : Bytes → Option Nat
  | [] => none
  | b :: bs =>
    if b = lt then (balancedEnd (depth + 1) bs).map (· + 1)
    else if b = gt then
      match depth with
      | 0 => some 0
      | inner + 1 => (balancedEnd inner bs).map (· + 1)
    else (balancedEnd depth bs).map (· + 1)

def lower (b : UInt8) : UInt8 := if 65 ≤ b ∧ b ≤ 90 then b + 32 else b

-- A token and how many bytes it takes behind its first one; or a fault and its offset.
abbrev Scan := Except (Fault × Nat) (Token × Nat)

-- The two dashes that open a comment cannot be those that close it.
def scanComment (bs : Bytes) : Scan :=
  match find (ascii "-->") (bs.drop 3) with
  | none => .error (.unclosedComment, 0)
  | some i =>
    if (ascii "!--").isPrefixOf bs then .ok (.other, i + 6) else .error (.unclosedComment, 0)

def scanCData (bs : Bytes) : Scan :=
  match find (ascii "]]>") bs with
  | none => .error (.unclosedCData, 0)
  | some i =>
    if (ascii "![CDATA[").isPrefixOf bs then .ok (.cdata ((bs.take i).drop 8), i + 3)
    else .error (.unclosedCData, 0)

-- The keyword may be in any case. A missing name is reported where it was expected.
def scanDoctype (bs : Bytes) : Scan :=
  match balancedEnd 0 bs with
  | none => .error (.unclosedDoctype, 0)
  | some i =>
    let content := bs.take i
    if (ascii "!doctype").isPrefixOf (content.map lower) then
      if (content.drop 8).all isSpace then .error (.missingDoctypeName, i + 1) else .ok (.other, i + 1)
    else .error (.unclosedDoctype, 0)

def scanBang (bs : Bytes) : Scan :=
  match bs.tail.head? with
  | some (45 : UInt8) => scanComment bs
  | some 91 => scanCData bs
  | some 68 | some 100 => scanDoctype bs
  | _ => .error (.invalidBang, 0)

-- The '?' that opens the markup counts for its end, but an instruction has two of them.
def scanInstruction (bs : Bytes) : Scan :=
  match find (ascii "?>") bs with
  | none | some 0 => .error (.unclosedInstruction, 0)
  | some i => .ok (.other, i + 2)

def endName (content : Bytes) : Bytes :=
  if content.all isSpace then content else (content.reverse.dropWhile isSpace).reverse

def scanTag (bs : Bytes) : Scan :=
  match tagEnd none bs with
  | none => .error (.unclosedTag, 0)
  | some i =>
    let content := bs.take i
    if content.head? = some slash then .ok (.close (endName content.tail), i + 1)
    else if content.getLast? = some slash then .ok (.empty content.dropLast, i + 1)
    else .ok (.start content, i + 1)

def scanMarkup (bs : Bytes) : Scan :=
  match bs with
  | 33 :: _ => scanBang bs
  | 63 :: _ => scanInstruction bs
  | _ => scanTag bs

def scanReference (bs : Bytes) : Scan :=
  let name := bs.takeWhile fun b => b != semicolon && b != lt && b != ampersand
  if (bs.drop name.length).head? = some semicolon then .ok (.reference name, name.length + 1)
  else .error (.unclosedReference, 0)

def scan (b : UInt8) (bs : Bytes) : Scan :=
  if b = lt then scanMarkup bs
  else if b = ampersand then scanReference bs
  else
    let more := bs.takeWhile fun c => c != lt && c != ampersand
    .ok (.text (b :: more), more.length)

def track (opened : List Bytes) : Token → Except Fault (List Bytes)
  | .start content => .ok (tagName content :: opened)
  | .close name =>
    match opened with
    | [] => .error .unmatchedEnd
    | expected :: rest => if name = expected then .ok rest else .error .mismatchedEnd
  | _ => .ok opened

-- All tokens up to the end or the first fault; `taken` bytes in front belong to the token before.
-- Elements still open at the end are no fault.
def tokensFrom (opened : List Bytes) (offset taken : Nat) : Bytes → List Token × Ending
  | [] => ([], .complete)
  | b :: bs =>
    match taken with
    | left + 1 => tokensFrom opened (offset + 1) left bs
    | 0 =>
      match scan b bs with
      | .error (fault, inside) => ([], .broken fault (offset + inside))
      | .ok (token, more) =>
        match track opened token with
        | .error fault => ([], .broken fault offset)
        | .ok opened =>
          let (tokens, ending) := tokensFrom opened (offset + 1) more bs
          (token :: tokens, ending)

-- A byte order mark in front is dropped and takes no part in positions.
def tokens (bytes : Bytes) : List Token × Ending :=
  tokensFrom [] 0 0 (if [239, 187, 191].isPrefixOf bytes then bytes.drop 3 else bytes)

end XmlRules.Markup
