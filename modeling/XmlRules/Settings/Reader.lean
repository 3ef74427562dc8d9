import XmlRules.Settings
import XmlRules.Settings.Token
namespace XmlRules.Settings

inductive Choice where
  | trims (b : Bool)
  | namespaces (b : Bool)
  | placement (p : Placement)
deriving DecidableEq, Repr

def Choice.key : Choice → String
  | .trims _ => trimsKey
  | .namespaces _ => namespacesKey
  | .placement _ => placementKey

def choose (s : Settings) : Choice → Settings
  | .trims b => { s with trims := b }
  | .namespaces b => { s with namespaces := b }
  | .placement p => { s with placement := p }

def pieces : List Token → List (List Token)
  | [] => [[]]
  | t :: ts =>
    if t = .comma then [] :: pieces ts
    else match pieces ts with
      | [] => [[t]]
      | p :: ps => (t :: p) :: ps

-- A placement is a string, or an object that gives the name the value null.
def placement? : List Token → Option Placement
  | [.string s] => Placement.named? s
  | [.openBrace, .string s, .colon, .null, .closeBrace] => Placement.named? s
  | _ => none

def choice? (key : String) (value : List Token) : Option Choice :=
  if key = placementKey then (placement? value).map .placement
  else match value with
    | [.flag b] =>
      if key = trimsKey then some (.trims b)
      else if key = namespacesKey then some (.namespaces b)
      else none
    | _ => none

def member? : List Token → Option Choice
  | .string key :: .colon :: value => choice? key value
  | _ => none

-- By name in any order, none twice; or by position in the usual order, as many as there are.
def choices? : List Token → Option (List Choice)
  | [.openBrace, .closeBrace] | [.openBracket, .closeBracket] => some []
  | .openBrace :: rest => do
    guard (rest.getLast? = some .closeBrace)
    let choices ← (pieces rest.dropLast).mapM member?
    guard (choices.map Choice.key).Nodup
    return choices
  | .openBracket :: rest => do
    guard (rest.getLast? = some .closeBracket)
    let values := pieces rest.dropLast
    guard (values.length ≤ 3)
    ([trimsKey, namespacesKey, placementKey].zip values).mapM fun (key, value) => choice? key value
  | _ => none

def parse? (s : String) : Option Settings := do
  let choices ← choices? (← tokens? s)
  return choices.foldl choose {}

end XmlRules.Settings
