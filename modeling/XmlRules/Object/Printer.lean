import XmlRules.Object
import XmlRules.Text.JsonText
namespace XmlRules
open Text

def jsonOption {α : Type} (f : α → String) : Option α → String
  | some a => f a
  | none => "null"

def jsonCalls (calls : List (List (Option String))) : String :=
  jsonArray (calls.map fun call => jsonArray (call.map (jsonOption jsonString)))

mutual

def Object.json : Object → String
  | .node ⟨label, attributes, children, calls, number⟩ =>
    jsonObject [("node", jsonObject
      [("attrs", jsonArray (attributes.map fun (k, v) => jsonArray [jsonString k, jsonString v])),
       ("calls", jsonCalls calls),
       ("children", jsonArray (Object.jsonItems children)),
       ("label", jsonString label),
       ("num", jsonOption (fun n => toString n.toNat) number)])]
  | .text content => jsonObject [("text", jsonString content)]
  | .int value => jsonObject [("int", toString value.toInt)]

def Object.jsonItems : List Object → List String
  | [] => []
  | o :: os => o.json :: Object.jsonItems os

end
end XmlRules
