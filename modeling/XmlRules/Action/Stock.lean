import XmlRules.Action.Build
import XmlRules.Action.Call
import XmlRules.Action.Nested
namespace XmlRules

inductive StockAction where
  | create (c : Creation)
  | link (l : Link)
  | call (c : Call)
  | param (p : Param)
  | nested (n : NestedRules)

def StockAction.definition {σ : Type} (self : ActionId) : StockAction → Definition σ
  | .create c => fun _ => c.behaviour
  | .link l => fun _ => l.behaviour
  | .call c => fun _ => c.behaviour
  | .param p => fun _ => p.behaviour
  | .nested n => n.behaviour self

end XmlRules
