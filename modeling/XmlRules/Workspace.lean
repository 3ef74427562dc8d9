import XmlRules.Bindings
import XmlRules.Factory
import XmlRules.Registry
import XmlRules.Trail
namespace XmlRules

-- Who opened a scope: an action that nests rules, or an owner of somebody else's choosing. Both are
-- numbers of one space in the end, and the number of such an owner is taken never to be that of an
-- action that nests rules.
inductive Owner where
  | nested (action : ActionId)
  | other (tag : Nat)
deriving DecidableEq, Repr

structure Scope where
  rules : Registry
  -- How many elements were open, the mount element included.
  mountDepth : Nat
  mountActions : List ActionId
  owner : Option Owner

abbrev ParamFrame := List (Option String)

-- What actions work on during one document. Every stack has its top first. The journal is the
-- actions' own: the library never looks at it.
structure Workspace (σ : Type) where
  store : Store := {}
  objects : List Ref := []
  named : Std.TreeMap String (List Ref) := {}
  params : List ParamFrame := []
  scopes : List Scope := []
  root : Option Ref := none
  journal : σ

-- What actions may read but not change: the position in the document, the rules of the document
-- and the factory.
structure Site where
  trail : Trail := {}
  bindings : Bindings := {}
  rules : Registry
  factory : Factory

def Workspace.closeScopesFrom {σ : Type} (ws : Workspace σ) (depth : Nat) : Workspace σ :=
  { ws with scopes := ws.scopes.dropWhile fun scope => depth ≤ scope.mountDepth }

end XmlRules
