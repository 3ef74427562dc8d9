import XmlRules.Action
namespace XmlRules
open Step

structure ScopeOrder where
  -- The placement of a registry that stands alone; `none` asks for one under the active registry.
  standalone : Option Placement := none
  rules : List Registration := []
  -- The mount actions; `none` asks for those the new rules match here.
  mount : Option (List ActionId) := some []
  owner : Option Nat := none
deriving DecidableEq, Repr

-- Single operations on a workspace, for actions that are written down as data.
inductive Command where
  | push (o : Object)
  | duplicate
  | pop
  | peek
  | peekAt (n : UInt64)
  | size
  | touchTop (type : ObjectType)
  | root
  | rootIsTop
  | setRoot (o : Object)
  | pushNamed (stack : String) (o : Object)
  | shareNamed (stack : String)
  | pushFromNamed (stack : String)
  | popNamed (stack : String)
  | peekNamed (stack : String)
  | namedEmpty (stack : String)
  | pushParams (frame : ParamFrame)
  | popParams
  | params
  | setParam (index : Nat) (value : Option String)
  | openScope (order : ScopeOrder)
  | closeScope
  | closeOwned (owner : Nat)
  | owned (owner : Nat)
  | scope
  | scopeCount
  | matching (path : String)
  | baseMatching (path : String)
  | parent
  | startRules
  | finishRules
  | path
  | depth
  | resolve (label : String)
  | expand (written : String)
  | bindingDepth
  | create (type : String) (attrs : Attributes)
  | raise (error : ActionError)

inductive Answer where
  | done
  | flag (b : Bool)
  | count (n : Nat)
  | text (s : Option String)
  | object (o : Option Object)
  | frame (f : ParamFrame)
  | actions (ids : Option (List ActionId))
  | scope (s : Option Scope)

def Object.touched : Object → Object
  | .node parts => .node { parts with calls := parts.calls ++ [[some "touched"]] }
  | .text content => .text (content ++ "+")
  | .int value => .int (value + 1)

namespace Command
variable {σ : Type}

def found (ref : Ref) : Step σ Answer := return .object (some (← look ref))

def openOrdered (order : ScopeOrder) : Step σ Unit := do
  match RuleTable.build (order.standalone.getD .afterUniversal) order.rules with
  | .error e => throw (.invalidRule e)
  | .ok table =>
    let rules ← match order.standalone with
      | some _ => pure (Registry.base table)
      | none => pure (Registry.within (← activeRules) table (← Step.path))
    let mount := order.mount.getD (rules.matching (← Step.path))
    Step.openScope rules mount (order.owner.map .other)

def run (catalogue : Catalogue σ) : Command → Step σ Answer
  | .push o => do
    Step.push (← Step.create o)
    return .done
  | .duplicate => do
    Step.push (← Step.peek)
    return .done
  | .pop => do found (← Step.pop)
  | .peek => do found (← Step.peek)
  | .peekAt n => do found (← Step.peekAt n)
  | .size => return .count (← Step.size)
  | .touchTop type => do
    let top ← Step.peek
    put top (← expect type top).touched
    found top
  | .root => return .object (← look? (← Step.root))
  | .rootIsTop => do
    let top ← Step.peek
    return .flag ((← Step.root) = some top)
  | .setRoot o => do
    Step.setRoot (← Step.create o)
    return .done
  | .pushNamed stack o => do
    Step.pushNamed stack (← Step.create o)
    return .done
  | .shareNamed stack => do
    Step.pushNamed stack (← Step.peek)
    return .done
  | .pushFromNamed stack => do
    Step.push (← Step.peekNamed stack)
    return .done
  | .popNamed stack => do found (← Step.popNamed stack)
  | .peekNamed stack => do found (← Step.peekNamed stack)
  | .namedEmpty stack => return .flag (← namedStack stack).isEmpty
  | .pushParams frame => do
    Step.pushParams frame
    return .done
  | .popParams => return .frame (← Step.popParams)
  | .params => return .frame (← peekParams)
  | .setParam index value => return .flag (← Step.setParam index value)
  | .openScope order => do
    openOrdered order
    return .count (← Step.scopeCount)
  | .closeScope => return .scope (some (← Step.closeScope))
  | .closeOwned owner => return .scope (some (← closeOwnedScope (.other owner)))
  | .owned owner => return .scope (← ownedScope? (.other owner))
  | .scope => return .scope (← scope?)
  | .scopeCount => return .count (← Step.scopeCount)
  | .matching p => return .actions (some ((← activeRules).matching p))
  | .baseMatching p => return .actions (some ((← read).rules.matching p))
  | .parent => return .actions ((← activeRules).parent?.map Registry.actions)
  | .startRules => do
    catalogue.start (← activeRules).actions
    return .done
  | .finishRules => do
    catalogue.finish (← activeRules).actions
    return .done
  | .path => return .text (some (← Step.path))
  | .depth => return .count (← Step.depth)
  | .resolve label => return .text ((← read).bindings.resolve? label)
  | .expand written => return .text ((← read).bindings.expand? written)
  | .bindingDepth => return .count (← read).bindings.depth
  | .create type attrs => do
    let factory := (← read).factory
    let known ← ofExcept (factory.resolve type)
    let ref ← Step.create (← ofExcept (factory.instantiate known attrs))
    Step.push ref
    found ref
  | .raise error => throw error

end Command
end XmlRules
