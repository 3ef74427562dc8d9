import XmlRules.Action
namespace XmlRules
open Step

-- Calls something on the object on top of the stack when the element ends. Without parameters of
-- its own the call gets the body text.
structure Call where
  arity : Nat
  target : ObjectType
  -- The target after the call, which may have been changed even by a call that fails.
  invoke : Object → ParamFrame → Object × Except ActionError Unit

def Call.frameSize (c : Call) : Nat := max c.arity 1

def Call.behaviour {σ : Type} (c : Call) : Behaviour σ where
  name := "CallAction"
  onBegin _ _ := pushParams (List.replicate c.frameSize none)
  onBody _ text := do
    if c.arity = 0 then
      let written ← setParam 0 (some text)
      if !written then throw (.outOfRange 0 0)
  onEnd _ := do
    let frame ← popParams
    let top ← peek
    let before ← expect c.target top
    let (after, result) := c.invoke before frame
    put top after
    ofExcept result

inductive ParamSource where
  | attribute (name : String)
  | body
deriving DecidableEq, Repr

structure Param where
  index : Nat
  source : ParamSource
deriving DecidableEq, Repr

def Param.fill {σ : Type} (p : Param) (value : Option String) : Step σ Unit := do
  let size := (← peekParams).length
  let written ← setParam p.index value
  if !written then
    throw (.failed ("parameter index " ++ toString p.index ++ " out of range for a call taking "
      ++ toString size) none)

def Param.behaviour {σ : Type} (p : Param) : Behaviour σ where
  name := "ParamAction"
  onBegin _ attrs := match p.source with
    | .attribute name => p.fill (attrs.get? name)
    | .body => pure ()
  onBody _ text := match p.source with
    | .attribute _ => pure ()
    | .body => p.fill (some text)

end XmlRules
