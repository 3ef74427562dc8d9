import XmlRules.Command
namespace XmlRules
open Step

inductive Moment where
  | starting
  | beginning
  | segment
  | body
  | ending
  | finishing
deriving DecidableEq, Repr

inductive Entry where
  | started (actor : ActionId)
  | began (actor : ActionId) (path : String) (name : QName) (attrs : Attributes)
  | text (actor : ActionId) (moment : Moment) (path : String) (name : QName) (content : String)
  | ended (actor : ActionId) (path : String) (name : QName)
  | finished (actor : ActionId)
  | ran (actor : ActionId) (moment : Moment) (label : String) (result : Except ActionError Answer)

abbrev Journal := Array Entry

namespace Journal

def write (entry : Entry) : Step Journal Unit := note (·.push entry)

def recorder (self : ActionId) (name : String) (chosen : Moment → Bool) : Behaviour Journal :=
  let log (moment : Moment) (entry : String → Entry) : Step Journal Unit := do
    if chosen moment then write (entry (← path))
  { name
    onStart := log .starting fun _ => .started self
    onBegin := fun q attrs => log .beginning fun path => .began self path q attrs
    onSegment := fun q text => log .segment fun path => .text self .segment path q text
    onBody := fun q text => log .body fun path => .text self .body path q text
    onEnd := fun q => log .ending fun path => .ended self path q
    onFinish := log .finishing fun _ => .finished self }

-- A command of a script, under the name it is recorded by. One that is tried goes into the record
-- even when it fails.
structure Instruction where
  label : String
  command : Command
  tried : Bool := false

def Instruction.run (catalogue : Catalogue Journal) (self : ActionId) (moment : Moment)
    (i : Instruction) : Step Journal Unit := do
  let result ← tryCatch (return .ok (← i.command.run catalogue)) fun e =>
    if i.tried then return .error e else throw e
  write (.ran self moment i.label result)

def scripted (self : ActionId) (name : String) (script : Moment → List Instruction)
    (catalogue : Catalogue Journal) : Behaviour Journal :=
  let play (moment : Moment) : Step Journal Unit :=
    (script moment).forM (Instruction.run catalogue self moment)
  { name
    onStart := play .starting
    onBegin := fun _ _ => play .beginning
    onSegment := fun _ _ => play .segment
    onBody := fun _ _ => play .body
    onEnd := fun _ => play .ending
    onFinish := play .finishing }

end Journal
end XmlRules
