import XmlRules.Action
import XmlRules.Dispatch.Error
import XmlRules.Text.Blank
namespace XmlRules

-- An open element: its name, the actions it was matched with once and for all, all its direct text
-- so far, and the part of that text that no action has been given yet.
structure Frame where
  name : QName
  actions : List ActionId
  body : String := ""
  segment : String := ""

structure Context (σ : Type) where
  site : Site
  frames : List Frame := []
  work : Workspace σ

abbrev ContextM (σ : Type) := Attempt DispatchError (Context σ)

namespace Context
variable {σ : Type}

def path (ctx : Context σ) : String := ctx.site.trail.path
def depth (ctx : Context σ) : Nat := ctx.site.trail.depth

def perform (wrap : ActionError → DispatchError) (step : Step σ Unit) : ContextM σ Unit := do
  let ctx ← get
  let (result, work) := Step.perform step ctx.site ctx.work
  set { ctx with work }
  match result with
  | .ok () => pure ()
  | .error e => throw (wrap e)

def performAll (catalogue : Catalogue σ) (phase : Phase) (path : String)
    (callback : Behaviour σ → Step σ Unit) (ids : List ActionId) : ContextM σ Unit :=
  ids.forM fun id =>
    perform (.action (catalogue id).name phase path) (callback (catalogue id))

def flush (catalogue : Catalogue σ) : ContextM σ Unit := do
  let ctx ← get
  match ctx.frames with
  | [] => pure ()
  | frame :: frames =>
    if frame.segment = "" then pure ()
    else
      set { ctx with frames := { frame with segment := "" } :: frames }
      performAll catalogue .bodySegment ctx.path (·.onSegment frame.name frame.segment) frame.actions

-- The text before a child is delivered while the path is still that of the parent.
def openElement (catalogue : Catalogue σ) (name : QName) (attrs : Attributes)
    (declared : List (String × String)) : ContextM σ Unit := do
  flush catalogue
  modify fun ctx => { ctx with site :=
    { ctx.site with bindings := ctx.site.bindings.enter declared, trail := ctx.site.trail.enter name } }
  let ctx ← get
  let active := match ctx.work.scopes with
    | [] => ctx.site.rules
    | scope :: _ => scope.rules
  let actions := active.matching ctx.path
  set { ctx with frames := { name, actions } :: ctx.frames }
  performAll catalogue .begin ctx.path (·.onBegin name attrs) actions

def addText (ctx : Context σ) (text : String) : Context σ :=
  match ctx.frames with
  | [] => ctx
  | frame :: frames =>
    { ctx with frames :=
        { frame with body := frame.body ++ text, segment := frame.segment ++ text } :: frames }

def leave (ctx : Context σ) : Context σ where
  site := { ctx.site with
    bindings := ctx.site.bindings.leave, trail := ctx.site.trail.leave?.getD ctx.site.trail }
  frames := ctx.frames.tail
  work := ctx.work.closeScopesFrom ctx.depth

def closeElement (catalogue : Catalogue σ) (trims : Bool) (name : QName) : ContextM σ Unit := do
  let ctx ← get
  match ctx.frames with
  | [] => throw (.internal (.strayEnd name))
  | frame :: _ =>
    if frame.name ≠ name then throw (.internal (.wrongEnd name frame.name))
    flush catalogue
    let text := if trims then Text.trimmed frame.body else frame.body
    performAll catalogue .body ctx.path (·.onBody name text) frame.actions
    performAll catalogue .ending ctx.path (·.onEnd name) frame.actions.reverse
    modify leave

end Context
end XmlRules
