import XmlRules.Proofs.StockStacks
namespace XmlRules

-- What the call of an action does to the frames of parameters.
inductive Deed where
  | opens (size : Nat)
  | fills (index : Nat) (value : Option String)
  | closes
  | nothing

namespace Deed

def made : Deed → ParamFrame
  | .opens size => List.replicate size none
  | _ => []

def onFrame (frame : ParamFrame) : Deed → ParamFrame
  | .fills index value => frame.set index value
  | _ => frame

def onFrames (frames : List ParamFrame) : Deed → List ParamFrame
  | .opens size => List.replicate size none :: frames
  | .fills index value => frames.modifyHead (·.set index value)
  | .closes => frames.tail
  | .nothing => frames

end Deed

def Call.deed (c : Call) : Occasion → Deed
  | .begin _ _ => .opens c.frameSize
  | .body _ text => if c.arity = 0 then .fills 0 (some text) else .nothing
  | .ending _ => .closes
  | _ => .nothing

def Param.deed (p : Param) : Occasion → Deed
  | .begin _ attrs =>
    match p.source with
    | .attribute name => .fills p.index (attrs.get? name)
    | .body => .nothing
  | .body _ text =>
    match p.source with
    | .attribute _ => .nothing
    | .body => .fills p.index (some text)
  | _ => .nothing

def StockAction.deed : StockAction → Occasion → Deed
  | .call c => c.deed
  | .param p => p.deed
  | .create _ | .link _ | .nested _ => fun _ => .nothing

section Frames
open Step
variable {σ α β : Type}

def Step.Does (deed : Deed) (step : Step σ α) : Prop :=
  step.Moves fun _ ws after => after.params = deed.onFrames ws.params

theorem Step.Reads.does {step : Step σ α} (reads : step.Reads) : step.Does .nothing :=
  reads.moves fun _ _ => rfl

theorem Step.Does.bind {step : Step σ α} {next : α → Step σ β} (first : step.Does .nothing)
    (second : ∀ a, (next a).Does .nothing) : Does .nothing (step >>= next) :=
  Moves.bind (fun here there => there.trans here) first second

theorem Creation.does (c : Creation) (occasion : Occasion) :
    (occasion.answer (c.behaviour : Behaviour σ)).Does .nothing := by
  cases occasion with
  | begin name attrs =>
    refine reads_site.does.bind fun site => ?_
    refine (reads_ofExcept _).does.bind fun known => ?_
    exact (reads_ofExcept _).does.bind fun made => fun _ _ => rfl
  | ending name =>
    refine Does.bind (fun site ws => ?_) fun _ => (reads_pure ()).does
    obtain ⟨store, objects, named, params, scopes, root, journal⟩ := ws
    cases objects <;> rfl
  | start | segment | body | finish => exact (reads_pure ()).does

theorem repeatable_params :
    Repeatable fun _ (ws after : Workspace σ) => after.params = ws.params where
  kept := rfl
  chained here there := there.trans here

theorem Link.does (l : Link) (occasion : Occasion) :
    (occasion.answer (l.behaviour : Behaviour σ)).Does .nothing := by
  have kept : (occasion.answer (l.behaviour : Behaviour σ)).Moves
      fun _ ws after => after.params = ws.params :=
    l.moves repeatable_params (fun _ _ _ _ => rfl) occasion
  exact kept

theorem does_setParam (index : Nat) (value : Option String) :
    (setParam index value : Step σ Bool).Does (.fills index value) := by
  intro site ws
  cases top : ws.params with
  | nil =>
    obtain ⟨store, objects, named, params, scopes, root, journal⟩ := ws
    cases top
    rfl
  | cons frame params =>
    rw [perform_setParam top]
    split
    · rfl
    · rename_i out
      simp [Deed.onFrames, top, List.set_eq_of_length_le (Nat.le_of_not_lt out)]

theorem Step.Does.checked {deed : Deed} {step : Step σ α} {next : α → Step σ β} (first : step.Does deed)
    (second : ∀ a, (next a).Reads) : Does deed (step >>= next) := by
  intro site ws
  have split := Attempt.perform_bind (step site) (fun a => next a site) ws
  change Attempt.perform ((step >>= next) site) ws = _ at split
  have done := first site ws
  unfold Step.perform at done ⊢
  rw [split]
  cases run : (step site).perform ws with
  | mk result after =>
    rw [run] at done
    cases result with
    | ok a =>
      have kept := second a site after
      unfold Step.perform at kept
      dsimp only
      rwa [kept]
    | error e => exact done

theorem does_peekParams {index : Nat} {value : Option String} {next : ParamFrame → Step σ α}
    (rest : ∀ frame, (next frame).Does (.fills index value)) :
    Does (.fills index value) (peekParams >>= next) := by
  intro site ws
  obtain ⟨store, objects, named, params, scopes, root, journal⟩ := ws
  cases params with
  | nil => rfl
  | cons frame params => exact rest frame site _

theorem Param.does_fill (p : Param) (value : Option String) :
    (p.fill value : Step σ Unit).Does (.fills p.index value) := by
  refine does_peekParams fun frame => ?_
  refine (does_setParam p.index value).checked fun written => ?_
  split
  · exact reads_throw _
  · exact reads_pure _

theorem Param.does (p : Param) (occasion : Occasion) :
    (occasion.answer (p.behaviour : Behaviour σ)).Does (p.deed occasion) := by
  obtain ⟨index, source⟩ := p
  cases occasion with
  | begin name attrs =>
    rcases source with key | _
    · exact Param.does_fill ⟨index, _⟩ _
    · exact (reads_pure ()).does
  | body name text =>
    rcases source with key | _
    · exact (reads_pure ()).does
    · exact Param.does_fill ⟨index, _⟩ _
  | start | segment | ending | finish => exact (reads_pure ()).does

theorem Call.does (c : Call) (occasion : Occasion) :
    (occasion.answer (c.behaviour : Behaviour σ)).Does (c.deed occasion) := by
  cases occasion with
  | begin name attrs => exact fun _ _ => rfl
  | body name text =>
    change Does (if c.arity = 0 then .fills 0 (some text) else .nothing) (if c.arity = 0 then _ else _)
    split
    · refine (does_setParam 0 (some text)).checked fun written => ?_
      split
      · exact reads_throw _
      · exact reads_pure _
    · exact (reads_pure _).does
  | ending name =>
    intro site ws
    cases top : ws.params with
    | nil =>
      obtain ⟨store, objects, named, params, scopes, root, journal⟩ := ws
      cases top
      rfl
    | cons frame params =>
      have delivered := c.end_eq name site top
      change (Step.perform ((c.behaviour : Behaviour σ).onEnd name) site ws).2.params = params
      rw [delivered]
      exact (c.deliver_stores frame site _).2
  | start | segment | finish => exact (reads_pure ()).does

theorem StockAction.does {id : ActionId} {action : StockAction} (leaf : action.nested? = none)
    (occasion : Occasion) :
    (occasion.answer (action.leaf id : Behaviour σ)).Does (action.deed occasion) := by
  cases action with
  | create c => exact c.does occasion
  | link l => exact l.does occasion
  | call c => exact c.does occasion
  | param p => exact p.does occasion
  | nested n => cases leaf

end Frames
end XmlRules
