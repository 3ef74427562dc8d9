import XmlRules.Action.Stock
import XmlRules.Proofs.NestedScopes
namespace XmlRules

namespace Step
variable {σ α β : Type}

-- A step that, even where it fails, changes the workspace only as is allowed.
def Moves (allowed : Site → Workspace σ → Workspace σ → Prop) (step : Step σ α) : Prop :=
  ∀ site ws, allowed site ws (Step.perform step site ws).2

section Moving
variable {allowed : Site → Workspace σ → Workspace σ → Prop}

theorem Moves.ran {step : Step σ α} (moves : step.Moves allowed) {site : Site}
    {ws after : Workspace σ} {result : Except ActionError α}
    (ran : Step.perform step site ws = (result, after)) : allowed site ws after := by
  have moved := moves site ws
  rwa [ran] at moved

theorem Moves.bind (chained : ∀ {site ws middle after}, allowed site ws middle →
      allowed site middle after → allowed site ws after) {step : Step σ α} {next : α → Step σ β}
    (first : step.Moves allowed) (second : ∀ a, (next a).Moves allowed) :
    Moves allowed (step >>= next) := by
  intro site ws
  have split := Attempt.perform_bind (step site) (fun a => next a site) ws
  change Attempt.perform ((step >>= next) site) ws = _ at split
  have moved := first site ws
  unfold Step.perform at moved ⊢
  rw [split]
  cases run : (step site).perform ws with
  | mk result after =>
    rw [run] at moved
    cases result with
    | ok a => exact chained moved (second a site after)
    | error e => exact moved

theorem Moves.tryCatch (chained : ∀ {site ws middle after}, allowed site ws middle →
      allowed site middle after → allowed site ws after) {step : Step σ α}
    {handler : ActionError → Step σ α} (first : step.Moves allowed)
    (second : ∀ e, (handler e).Moves allowed) : Moves allowed (tryCatch step handler) := by
  intro site ws
  have split := Attempt.perform_tryCatch (step site) (fun e => handler e site) ws
  change Attempt.perform ((MonadExcept.tryCatch step handler) site) ws = _ at split
  have moved := first site ws
  unfold Step.perform at moved ⊢
  rw [split]
  cases run : (step site).perform ws with
  | mk result after =>
    rw [run] at moved
    cases result with
    | ok a => exact moved
    | error e => exact chained moved (second e site after)

theorem Moves.forM (kept : ∀ {site ws}, allowed site ws ws) (chained : ∀ {site ws middle after},
      allowed site ws middle → allowed site middle after → allowed site ws after) {γ : Type}
    (items : List γ) {callback : γ → Step σ Unit} (each : ∀ item, (callback item).Moves allowed) :
    Moves allowed (items.forM callback) := by
  induction items with
  | nil => exact fun _ _ => kept
  | cons item items ih => exact Moves.bind @chained (each item) fun _ => ih

theorem moves_get {next : Workspace σ → Step σ α} (rest : ∀ ws site,
    allowed site ws (Step.perform (next ws) site ws).2) : Moves allowed (get >>= next) :=
  fun site ws => rest ws site

end Moving

def Reads (step : Step σ α) : Prop := step.Moves fun _ ws after => after = ws

theorem Reads.moves {allowed : Site → Workspace σ → Workspace σ → Prop} {step : Step σ α}
    (reads : step.Reads) (kept : ∀ site ws, allowed site ws ws) : step.Moves allowed := by
  intro site ws
  rw [reads site ws]
  exact kept site ws

theorem Reads.bind {step : Step σ α} {next : α → Step σ β} (first : step.Reads)
    (second : ∀ a, (next a).Reads) : Reads (step >>= next) :=
  Moves.bind (fun here there => there.trans here) first second

theorem reads_pure (a : α) : Reads (pure a : Step σ α) := fun _ _ => rfl

theorem reads_throw (e : ActionError) : Reads (throw e : Step σ α) := fun _ _ => rfl

theorem reads_ofExcept (result : Except ActionError α) : Reads (ofExcept result : Step σ α) := by
  cases result with
  | ok a => exact reads_pure a
  | error e => exact reads_throw e

theorem reads_site : Reads (read : Step σ Site) := fun _ _ => rfl

theorem reads_work : Reads (get : Step σ (Workspace σ)) := fun _ _ => rfl

theorem reads_depth : Reads (depth : Step σ Nat) := fun _ _ => rfl

theorem reads_path : Reads (path : Step σ String) := fun _ _ => rfl

theorem reads_activeRules : Reads (activeRules : Step σ Registry) := by
  refine reads_work.bind fun ws => ?_
  split
  · exact reads_site.bind fun site => reads_pure _
  · exact reads_pure _

theorem reads_ownedScope? (owner : Owner) : Reads (ownedScope? owner : Step σ (Option Scope)) :=
  fun _ _ => rfl

theorem reads_peekAt (n : UInt64) : (peekAt n : Step σ Ref).Reads := by
  refine reads_work.bind fun ws => ?_
  dsimp only
  split
  · refine (reads_throw _).bind fun _ => ?_
    split
    · exact reads_pure _
    · exact reads_throw _
  · split
    · exact reads_pure _
    · exact reads_throw _

theorem reads_look (ref : Ref) : (look ref : Step σ Object).Reads := by
  refine reads_work.bind fun ws => ?_
  split
  · exact reads_pure _
  · exact reads_work.bind fun ws => reads_throw _

theorem reads_expect (type : ObjectType) (ref : Ref) : (expect type ref : Step σ Object).Reads := by
  refine (reads_look ref).bind fun o => ?_
  split
  · exact reads_pure o
  · exact reads_throw _

theorem reads_peekParams : (peekParams : Step σ ParamFrame).Reads := by
  refine reads_work.bind fun ws => ?_
  split
  · exact reads_throw _
  · exact reads_pure _

def Still (step : Step σ α) : Prop := step.Moves fun _ ws after => after.scopes = ws.scopes

theorem Reads.still {step : Step σ α} (reads : step.Reads) : step.Still := reads.moves fun _ _ => rfl

theorem Still.quiet {step : Step σ α} (still : step.Still) : step.Quiet := by
  intro site before ws a after same ran
  have kept := Moves.ran still ran
  exact kept.trans same

theorem Still.bind {step : Step σ α} {next : α → Step σ β} (first : step.Still)
    (second : ∀ a, (next a).Still) : Still (step >>= next) :=
  Moves.bind (fun here there => there.trans here) first second

theorem still_pure (a : α) : Still (pure a : Step σ α) := (reads_pure a).still

theorem still_throw (e : ActionError) : Still (throw e : Step σ α) := (reads_throw e).still

theorem still_ofExcept (result : Except ActionError α) : Still (ofExcept result : Step σ α) :=
  (reads_ofExcept result).still

theorem still_modify {f : Workspace σ → Workspace σ} (keeps : ∀ ws, (f ws).scopes = ws.scopes) :
    Still (modify f : Step σ Unit) :=
  fun _ ws => keeps ws

theorem still_create (o : Object) : (create o : Step σ Ref).Still := moves_get fun _ _ => rfl

theorem still_push (ref : Ref) : (push ref : Step σ Unit).Still := moves_get fun _ _ => rfl

theorem still_pop : (pop : Step σ Ref).Still := by
  apply moves_get
  intro ws site
  split <;> rfl

theorem still_put (ref : Ref) (o : Object) : (put ref o : Step σ Unit).Still :=
  still_modify fun _ => rfl

theorem still_pushParams (frame : ParamFrame) : (pushParams frame : Step σ Unit).Still :=
  still_modify fun _ => rfl

theorem still_popParams : (popParams : Step σ ParamFrame).Still := by
  apply moves_get
  intro ws site
  split <;> rfl

theorem still_setParam (index : Nat) (value : Option String) :
    (setParam index value : Step σ Bool).Still := by
  apply moves_get
  intro ws site
  split
  · rfl
  · split <;> rfl

end Step

namespace NestedRules
open Step
variable {σ : Type}

theorem reads_mounted (self : ActionId) : (mounted self : Step σ (List ActionId)).Reads := by
  refine (reads_ownedScope? _).bind fun found => ?_
  split
  · exact reads_pure _
  · exact reads_path.bind fun path => reads_throw _

theorem reads_install (set : List Registration) : (install set : Step σ Registry).Reads := by
  unfold install
  split
  · exact reads_throw _
  · exact reads_activeRules.bind fun active => reads_path.bind fun path => reads_pure _

-- What may happen to a workspace step after step, the opening and the closing of scopes included.
structure Lasting (allowed : Site → Workspace σ → Workspace σ → Prop) : Prop where
  kept : ∀ {site ws}, allowed site ws ws
  chained : ∀ {site ws middle after}, allowed site ws middle → allowed site middle after →
    allowed site ws after
  opens : ∀ rules ids owner, (openScope rules ids owner : Step σ Unit).Moves allowed
  closes : ∀ owner, (closeOwnedScope owner : Step σ Scope).Moves allowed

section Lasting
variable {allowed : Site → Workspace σ → Workspace σ → Prop} {c : Catalogue σ}
  {listed : Occasion → Prop} (lasting : Lasting allowed)
  (each : ∀ id occasion, listed occasion → (occasion.answer (c id)).Moves allowed)

include lasting

theorem Lasting.reads {α : Type} {step : Step σ α} (reads : step.Reads) : step.Moves allowed :=
  reads.moves fun _ _ => lasting.kept

theorem Lasting.bind {α β : Type} {step : Step σ α} {next : α → Step σ β}
    (first : step.Moves allowed) (second : ∀ a, (next a).Moves allowed) :
    Step.Moves allowed (step >>= next) := by
  refine Moves.bind ?_ first second
  exact fun here there => lasting.chained here there

theorem Lasting.tryCatch {α : Type} {step : Step σ α} {handler : ActionError → Step σ α}
    (first : step.Moves allowed) (second : ∀ e, (handler e).Moves allowed) :
    Step.Moves allowed (tryCatch step handler) := by
  refine Moves.tryCatch ?_ first second
  exact fun here there => lasting.chained here there

theorem Lasting.failure? {step : Step σ Unit} (moves : step.Moves allowed) :
    (failure? step).Moves allowed :=
  lasting.tryCatch (lasting.bind moves fun _ => lasting.reads (reads_pure _))
    fun _ => lasting.reads (reads_pure _)

include each

theorem Lasting.forM {occasion : Occasion} (on : listed occasion) (ids : List ActionId) :
    Step.Moves allowed (ids.forM fun id => occasion.answer (c id)) := by
  refine Moves.forM lasting.kept ?_ ids fun id => each id occasion on
  exact fun here there => lasting.chained here there

theorem Lasting.enter (start : listed .start) (n : NestedRules) (self : ActionId) (name : QName)
    (attrs : Attributes) (on : listed (.begin name attrs)) :
    (n.enter self c name attrs).Moves allowed := by
  rw [enter_written]
  refine lasting.bind (lasting.reads (reads_ofExcept _)) fun set => ?_
  refine lasting.bind (lasting.reads (reads_install set)) fun rules => ?_
  refine lasting.bind (lasting.reads reads_path) fun path => ?_
  refine lasting.bind (lasting.opens _ _ _) fun _ => ?_
  refine lasting.bind (lasting.forM each start _) fun _ => ?_
  exact lasting.forM each on _

theorem Lasting.begin (start : listed .start) (n : NestedRules) (self : ActionId) (name : QName)
    (attrs : Attributes) (on : listed (.begin name attrs)) :
    (n.begin self c name attrs).Moves allowed := by
  refine lasting.tryCatch (lasting.enter each start n self name attrs on) fun e => ?_
  refine lasting.bind (lasting.reads (reads_ownedScope? _)) fun found => ?_
  dsimp only
  split
  · exact lasting.bind (lasting.closes _) fun _ => lasting.reads (reads_throw e)
  · exact lasting.reads (reads_throw e)

theorem Lasting.leave (finish : listed .finish) (self : ActionId) (name : QName)
    (on : listed (.ending name)) : (leave self c name).Moves allowed := by
  refine lasting.bind (lasting.reads (reads_mounted self)) fun ids => ?_
  refine lasting.bind (lasting.failure? (lasting.forM each on _)) fun failed => ?_
  refine lasting.bind (lasting.closes _) fun scope => ?_
  refine lasting.bind (lasting.failure? (lasting.forM each finish _)) fun unfinished => ?_
  split
  · exact lasting.reads (reads_throw _)
  · exact lasting.reads (reads_pure _)

theorem Lasting.behaviour (start : listed .start) (finish : listed .finish) (n : NestedRules)
    (self : ActionId) {occasion : Occasion} (on : listed occasion) :
    (occasion.answer (n.behaviour self c)).Moves allowed := by
  cases occasion with
  | begin name attrs => exact lasting.begin each start n self name attrs on
  | segment name text | body name text =>
    exact lasting.bind (lasting.reads (reads_mounted self)) fun ids => lasting.forM each on ids
  | ending name => exact lasting.leave each finish self name on
  | start | finish => exact lasting.reads (reads_pure ())

end Lasting
end NestedRules

section Stock
open Step
variable {σ : Type}

structure Repeatable (allowed : Site → Workspace σ → Workspace σ → Prop) : Prop where
  kept : ∀ {site ws}, allowed site ws ws
  chained : ∀ {site ws middle after}, allowed site ws middle → allowed site middle after →
    allowed site ws after

section Repeatable
variable {allowed : Site → Workspace σ → Workspace σ → Prop} (repeatable : Repeatable allowed)
include repeatable

theorem Repeatable.reads {α : Type} {step : Step σ α} (reads : step.Reads) : step.Moves allowed :=
  reads.moves fun _ _ => repeatable.kept

theorem Repeatable.bind {α β : Type} {step : Step σ α} {next : α → Step σ β}
    (first : step.Moves allowed) (second : ∀ a, (next a).Moves allowed) :
    Step.Moves allowed (step >>= next) := by
  refine Moves.bind ?_ first second
  exact fun here there => repeatable.chained here there

theorem Link.moves (puts : ∀ ref o, (put ref o : Step σ Unit).Moves allowed) (l : Link)
    (occasion : Occasion) : (occasion.answer (l.behaviour : Behaviour σ)).Moves allowed := by
  cases occasion with
  | ending name =>
    refine repeatable.bind (repeatable.reads (reads_peekAt 0)) fun child => ?_
    refine repeatable.bind (repeatable.reads (reads_peekAt 1)) fun parent => ?_
    have joined : Moves allowed (do
        let given ← expect l.child child
        let target ← expect l.parent parent
        put parent (l.join target given) : Step σ Unit) := by
      refine repeatable.bind (repeatable.reads (reads_expect _ _)) fun given => ?_
      exact repeatable.bind (repeatable.reads (reads_expect _ _)) fun target => puts _ _
    dsimp only
    split
    · exact repeatable.bind (repeatable.reads (reads_throw _)) fun _ => joined
    · exact joined
  | start | begin | segment | body | finish => exact repeatable.reads (reads_pure ())

section Params
variable (sets : ∀ index value, (setParam index value : Step σ Bool).Moves allowed)
include sets

theorem Param.moves_fill (p : Param) (value : Option String) :
    (p.fill value : Step σ Unit).Moves allowed := by
  refine repeatable.bind (repeatable.reads reads_peekParams) fun frame => ?_
  refine repeatable.bind (sets p.index value) fun written => ?_
  split
  · exact repeatable.reads (reads_throw _)
  · exact repeatable.reads (reads_pure _)

theorem Param.moves (p : Param) (occasion : Occasion) :
    (occasion.answer (p.behaviour : Behaviour σ)).Moves allowed := by
  obtain ⟨index, source⟩ := p
  cases occasion with
  | begin name attrs =>
    rcases source with wanted | _
    · exact Param.moves_fill repeatable sets ⟨index, _⟩ _
    · exact repeatable.reads (reads_pure ())
  | body name text =>
    rcases source with wanted | _
    · exact repeatable.reads (reads_pure ())
    · exact Param.moves_fill repeatable sets ⟨index, _⟩ _
  | start | segment | ending | finish => exact repeatable.reads (reads_pure ())

theorem Call.moves_body (c : Call) (name : QName) (text : String) :
    ((c.behaviour : Behaviour σ).onBody name text).Moves allowed := by
  change Moves allowed (if c.arity = 0 then _ else _)
  split
  · refine repeatable.bind (sets 0 _) fun written => ?_
    split
    · exact repeatable.reads (reads_throw _)
    · exact repeatable.reads (reads_pure _)
  · exact repeatable.reads (reads_pure _)

theorem Call.moves (pushes : ∀ frame, (pushParams frame : Step σ Unit).Moves allowed)
    (pops : (popParams : Step σ ParamFrame).Moves allowed)
    (puts : ∀ ref o, (put ref o : Step σ Unit).Moves allowed) (c : Call) (occasion : Occasion) :
    (occasion.answer (c.behaviour : Behaviour σ)).Moves allowed := by
  cases occasion with
  | begin name attrs => exact pushes _
  | body name text => exact Call.moves_body repeatable sets c name text
  | ending name =>
    refine repeatable.bind pops fun frame => ?_
    refine repeatable.bind (repeatable.reads (reads_peekAt 0)) fun top => ?_
    refine repeatable.bind (repeatable.reads (reads_expect _ _)) fun before => ?_
    exact repeatable.bind (puts _ _) fun _ => repeatable.reads (reads_ofExcept _)
  | start | segment | finish => exact repeatable.reads (reads_pure ())

end Params
end Repeatable

theorem repeatable_still :
    Repeatable fun _ (ws after : Workspace σ) => after.scopes = ws.scopes where
  kept := rfl
  chained here there := there.trans here

theorem Creation.still (c : Creation) (occasion : Occasion) :
    (occasion.answer (c.behaviour : Behaviour σ)).Still := by
  cases occasion with
  | begin name attrs =>
    refine reads_site.still.bind fun site => ?_
    refine (still_ofExcept _).bind fun known => ?_
    refine (still_ofExcept _).bind fun made => ?_
    exact (still_create made).bind fun ref => still_push ref
  | ending name => exact still_pop.bind fun _ => still_pure ()
  | start | segment | body | finish => exact still_pure ()

theorem Link.still (l : Link) (occasion : Occasion) :
    (occasion.answer (l.behaviour : Behaviour σ)).Still :=
  l.moves repeatable_still still_put occasion

theorem Call.still (c : Call) (occasion : Occasion) :
    (occasion.answer (c.behaviour : Behaviour σ)).Still :=
  c.moves repeatable_still still_setParam still_pushParams still_popParams still_put occasion

theorem Param.still (p : Param) (occasion : Occasion) :
    (occasion.answer (p.behaviour : Behaviour σ)).Still :=
  p.moves repeatable_still still_setParam occasion

def StockAction.nested? : StockAction → Option NestedRules
  | .nested n => some n
  | _ => none

theorem StockAction.nested_of_nested? {action : StockAction} {n : NestedRules}
    (nests : action.nested? = some n) : action = .nested n := by
  cases action with
  | nested m =>
    cases nests
    rfl
  | create | link | call | param => cases nests

theorem StockAction.nesting (actions : ActionId → StockAction) :
    Nesting (fun id => (actions id).definition id : ActionId → Definition σ)
      fun id => (actions id).nested? := by
  refine ⟨?_, ?_⟩
  · intro id n nests
    rw [StockAction.nested_of_nested? nests]
    rfl
  · intro id plain depth occasion
    cases depth with
    | zero => cases occasion <;> exact quiet_throw .tooDeep
    | succ depth =>
      change (occasion.answer ((actions id).definition id _)).Quiet
      cases kind : actions id with
      | nested m =>
        rw [kind] at plain
        cases plain
      | create c => exact (c.still occasion).quiet
      | link l => exact (l.still occasion).quiet
      | call c => exact (c.still occasion).quiet
      | param p => exact (p.still occasion).quiet

end Stock
end XmlRules
