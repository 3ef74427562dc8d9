import Mathlib.Logic.Relation
import XmlRules.Journal
import XmlRules.Proofs.StockScopes
namespace XmlRules

-- What an action can do to the open scopes, one call at a time: open one where it stands, close the
-- last one, or take out one that somebody owns where it stands.
inductive ScopeMove (depth : Nat) : List Scope → List Scope → Prop where
  | opened (scope : Scope) (here : scope.mountDepth = depth) (scopes : List Scope) :
      ScopeMove depth scopes (scope :: scopes)
  | closed (scope : Scope) (scopes : List Scope) : ScopeMove depth (scope :: scopes) scopes
  | closedOwned (owner : Owner) (scopes : List Scope) :
      ScopeMove depth scopes (scopes.eraseP (Step.ownedHere owner depth))

abbrev ScopeMoves (depth : Nat) : List Scope → List Scope → Prop :=
  Relation.ReflTransGen (ScopeMove depth)

namespace Step
variable {σ α β : Type}

-- A step that changes the scopes only in these ways, also where it fails in the end.
def Guarded (step : Step σ α) : Prop :=
  step.Moves fun site ws after => ScopeMoves site.trail.depth ws.scopes after.scopes

theorem Still.guarded {step : Step σ α} (still : step.Still) : step.Guarded := by
  intro site ws
  rw [still site ws]

theorem Guarded.bind {step : Step σ α} {next : α → Step σ β} (first : step.Guarded)
    (second : ∀ a, (next a).Guarded) : Guarded (step >>= next) :=
  Moves.bind (fun here there => here.trans there) first second

theorem Guarded.tryCatch {step : Step σ α} {handler : ActionError → Step σ α} (first : step.Guarded)
    (second : ∀ e, (handler e).Guarded) : Guarded (tryCatch step handler) :=
  Moves.tryCatch (fun here there => here.trans there) first second

theorem guarded_pure (a : α) : Guarded (pure a : Step σ α) := (still_pure a).guarded

theorem guarded_throw (e : ActionError) : Guarded (throw e : Step σ α) := (still_throw e).guarded

theorem guarded_forM {γ : Type} (items : List γ) {callback : γ → Step σ Unit}
    (guarded : ∀ item, (callback item).Guarded) : Guarded (items.forM callback) :=
  Moves.forM .refl (fun here there => here.trans there) items guarded

theorem guarded_openScope (rules : Registry) (mountActions : List ActionId) (owner : Option Owner) :
    (openScope rules mountActions owner : Step σ Unit).Guarded :=
  fun site ws => .single (.opened ⟨rules, site.trail.depth, mountActions, owner⟩ rfl ws.scopes)

theorem guarded_here {next : Nat → Workspace σ → Step σ α} (rest : ∀ site ws,
    ScopeMoves site.trail.depth ws.scopes
      (Step.perform (next site.trail.depth ws) site ws).2.scopes) :
    Guarded (do
      let here ← depth
      let ws ← get
      next here ws) := rest

theorem guarded_closeScope : (closeScope : Step σ Scope).Guarded := by
  intro site ws
  obtain ⟨store, objects, named, params, scopes, root, journal⟩ := ws
  cases scopes with
  | nil => exact .refl
  | cons scope scopes => exact .single (.closed scope scopes)

theorem guarded_closeOwnedScope (owner : Owner) : (closeOwnedScope owner : Step σ Scope).Guarded := by
  apply guarded_here
  intro site ws
  split
  · exact .refl
  · exact .single (.closedOwned owner ws.scopes)

end Step

def Behaviour.Guarded {σ : Type} (b : Behaviour σ) : Prop :=
  ∀ occasion : Occasion, (occasion.answer b).Guarded

def Catalogue.Guarded {σ : Type} (c : Catalogue σ) : Prop := ∀ id, (c id).Guarded

section Catalogues
open Step
variable {σ : Type} {c : Catalogue σ}

theorem Catalogue.Guarded.start (guarded : c.Guarded) (ids : List ActionId) :
    (c.start ids).Guarded :=
  guarded_forM ids fun id => guarded id .start

theorem Catalogue.Guarded.finish (guarded : c.Guarded) (ids : List ActionId) :
    (c.finish ids).Guarded :=
  guarded_forM ids fun id => guarded id .finish

theorem Catalogue.guarded_tie {definitions : ActionId → Definition σ}
    (each : ∀ id c, Catalogue.Guarded c → (definitions id c).Guarded) (depth : Nat) :
    (Catalogue.tie definitions depth).Guarded := by
  induction depth with
  | zero => exact fun id occasion => by cases occasion <;> exact guarded_throw .tooDeep
  | succ depth ih => exact fun id => each id _ ih

namespace NestedRules

theorem lasting_guarded :
    Lasting fun site (ws after : Workspace σ) => ScopeMoves site.trail.depth ws.scopes after.scopes where
  kept := .refl
  chained here there := here.trans there
  opens := guarded_openScope
  closes := guarded_closeOwnedScope

theorem guarded_behaviour (guarded : c.Guarded) (n : NestedRules) (self : ActionId) :
    (n.behaviour self c).Guarded := fun _ =>
  lasting_guarded.behaviour (fun id occasion (_ : True) => guarded id occasion) trivial trivial n self
    trivial

end NestedRules

theorem StockAction.guarded (guarded : c.Guarded) (self : ActionId) (action : StockAction) :
    (action.definition self c).Guarded := by
  cases action with
  | create c => exact fun occasion => (c.still occasion).guarded
  | link l => exact fun occasion => (l.still occasion).guarded
  | call c => exact fun occasion => (c.still occasion).guarded
  | param p => exact fun occasion => (p.still occasion).guarded
  | nested n => exact NestedRules.guarded_behaviour guarded n self

namespace Command

theorem still_found (ref : Ref) : (found ref : Step σ Answer).Still :=
  (reads_look ref).still.bind fun _ => still_pure _

theorem still_root : (Step.root : Step σ (Option Ref)).Still := fun _ _ => rfl

theorem still_look? (ref : Option Ref) : (look? ref : Step σ (Option Object)).Still := by
  cases ref with
  | none => exact still_pure none
  | some ref => exact (reads_look ref).still.bind fun o => still_pure (some o)

theorem still_pushNamed (stack : String) (ref : Ref) :
    (Step.pushNamed stack ref : Step σ Unit).Still := fun _ _ => rfl

theorem still_namedStack (stack : String) : (namedStack stack : Step σ (List Ref)).Still :=
  fun _ _ => rfl

theorem still_peekNamed (stack : String) : (Step.peekNamed stack : Step σ Ref).Still := by
  refine (still_namedStack stack).bind fun refs => ?_
  split
  · exact still_throw _
  · exact still_pure _

theorem still_popNamed (stack : String) : (Step.popNamed stack : Step σ Ref).Still := by
  refine (still_namedStack stack).bind fun refs => ?_
  split
  · exact still_throw _
  · exact Still.bind (still_modify fun _ => rfl) fun _ => still_pure _

theorem guarded_openOrdered (order : ScopeOrder) : (openOrdered order : Step σ Unit).Guarded := by
  unfold openOrdered
  split
  · exact guarded_throw _
  · have opens : ∀ rules : Registry, Step.Guarded (do
        let mount := order.mount.getD (rules.matching (← Step.path))
        Step.openScope rules mount (order.owner.map .other) : Step σ Unit) := fun rules =>
      reads_path.still.guarded.bind fun path => guarded_openScope _ _ _
    split
    · exact (guarded_pure _).bind opens
    · refine reads_activeRules.still.guarded.bind fun active => ?_
      exact reads_path.still.guarded.bind fun path => (guarded_pure _).bind opens

theorem guarded_run (guarded : c.Guarded) (command : Command) : (command.run c).Guarded := by
  have answered : ∀ a : Answer, (pure a : Step σ Answer).Still := still_pure
  cases command with
  | push o =>
    refine ((still_create o).bind fun ref => ?_).guarded
    exact (still_push ref).bind fun _ => answered _
  | duplicate =>
    exact ((reads_peekAt 0).still.bind fun ref => (still_push ref).bind fun _ => answered _).guarded
  | pop => exact (still_pop.bind still_found).guarded
  | peek => exact ((reads_peekAt 0).still.bind still_found).guarded
  | peekAt n => exact ((reads_peekAt n).still.bind still_found).guarded
  | touchTop type =>
    refine ((reads_peekAt 0).still.bind fun top => ?_).guarded
    refine (reads_expect type top).still.bind fun o => ?_
    exact (still_put top _).bind fun _ => still_found top
  | root => exact (still_root.bind fun ref => (still_look? ref).bind fun _ => answered _).guarded
  | rootIsTop =>
    exact ((reads_peekAt 0).still.bind fun top => still_root.bind fun _ => answered _).guarded
  | setRoot o => exact fun _ _ => .refl
  | pushNamed stack o =>
    refine ((still_create o).bind fun ref => ?_).guarded
    exact (still_pushNamed stack ref).bind fun _ => answered _
  | shareNamed stack =>
    refine ((reads_peekAt 0).still.bind fun ref => ?_).guarded
    exact (still_pushNamed stack ref).bind fun _ => answered _
  | pushFromNamed stack =>
    refine ((still_peekNamed stack).bind fun ref => ?_).guarded
    exact (still_push ref).bind fun _ => answered _
  | popNamed stack => exact ((still_popNamed stack).bind still_found).guarded
  | peekNamed stack => exact ((still_peekNamed stack).bind still_found).guarded
  | pushParams frame => exact fun _ _ => .refl
  | popParams => exact (still_popParams.bind fun _ => answered _).guarded
  | params => exact (reads_peekParams.still.bind fun _ => answered _).guarded
  | setParam index value => exact ((still_setParam index value).bind fun _ => answered _).guarded
  | openScope order => exact (guarded_openOrdered order).bind fun _ => fun _ _ => .refl
  | closeScope => exact guarded_closeScope.bind fun _ => (answered _).guarded
  | closeOwned owner => exact (guarded_closeOwnedScope _).bind fun _ => (answered _).guarded
  | startRules =>
    refine reads_activeRules.still.guarded.bind fun active => ?_
    exact (guarded.start active.actions).bind fun _ => (answered _).guarded
  | finishRules =>
    refine reads_activeRules.still.guarded.bind fun active => ?_
    exact (guarded.finish active.actions).bind fun _ => (answered _).guarded
  | matching p => exact (reads_activeRules.still.bind fun _ => answered _).guarded
  | parent => exact (reads_activeRules.still.bind fun _ => answered _).guarded
  | create type attrs =>
    refine (reads_site.still.bind fun site => ?_).guarded
    refine (still_ofExcept _).bind fun known => ?_
    refine (still_ofExcept _).bind fun made => ?_
    refine (still_create made).bind fun ref => ?_
    exact (still_push ref).bind fun _ => still_found ref
  | raise error => exact guarded_throw error
  | size | namedEmpty | owned | scope | scopeCount | baseMatching | path | depth | resolve | expand
    | bindingDepth => exact fun _ _ => .refl

end Command

theorem Journal.guarded_scripted {c : Catalogue Journal} (guarded : c.Guarded) (self : ActionId)
    (name : String) (script : Moment → List Instruction) :
    (scripted self name script c).Guarded := by
  have played : ∀ moment, ((script moment).forM (Instruction.run c self moment)).Guarded := by
    intro moment
    refine guarded_forM _ fun i => ?_
    refine Guarded.bind (Guarded.tryCatch ?_ fun e => ?_) fun result => fun _ _ => .refl
    · exact (Command.guarded_run guarded i.command).bind fun _ => guarded_pure _
    · split
      · exact guarded_pure _
      · exact guarded_throw e
  intro occasion
  cases occasion <;> exact played _

end Catalogues
end XmlRules
