import XmlRules.Journal
import XmlRules.Proofs.ScopeMoves
namespace XmlRules

structure Objects where
  stack : List Ref := []
  root : Option Ref := none
deriving DecidableEq

def Workspace.held {σ : Type} (ws : Workspace σ) : Objects := ⟨ws.objects, ws.root⟩

inductive ObjectCall where
  | push (ref : Ref)
  | pop
  | setRoot (ref : Ref)
deriving DecidableEq

namespace Objects

def take (o : Objects) : ObjectCall → Objects
  | .push ref => ⟨ref :: o.stack, if o.stack.isEmpty && o.root.isNone then some ref else o.root⟩
  | .pop => { o with stack := o.stack.tail }
  | .setRoot ref => { o with root := some ref }

def after (o : Objects) (calls : List ObjectCall) : Objects := calls.foldl take o

theorem after_append (o : Objects) (calls more : List ObjectCall) :
    o.after (calls ++ more) = (o.after calls).after more :=
  List.foldl_append

end Objects

namespace Step
variable {σ α β : Type}

def Keeps (step : Step σ α) : Prop := step.Moves fun _ ws after => after.held = ws.held

theorem Reads.keeps {step : Step σ α} (reads : step.Reads) : step.Keeps := reads.moves fun _ _ => rfl

theorem Keeps.bind {step : Step σ α} {next : α → Step σ β} (first : step.Keeps)
    (second : ∀ a, (next a).Keeps) : Keeps (step >>= next) :=
  Moves.bind (fun here there => there.trans here) first second

-- What a step asks for from each workspace on, in order and as far as it gets.
structure Account (step : Step σ α) where
  calls : Site → Workspace σ → List ObjectCall
  accurate : ∀ site ws, (Step.perform step site ws).2.held = ws.held.after (calls site ws)

namespace Account

def idle {step : Step σ α} (keeps : step.Keeps) : step.Account where
  calls _ _ := []
  accurate := keeps

def push (ref : Ref) : (Step.push ref : Step σ Unit).Account where
  calls _ _ := [.push ref]
  accurate _ _ := rfl

def pop : (Step.pop : Step σ Ref).Account where
  calls _ _ := [.pop]
  accurate _ ws := by
    obtain ⟨store, objects, named, params, scopes, root, journal⟩ := ws
    cases objects <;> rfl

def setRoot (ref : Ref) : (Step.setRoot ref : Step σ Unit).Account where
  calls _ _ := [.setRoot ref]
  accurate _ _ := rfl

def bind {step : Step σ α} {next : α → Step σ β} (first : step.Account)
    (second : ∀ a, (next a).Account) : (step >>= next).Account where
  calls site ws := first.calls site ws ++ match Step.perform step site ws with
    | (.ok a, middle) => (second a).calls site middle
    | (.error _, _) => []
  accurate site ws := by
    have split := Attempt.perform_bind (step site) (fun a => next a site) ws
    change Step.perform (step >>= next) site ws = _ at split
    have early := first.accurate site ws
    rw [split, Objects.after_append, ← early]
    unfold Step.perform
    cases (step site).perform ws with
    | mk result middle =>
      cases result with
      | ok a => exact (second a).accurate site middle
      | error e => rfl

def tryCatch {step : Step σ α} {handler : ActionError → Step σ α} (first : step.Account)
    (second : ∀ e, (handler e).Account) : Account (MonadExcept.tryCatch step handler) where
  calls site ws := first.calls site ws ++ match Step.perform step site ws with
    | (.ok _, _) => []
    | (.error e, middle) => (second e).calls site middle
  accurate site ws := by
    have split := Attempt.perform_tryCatch (step site) (fun e => handler e site) ws
    change Step.perform (MonadExcept.tryCatch step handler) site ws = _ at split
    have early := first.accurate site ws
    rw [split, Objects.after_append, ← early]
    unfold Step.perform
    cases (step site).perform ws with
    | mk result middle =>
      cases result with
      | ok a => rfl
      | error e => exact (second e).accurate site middle

def reads {step : Step σ α} (reads : step.Reads) : step.Account := idle reads.keeps

def forM {γ : Type} {callback : γ → Step σ Unit} (each : ∀ item, (callback item).Account) :
    (items : List γ) → (items.forM callback).Account
  | [] => reads (reads_pure ())
  | item :: items => bind (each item) fun _ => forM each items

end Account

theorem keeps_create (o : Object) : (create o : Step σ Ref).Keeps := moves_get fun _ _ => rfl

theorem keeps_put (ref : Ref) (o : Object) : (put ref o : Step σ Unit).Keeps := fun _ _ => rfl

theorem keeps_pushParams (frame : ParamFrame) : (pushParams frame : Step σ Unit).Keeps :=
  fun _ _ => rfl

theorem keeps_popParams : (popParams : Step σ ParamFrame).Keeps := by
  apply moves_get
  intro ws site
  split <;> rfl

theorem keeps_setParam (index : Nat) (value : Option String) :
    (setParam index value : Step σ Bool).Keeps := by
  apply moves_get
  intro ws site
  split
  · rfl
  · split <;> rfl

theorem keeps_openScope (rules : Registry) (mountActions : List ActionId) (owner : Option Owner) :
    (openScope rules mountActions owner : Step σ Unit).Keeps := fun _ _ => rfl

theorem keeps_closeOwnedScope (owner : Owner) : (closeOwnedScope owner : Step σ Scope).Keeps := by
  refine reads_depth.keeps.bind fun here => ?_
  apply moves_get
  intro ws site
  split <;> rfl

theorem keeps_closeScope : (closeScope : Step σ Scope).Keeps := by
  apply moves_get
  intro ws site
  split <;> rfl

end Step

def Behaviour.Account {σ : Type} (b : Behaviour σ) : Type :=
  ∀ occasion : Occasion, (occasion.answer b).Account

def Catalogue.Account {σ : Type} (c : Catalogue σ) : Type := ∀ id, (c id).Account

section Accounts
open Step Step.Account
variable {σ : Type} {c : Catalogue σ}

namespace Catalogue.Account

def start (account : c.Account) (ids : List ActionId) : (c.start ids).Account :=
  forM (fun id => account id .start) ids

def finish (account : c.Account) (ids : List ActionId) : (c.finish ids).Account :=
  forM (fun id => account id .finish) ids

def tie {definitions : ActionId → Definition σ}
    (each : ∀ id c, Catalogue.Account c → (definitions id c).Account) :
    (depth : Nat) → (Catalogue.tie definitions depth).Account
  | 0 => fun _ occasion => reads (by cases occasion <;> exact reads_throw .tooDeep)
  | depth + 1 => fun id => each id _ (tie each depth)

end Catalogue.Account

def Creation.account (creation : Creation) : (creation.behaviour : Behaviour σ).Account
  | .begin _ _ =>
    bind (reads reads_site) fun _ => bind (reads (reads_ofExcept _)) fun _ =>
      bind (reads (reads_ofExcept _)) fun made => bind (idle (keeps_create made)) push
  | .ending _ => bind pop fun _ => reads (reads_pure ())
  | .start | .segment _ _ | .body _ _ | .finish => reads (reads_pure ())

theorem repeatable_held : Repeatable fun _ (ws after : Workspace σ) => after.held = ws.held where
  kept := rfl
  chained here there := there.trans here

namespace NestedRules

def account (nested : NestedRules) (self : ActionId) (account : c.Account) :
    (nested.behaviour self c).Account
  | .begin name attrs =>
    tryCatch
      (bind (reads (reads_ofExcept _)) fun set =>
        bind (reads (install_written set ▸ reads_install set)) fun _ =>
        bind (reads reads_path) fun _ => bind (idle (keeps_openScope _ _ _)) fun _ =>
          bind (account.start _) fun _ => forM (fun id => account id (.begin name attrs)) _)
      fun e => idle (by
        refine (reads_ownedScope? _).keeps.bind fun found => ?_
        dsimp only
        split
        · exact (keeps_closeOwnedScope _).bind fun _ => (reads_throw e).keeps
        · exact (reads_throw e).keeps)
  | .segment name text =>
    bind (reads (reads_mounted self)) (forM fun id => account id (.segment name text))
  | .body name text =>
    bind (reads (reads_mounted self)) (forM fun id => account id (.body name text))
  | .ending name =>
    let failure {step : Step σ Unit} (account : step.Account) : (failure? step).Account :=
      tryCatch (bind account fun _ => reads (reads_pure _)) fun _ => reads (reads_pure _)
    bind (reads (reads_mounted self)) fun _ =>
      bind (failure (forM (fun id => account id (.ending name)) _)) fun failed =>
        bind (idle (keeps_closeOwnedScope _)) fun _ => bind (failure (account.finish _))
          fun unfinished => reads (by
            cases failed.or unfinished with
            | some e => exact reads_throw e
            | none => exact reads_pure ())
  | .start | .finish => reads (reads_pure ())

end NestedRules

def StockAction.account (self : ActionId) (account : c.Account) :
    (action : StockAction) → (action.definition self c).Account
  | .create creation => creation.account
  | .link l => fun occasion => idle (l.moves repeatable_held keeps_put occasion)
  | .call wanted => fun occasion => idle
    (wanted.moves repeatable_held keeps_setParam keeps_pushParams keeps_popParams keeps_put occasion)
  | .param p => fun occasion => idle (p.moves repeatable_held keeps_setParam occasion)
  | .nested n => n.account self account

namespace Command

theorem reads_found (ref : Ref) : (found ref : Step σ Answer).Reads :=
  (reads_look ref).bind fun _ => reads_pure _

theorem reads_look? (ref : Option Ref) : (look? ref : Step σ (Option Object)).Reads := by
  cases ref with
  | none => exact reads_pure none
  | some ref => exact (reads_look ref).bind fun o => reads_pure (some o)

theorem reads_peekNamed (stack : String) : (Step.peekNamed stack : Step σ Ref).Reads := by
  refine Reads.bind (fun _ _ => rfl) fun refs => ?_
  split
  · exact reads_throw _
  · exact reads_pure _

theorem keeps_pushNamed (stack : String) (ref : Ref) :
    (Step.pushNamed stack ref : Step σ Unit).Keeps := fun _ _ => rfl

theorem keeps_popNamed (stack : String) : (Step.popNamed stack : Step σ Ref).Keeps := by
  refine Keeps.bind (fun _ _ => rfl) fun refs => ?_
  split
  · exact (reads_throw _).keeps
  · exact Keeps.bind (fun _ _ => rfl) fun _ => (reads_pure _).keeps

theorem keeps_openOrdered (order : ScopeOrder) : (openOrdered order : Step σ Unit).Keeps := by
  unfold openOrdered
  split
  · exact (reads_throw _).keeps
  · have opens : ∀ rules : Registry, Step.Keeps (do
        let mount := order.mount.getD (rules.matching (← Step.path))
        Step.openScope rules mount (order.owner.map .other) : Step σ Unit) := fun rules =>
      reads_path.keeps.bind fun path => keeps_openScope _ _ _
    split
    · exact (reads_pure _).keeps.bind opens
    · refine reads_activeRules.keeps.bind fun active => ?_
      exact reads_path.keeps.bind fun path => (reads_pure _).keeps.bind opens

def account (account : c.Account) : (command : Command) → (command.run c).Account
  | .push o => .bind (idle (keeps_create o)) fun ref => .bind (Account.push ref) fun _ =>
    reads (reads_pure _)
  | .duplicate => .bind (reads (reads_peekAt 0)) fun ref => .bind (Account.push ref) fun _ =>
    reads (reads_pure _)
  | .pop => .bind Account.pop fun ref => reads (reads_found ref)
  | .setRoot o => .bind (idle (keeps_create o)) fun ref => .bind (Account.setRoot ref) fun _ =>
    reads (reads_pure _)
  | .pushFromNamed stack => .bind (reads (reads_peekNamed stack)) fun ref =>
    .bind (Account.push ref) fun _ => reads (reads_pure _)
  | .create _ _ =>
    .bind (reads reads_site) fun _ => .bind (reads (reads_ofExcept _)) fun _ =>
      .bind (reads (reads_ofExcept _)) fun made => .bind (idle (keeps_create made)) fun ref =>
        .bind (Account.push ref) fun _ => reads (reads_found ref)
  | .startRules => .bind (reads reads_activeRules) fun active =>
    .bind (account.start active.actions) fun _ => reads (reads_pure _)
  | .finishRules => .bind (reads reads_activeRules) fun active =>
    .bind (account.finish active.actions) fun _ => reads (reads_pure _)
  | .peek => reads ((reads_peekAt 0).bind reads_found)
  | .peekAt n => reads ((reads_peekAt n).bind reads_found)
  | .touchTop type => idle ((reads_peekAt 0).keeps.bind fun top =>
    (reads_expect type top).keeps.bind fun _ => (keeps_put top _).bind fun _ => (reads_found top).keeps)
  | .root => reads (Reads.bind (fun _ _ => rfl) fun ref => (reads_look? ref).bind fun _ => reads_pure _)
  | .rootIsTop => reads ((reads_peekAt 0).bind fun _ => Reads.bind (fun _ _ => rfl) fun _ => reads_pure _)
  | .pushNamed stack o =>
    idle ((keeps_create o).bind fun ref => (keeps_pushNamed stack ref).bind fun _ => (reads_pure _).keeps)
  | .shareNamed stack => idle ((reads_peekAt 0).keeps.bind fun ref =>
    (keeps_pushNamed stack ref).bind fun _ => (reads_pure _).keeps)
  | .popNamed stack => idle ((keeps_popNamed stack).bind fun ref => (reads_found ref).keeps)
  | .peekNamed stack => reads ((reads_peekNamed stack).bind reads_found)
  | .pushParams _ => idle fun _ _ => rfl
  | .popParams => idle (keeps_popParams.bind fun _ => (reads_pure _).keeps)
  | .params => reads (reads_peekParams.bind fun _ => reads_pure _)
  | .setParam index value => idle ((keeps_setParam index value).bind fun _ => (reads_pure _).keeps)
  | .openScope order => idle ((keeps_openOrdered order).bind fun _ _ _ => rfl)
  | .closeScope => idle (keeps_closeScope.bind fun _ => (reads_pure _).keeps)
  | .closeOwned _ => idle ((keeps_closeOwnedScope _).bind fun _ => (reads_pure _).keeps)
  | .matching _ => reads (reads_activeRules.bind fun _ => reads_pure _)
  | .parent => reads (reads_activeRules.bind fun _ => reads_pure _)
  | .raise error => reads (reads_throw error)
  | .size | .namedEmpty _ | .owned _ | .scope | .scopeCount | .baseMatching _ | .path | .depth
  | .resolve _ | .expand _ | .bindingDepth => idle fun _ _ => rfl

end Command
end Accounts

def Journal.Instruction.account {c : Catalogue Journal} (account : c.Account) (self : ActionId)
    (moment : Moment) (i : Instruction) : (i.run c self moment).Account :=
  .bind
    (.tryCatch (.bind (i.command.account account) fun _ => .reads (Step.reads_pure _))
      fun e => .reads (by
        split
        · exact Step.reads_pure _
        · exact Step.reads_throw e))
    fun _ => .idle fun _ _ => rfl

def Journal.accountScripted {c : Catalogue Journal} (account : c.Account) (self : ActionId)
    (name : String) (script : Moment → List Instruction) : (scripted self name script c).Account
  | .start => .forM (Instruction.account account self .starting) (script .starting)
  | .begin _ _ => .forM (Instruction.account account self .beginning) (script .beginning)
  | .segment _ _ => .forM (Instruction.account account self .segment) (script .segment)
  | .body _ _ => .forM (Instruction.account account self .body) (script .body)
  | .ending _ => .forM (Instruction.account account self .ending) (script .ending)
  | .finish => .forM (Instruction.account account self .finishing) (script .finishing)

end XmlRules
