import XmlRules.Proofs.StockScopes
namespace XmlRules

namespace Step
variable {τ σ α β : Type} {view : τ → σ}

-- A step on a richer journal that shows, wherever it runs, what another step does by itself.
def Shadows (view : τ → σ) (step : Step τ α) (own : Step σ α) : Prop :=
  ∀ site ws, Attempt.Shadows (Workspace.viewed view) (step site) (own site) ws

theorem Shadows.bind {step : Step τ α} {own : Step σ α} {next : α → Step τ β}
    {after : α → Step σ β} (first : Shadows view step own)
    (second : ∀ a, Shadows view (next a) (after a)) : Shadows view (step >>= next) (own >>= after) :=
  fun site ws => (first site ws).bind fun a t => second a site t

theorem Shadows.tryCatch {step : Step τ α} {own : Step σ α} {handler : ActionError → Step τ α}
    {instead : ActionError → Step σ α} (first : Shadows view step own)
    (second : ∀ e, Shadows view (handler e) (instead e)) :
    Shadows view (tryCatch step handler) (tryCatch own instead) := by
  intro site ws
  have rich := Attempt.perform_tryCatch (step site) (fun e => handler e site) ws
  have plain := Attempt.perform_tryCatch (own site) (fun e => instead e site) (ws.viewed view)
  have here := first site ws
  unfold Attempt.Shadows at here ⊢
  rw [here] at plain
  cases run : (step site).perform ws with
  | mk result t =>
    rw [run] at rich plain
    cases result with
    | ok a =>
      dsimp only at rich plain
      exact plain.trans (congrArg (fun ran => (ran.1, Workspace.viewed view ran.2)) rich.symm)
    | error e =>
      dsimp only at rich plain
      refine plain.trans ((second e site t).trans ?_)
      exact congrArg (fun ran => (ran.1, Workspace.viewed view ran.2)) rich.symm

theorem shadows_pure (a : α) : Shadows view (pure a : Step τ α) (pure a) := fun _ _ => rfl

theorem shadows_throw (e : ActionError) : Shadows view (throw e : Step τ α) (throw e) :=
  fun _ _ => rfl

theorem shadows_ofExcept (result : Except ActionError α) :
    Shadows view (ofExcept result : Step τ α) (ofExcept result) := by
  cases result with
  | ok a => exact shadows_pure a
  | error e => exact shadows_throw e

theorem shadows_forM {γ : Type} (items : List γ) {callback : γ → Step τ Unit}
    {other : γ → Step σ Unit} (same : ∀ item, Shadows view (callback item) (other item)) :
    Shadows view (items.forM callback) (items.forM other) := by
  induction items with
  | nil => exact shadows_pure ()
  | cons item items ih => exact (same item).bind fun _ => ih

theorem shadows_path : Shadows view (path : Step τ String) path := fun _ _ => rfl

theorem shadows_activeRules : Shadows view (activeRules : Step τ Registry) activeRules := by
  intro site ws
  obtain ⟨store, objects, named, params, scopes, root, journal⟩ := ws
  cases scopes <;> rfl

theorem shadows_openScope (rules : Registry) (mountActions : List ActionId) (owner : Option Owner) :
    Shadows view (openScope rules mountActions owner : Step τ Unit)
      (openScope rules mountActions owner) := fun _ _ => rfl

theorem shadows_ownedScope? (owner : Owner) :
    Shadows view (ownedScope? owner : Step τ (Option Scope)) (ownedScope? owner) := fun _ _ => rfl

theorem shadows_here {next : Nat → Workspace τ → Step τ α} {after : Nat → Workspace σ → Step σ α}
    (rest : ∀ site ws, Attempt.Shadows (Workspace.viewed view) (next site.trail.depth ws site)
      (after site.trail.depth (ws.viewed view) site) ws) :
    Shadows view
      (do
        let here ← depth
        let ws ← get
        next here ws)
      (do
        let here ← depth
        let ws ← get
        after here ws) := rest

theorem shadows_closeOwnedScope (owner : Owner) :
    Shadows view (closeOwnedScope owner : Step τ Scope) (closeOwnedScope owner) := by
  apply shadows_here
  intro site ws
  rw [show (ws.viewed view).scopes = ws.scopes from rfl]
  cases ws.scopes.find? (ownedHere owner site.trail.depth) <;> rfl

end Step

namespace NestedRules
open Step
variable {τ σ : Type} {view : τ → σ} {rich : Catalogue τ} {own : Catalogue σ}

theorem shadows_each (same : Catalogue.Shadows view rich own) (occasion : Occasion)
    (ids : List ActionId) :
    Shadows view (ids.forM fun id => occasion.answer (rich id))
      (ids.forM fun id => occasion.answer (own id)) :=
  shadows_forM ids fun id site ws => same.answer id occasion site ws

theorem shadows_mounted (self : ActionId) :
    Shadows view (mounted self : Step τ (List ActionId)) (mounted self) := by
  refine (shadows_ownedScope? _).bind fun found => ?_
  cases found with
  | none => exact shadows_path.bind fun _ => shadows_throw _
  | some scope => exact shadows_pure _

theorem shadows_install (set : List Registration) :
    Shadows view (install set : Step τ Registry) (install set) := by
  unfold install
  split
  · exact shadows_throw _
  · exact shadows_activeRules.bind fun _ => shadows_path.bind fun _ => shadows_pure _

theorem shadows_enter (same : Catalogue.Shadows view rich own) (n : NestedRules) (self : ActionId)
    (name : QName) (attrs : Attributes) :
    Shadows view (n.enter self rich name attrs) (n.enter self own name attrs) := by
  rw [enter_written, enter_written]
  refine (shadows_ofExcept _).bind fun set => ?_
  refine (shadows_install set).bind fun rules => ?_
  refine shadows_path.bind fun path => ?_
  refine (shadows_openScope _ _ _).bind fun _ => ?_
  refine Shadows.bind (fun site ws => same.start rules.actions site ws) fun _ => ?_
  exact shadows_each same (.begin name attrs) _

theorem shadows_begin (same : Catalogue.Shadows view rich own) (n : NestedRules) (self : ActionId)
    (name : QName) (attrs : Attributes) :
    Shadows view (n.begin self rich name attrs) (n.begin self own name attrs) := by
  refine (shadows_enter same n self name attrs).tryCatch fun e => ?_
  refine (shadows_ownedScope? _).bind fun found => ?_
  cases found with
  | none => exact shadows_throw e
  | some scope => exact (shadows_closeOwnedScope _).bind fun _ => shadows_throw e

theorem shadows_failure? {step : Step τ Unit} {alone : Step σ Unit}
    (same : Shadows view step alone) : Shadows view (failure? step) (failure? alone) :=
  Shadows.tryCatch (same.bind fun _ => shadows_pure _) fun _ => shadows_pure _

theorem shadows_leave (same : Catalogue.Shadows view rich own) (self : ActionId) (name : QName) :
    Shadows view (leave self rich name) (leave self own name) := by
  refine (shadows_mounted self).bind fun ids => ?_
  refine (shadows_failure? (shadows_each same (.ending name) _)).bind fun failed => ?_
  refine (shadows_closeOwnedScope _).bind fun scope => ?_
  refine (shadows_failure? fun site ws => same.finish scope.rules.actions site ws).bind ?_
  intro unfinished
  cases failed.or unfinished with
  | none => exact shadows_pure ()
  | some e => exact shadows_throw e

theorem shadows_behaviour (same : Catalogue.Shadows view rich own) (n : NestedRules)
    (self : ActionId) (occasion : Occasion) :
    Shadows view (occasion.answer (n.behaviour self rich)) (occasion.answer (n.behaviour self own)) := by
  cases occasion with
  | begin name attrs => exact shadows_begin same n self name attrs
  | segment name text =>
    exact (shadows_mounted self).bind fun ids => shadows_each same (.segment name text) ids
  | body name text =>
    exact (shadows_mounted self).bind fun ids => shadows_each same (.body name text) ids
  | ending name => exact shadows_leave same self name
  | start | finish => exact shadows_pure ()

end NestedRules

section Leaves
open Step
variable {σ : Type}

-- What an action does itself. Those that nest rules only have others do something.
def StockAction.leaf (self : ActionId) (action : StockAction) : Behaviour σ :=
  action.definition self fun _ => .exhausted

variable (actions : ActionId → StockAction)

def leaves : Catalogue σ := fun id => (actions id).leaf id

def StockAction.recorded (self : ActionId) : StockAction → Definition (Logged σ)
  | .nested n => n.behaviour self
  | action => fun _ => Catalogue.recorded (fun _ => action.leaf self) self

def stock (depth : Nat) : Catalogue σ := Catalogue.tie (fun id => (actions id).definition id) depth

def recordedStock (depth : Nat) : Catalogue (Logged σ) :=
  Catalogue.tie (fun id => (actions id).recorded id) depth

variable {actions}

theorem recordedStock_of_leaf {id : ActionId} (leaf : (actions id).nested? = none) (depth : Nat) :
    (recordedStock actions (depth + 1) id : Behaviour (Logged σ)) =
      (leaves actions).recorded id := by
  have alone : (leaves actions).recorded id =
      Catalogue.recorded (fun _ => (actions id).leaf id : Catalogue σ) id := by
    unfold Catalogue.recorded leaves
    rfl
  rw [alone]
  change (actions id).recorded id _ = _
  cases kind : actions id with
  | nested n =>
    rw [kind] at leaf
    cases leaf
  | create | link | call | param => rfl

theorem stock_of_leaf {id : ActionId} (leaf : (actions id).nested? = none) (depth : Nat) :
    (stock actions (depth + 1) id : Behaviour σ) = leaves actions id := by
  change (actions id).definition id _ = (actions id).leaf id
  cases kind : actions id with
  | nested n =>
    rw [kind] at leaf
    cases leaf
  | create | link | call | param => rfl

theorem StockAction.still_leaf {id : ActionId} {action : StockAction} (leaf : action.nested? = none)
    (occasion : Occasion) : (occasion.answer (action.leaf id : Behaviour σ)).Still := by
  cases action with
  | create c => exact c.still occasion
  | link l => exact l.still occasion
  | call c => exact c.still occasion
  | param p => exact p.still occasion
  | nested n => cases leaf

theorem shadows_stock (actions : ActionId → StockAction) (depth : Nat) :
    Catalogue.Shadows Logged.own (recordedStock actions depth) (stock actions depth : Catalogue σ) := by
  induction depth with
  | zero => exact ⟨fun _ => rfl, fun _ occasion _ _ => by cases occasion <;> rfl⟩
  | succ depth ih =>
    refine ⟨fun id => ?_, fun id occasion site ws => ?_⟩
    · change ((actions id).recorded id _).name = ((actions id).definition id _).name
      cases actions id <;> rfl
    · cases leaf : (actions id).nested? with
      | none =>
        rw [recordedStock_of_leaf leaf, stock_of_leaf leaf, Catalogue.answer_recorded]
        exact Step.shadows_recorded id occasion _ site ws
      | some n =>
        obtain kind : actions id = .nested n := StockAction.nested_of_nested? leaf
        change Attempt.Shadows _ (occasion.answer ((actions id).recorded id _) site)
          (occasion.answer ((actions id).definition id _) site) ws
        rw [kind]
        exact NestedRules.shadows_behaviour ih n id occasion site ws

theorem nesting_recorded (actions : ActionId → StockAction) :
    Nesting (fun id => (actions id).recorded id : ActionId → Definition (Logged σ))
      fun id => (actions id).nested? := by
  refine ⟨?_, ?_⟩
  · intro id n nests
    rw [StockAction.nested_of_nested? nests]
    rfl
  · intro id leaf depth occasion
    cases depth with
    | zero => cases occasion <;> exact quiet_throw .tooDeep
    | succ depth =>
      change (occasion.answer (recordedStock actions (depth + 1) id)).Quiet
      rw [recordedStock_of_leaf leaf, Catalogue.answer_recorded]
      refine Still.quiet fun site ws => ?_
      rw [perform_recorded]
      exact StockAction.still_leaf leaf occasion site ws.plain

-- What the actions do themselves in a sequence of events, one call after the other.
def Event.leafCalls (actions : ActionId → StockAction) (depth : Nat) (es : List Event)
    (d : Dispatcher σ) : List (Callback σ) :=
  (feed (recordedStock actions depth) es d.logging).2.progress.journal.calls

theorem Event.perform_stock (actions : ActionId → StockAction) (depth : Nat) (e : Event)
    (d : Dispatcher (Logged σ)) : (e.run (stock actions depth)).perform d.plain =
      (((e.run (recordedStock actions depth)).perform d).1,
        ((e.run (recordedStock actions depth)).perform d).2.plain) := by
  rw [Dispatcher.plain_eq, Dispatcher.plain_eq]
  exact Dispatcher.shadows_run (shadows_stock actions depth) e d

theorem Event.feed_stock (actions : ActionId → StockAction) (depth : Nat) (es : List Event)
    (d : Dispatcher (Logged σ)) : feed (stock actions depth) es d.plain =
      ((feed (recordedStock actions depth) es d).1,
        (feed (recordedStock actions depth) es d).2.plain) := by
  rw [Dispatcher.plain_eq, Dispatcher.plain_eq]
  exact feed_viewed (shadows_stock actions depth) es d

end Leaves
end XmlRules
