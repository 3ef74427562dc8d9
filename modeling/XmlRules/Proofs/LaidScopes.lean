import XmlRules.Proofs.AttachedMappings
import XmlRules.Proofs.FailedMounts
namespace XmlRules
open Step NestedRules

section Laying
variable (nested : ActionId → Option NestedRules)

-- A scope in the name of an action that nests rules is one that the action has opened on an element:
-- the rules of a set of its own, and no others, matched there.
def Scope.Laid (scope : Scope) : Prop :=
  ∀ id n, nested id = some n → scope.owner = some (.nested id) →
    ∃ m table active, n.table? m.attrs = some table ∧ scope = Mount.scope m id table active

def Workspace.Laid {σ : Type} (ws : Workspace σ) : Prop := ∀ scope ∈ ws.scopes, scope.Laid nested

-- An action of a set of nested rules.
def Enlisted (id : ActionId) : Prop :=
  ∃ owner n attrs table, nested owner = some n ∧ n.table? attrs = some table ∧ id ∈ table.actions

def Callback.Inner {σ : Type} (call : Callback σ) : Prop :=
  call.occasion.element? = none → Enlisted nested call.actor

def Workspace.Spreads {σ : Type} (ws after : Workspace (Logged σ)) : Prop :=
  ws.Laid nested → after.Laid nested ∧ ∃ more : List (Callback σ),
    after.journal.calls = ws.journal.calls ++ more ∧ ∀ call ∈ more, call.Inner nested

def Step.Lays {σ : Type} (step : Step σ Unit) : Prop :=
  step.Moves fun _ ws after => ws.Laid nested → after.Laid nested

-- Apart from those that nest rules, nobody opens a scope in the name of one that does.
def Catalogue.Honest {σ : Type} (own : Catalogue σ) : Prop :=
  ∀ id, nested id = none → ∀ occasion : Occasion, (occasion.answer (own id)).Lays nested

end Laying

section Spreading
variable {σ : Type} {nested : ActionId → Option NestedRules}

theorem Mount.laid_scope {m : Mount} {self : ActionId} {n : NestedRules} {table : RuleTable}
    (nests : nested self = some n) (found : n.table? m.attrs = some table) (active : Registry) :
    (m.scope self table active).Laid nested := by
  intro id other nestsToo owned
  obtain rfl : self = id := by simpa [Mount.scope] using owned
  cases nests.symm.trans nestsToo
  exact ⟨m, table, active, found, rfl⟩

theorem Workspace.Laid.of_subset {ws after : Workspace σ} (laid : ws.Laid nested)
    (part : after.scopes ⊆ ws.scopes) : after.Laid nested :=
  fun scope member => laid scope (part member)

theorem Catalogue.honest_of_still {own : Catalogue σ}
    (still : ∀ id (occasion : Occasion), (occasion.answer (own id)).Still) : own.Honest nested := by
  intro id _ occasion site ws laid
  exact laid.of_subset (by rw [still id occasion site ws]; exact List.Subset.refl _)

theorem Workspace.Spreads.of_same {ws after : Workspace (Logged σ)}
    (part : after.scopes ⊆ ws.scopes) (journal : after.journal = ws.journal) :
    ws.Spreads nested after :=
  fun laid => ⟨laid.of_subset part, [], by simp [journal], by simp⟩

theorem Workspace.Spreads.trans {ws middle after : Workspace (Logged σ)}
    (first : ws.Spreads nested middle) (second : middle.Spreads nested after) :
    ws.Spreads nested after := by
  intro laid
  obtain ⟨between, more, calls, inner⟩ := first laid
  obtain ⟨ends, rest, others, further⟩ := second between
  refine ⟨ends, more ++ rest, by rw [others, calls, List.append_assoc], fun call member => ?_⟩
  exact (List.mem_append.mp member).elim (inner call) (further call)

def Spreading {α : Type} (nested : ActionId → Option NestedRules) (step : Step (Logged σ) α) : Prop :=
  step.Moves fun _ => Workspace.Spreads nested

theorem Step.Reads.spreading {α : Type} {step : Step (Logged σ) α} (reads : step.Reads) :
    Spreading nested step :=
  reads.moves fun _ _ => .of_same (List.Subset.refl _) rfl

theorem Spreading.bind {α β : Type} {step : Step (Logged σ) α} {next : α → Step (Logged σ) β}
    (first : Spreading nested step) (second : ∀ a, Spreading nested (next a)) :
    Spreading nested (step >>= next) :=
  Moves.bind (fun here there => here.trans there) first second

theorem Spreading.tryCatch {α : Type} {step : Step (Logged σ) α}
    {handler : ActionError → Step (Logged σ) α}
    (first : Spreading nested step) (second : ∀ e, Spreading nested (handler e)) :
    Spreading nested (tryCatch step handler) :=
  Moves.tryCatch (fun here there => here.trans there) first second

theorem Spreading.failure? {step : Step (Logged σ) Unit} (spreading : Spreading nested step) :
    Spreading nested (NestedRules.failure? step) :=
  .tryCatch (spreading.bind fun _ => (reads_pure _).spreading) fun _ => (reads_pure _).spreading

theorem spreading_closeOwnedScope (owner : Owner) :
    Spreading nested (closeOwnedScope owner : Step (Logged σ) Scope) := by
  intro site ws
  rw [after_closeOwnedScope]
  exact .of_same List.eraseP_subset rfl

-- What is done with a scope that is taken out may build on what it is.
theorem spreading_closing {self : ActionId} {next : Scope → Step (Logged σ) Unit}
    (each : ∀ scope, scope.Laid nested → scope.owner = some (.nested self) →
      Spreading nested (next scope)) :
    Spreading nested (closeOwnedScope (.nested self) >>= next) := by
  intro site ws laid
  cases found : ws.scopes.find? (ownedHere (.nested self) site.trail.depth) with
  | none =>
    have refused : Step.perform (closeOwnedScope (.nested self) >>= next) site ws =
        (.error (.noRuleScope site.trail.path), ws) := by
      apply Attempt.perform_bind_error
      change Step.perform (closeOwnedScope (.nested self)) site ws = _
      rw [closeOwnedScope, perform_here, found]
      rfl
    rw [refused]
    exact ⟨laid, [], by simp, by simp⟩
  | some scope =>
    have here := List.find?_some found
    simp only [ownedHere, Bool.and_eq_true, decide_eq_true_eq] at here
    rw [perform_next (perform_closeOwnedScope found)]
    exact each scope (laid scope (List.mem_of_find?_eq_some found)) here.1 site _
      (laid.of_subset List.eraseP_subset)

section Nests
variable {c : Catalogue (Logged σ)} {self : ActionId} {n : NestedRules} (nests : nested self = some n)
  (each : ∀ id (occasion : Occasion), (occasion.element? = none → Enlisted nested id) →
    Spreading nested (occasion.answer (c id)))

include each

theorem spreading_forM (occasion : Occasion) (ids : List ActionId)
    (inner : occasion.element? = none → ∀ id ∈ ids, Enlisted nested id) :
    Spreading nested (ids.forM fun id => occasion.answer (c id)) := by
  induction ids with
  | nil => exact (reads_pure ()).spreading
  | cons id ids ih =>
    have first := each id occasion fun lifecycle => inner lifecycle id List.mem_cons_self
    exact first.bind fun _ => ih fun lifecycle other member =>
      inner lifecycle other (List.mem_cons_of_mem _ member)

include nests

theorem spreading_enter (name : QName) (attrs : Attributes) :
    Spreading nested (n.enter self c name attrs) := by
  intro site ws
  cases found : n.table? attrs with
  | none =>
    obtain ⟨e, refused⟩ : ∃ e, ∀ c ws, Step.perform (n.enter self c name attrs) site ws = (.error e, ws) :=
      perform_enter_none found self
    rw [refused c ws]
    exact .of_same (List.Subset.refl _) rfl
  | some table =>
    have started := spreading_forM each .start table.actions fun _ id member =>
      ⟨self, n, attrs, table, nests, found, member⟩
    have begun := spreading_forM each (.begin name attrs) (table.matching site.trail.path) nofun
    have mounted := started.bind fun _ => begun
    rw [perform_enter found]
    intro laid
    obtain ⟨ends, more, calls, inner⟩ := mounted site (withScope self table attrs site ws) (by
      intro scope member
      obtain rfl | older := List.mem_cons.mp member
      · exact Mount.laid_scope nests found _
      · exact laid scope older)
    exact ⟨ends, more, calls, inner⟩

theorem spreading_begin (name : QName) (attrs : Attributes) :
    Spreading nested (n.begin self c name attrs) := by
  refine (spreading_enter nests each name attrs).tryCatch fun e => ?_
  refine (reads_ownedScope? _).spreading.bind fun found => ?_
  dsimp only
  split
  · exact (spreading_closeOwnedScope _).bind fun _ => (reads_throw e).spreading
  · exact (reads_throw e).spreading

theorem spreading_leave (name : QName) : Spreading nested (leave self c name) := by
  refine (reads_mounted self).spreading.bind fun ids => ?_
  have ending := spreading_forM each (.ending name) ids.reverse nofun
  refine (Spreading.failure? ending).bind fun failed => ?_
  refine spreading_closing fun scope laid owned => ?_
  obtain ⟨m, table, active, found, rfl⟩ := laid self n nests owned
  have finishing := spreading_forM each .finish table.actions fun _ id member =>
    ⟨self, n, m.attrs, table, nests, found, member⟩
  refine (Spreading.failure? finishing).bind fun unfinished => ?_
  split
  · exact (reads_throw _).spreading
  · exact (reads_pure _).spreading

theorem spreading_behaviour (occasion : Occasion) :
    Spreading nested (occasion.answer (n.behaviour self c)) := by
  cases occasion with
  | begin name attrs => exact spreading_begin nests each name attrs
  | segment name text =>
    exact (reads_mounted self).spreading.bind fun ids =>
      spreading_forM each (.segment name text) ids nofun
  | body name text =>
    exact (reads_mounted self).spreading.bind fun ids =>
      spreading_forM each (.body name text) ids nofun
  | ending name => exact spreading_leave nests each name
  | start | finish => exact (reads_pure ()).spreading

end Nests

section Levels
variable {own : Catalogue σ} (honest : own.Honest nested)
include honest

theorem spreading_recorded {id : ActionId} (leaf : nested id = none) {occasion : Occasion}
    (inner : occasion.element? = none → Enlisted nested id) :
    Spreading nested (occasion.answer (own.recorded id)) := by
  intro site ws laid
  rw [Catalogue.answer_recorded, perform_recorded]
  exact ⟨honest id leaf occasion site ws.plain laid, _, rfl, by simpa [Callback.Inner] using inner⟩

-- By induction on the depth to which actions nest rules: the calls that an action makes itself stand
-- before its own, which is all that is left when they have been dealt with.
theorem spreading_listed (depth : Nat) (id : ActionId) (occasion : Occasion)
    (inner : occasion.element? = none → Enlisted nested id) :
    Spreading nested (occasion.answer (Catalogue.listed own nested depth id)) := by
  induction depth generalizing id occasion with
  | zero => cases occasion <;> exact (reads_throw .tooDeep).spreading
  | succ depth ih =>
    cases nests : nested id with
    | none =>
      rw [listed_of_leaf own nests]
      exact spreading_recorded honest nests inner
    | some n =>
      intro site ws
      have made := spreading_behaviour nests ih occasion site ws
      rw [listed_of_nested own nests, Behaviour.answer_listed, perform_listed]
      exact made.trans fun laid => ⟨laid, _, rfl, by simpa [Callback.Inner] using inner⟩

omit honest in
theorem perform_lifecycle {n : NestedRules} {occasion : Occasion} (lifecycle : occasion.element? = none)
    (self : ActionId) (c : Catalogue σ) (site : Site) (ws : Workspace σ) :
    Step.perform (occasion.answer (n.behaviour self c)) site ws = (.ok (), ws) := by
  cases occasion with
  | start | finish => rfl
  | begin | segment | body | ending => cases lifecycle

theorem lays_mixed (depth : Nat) (id : ActionId) (occasion : Occasion) :
    (occasion.answer (Catalogue.mixed own nested depth id)).Lays nested := by
  intro site ws laid
  by_cases lifecycle : occasion.element? = none
  · cases depth with
    | zero =>
      cases occasion with
      | start | finish => exact laid
      | begin | segment | body | ending => cases lifecycle
    | succ depth =>
      cases nests : nested id with
      | none =>
        rw [mixed_of_leaf own nests]
        exact honest id nests occasion site ws laid
      | some n =>
        rw [mixed_of_nested own nests, perform_lifecycle lifecycle]
        exact laid
  · have shadow := (Catalogue.shadows_listed own nested depth).answer id occasion site (ws.logged [])
    have made := spreading_listed honest depth id occasion (absurd · lifecycle) site (ws.logged []) laid
    have same : Step.perform (occasion.answer (Catalogue.mixed own nested depth id)) site ws = _ := shadow
    rw [same]
    exact made.1

end Levels

end Spreading

section Documents
variable {σ : Type} {nested : ActionId → Option NestedRules} {c : Catalogue σ} {d : Dispatcher σ}
  {e : Event} {ctx : Context σ}

structure Context.Laid (nested : ActionId → Option NestedRules) (rules : Registry) (ctx : Context σ) :
    Prop where
  rules : ctx.site.rules = rules
  scopes : ctx.work.Laid nested

def Dispatcher.Laid (nested : ActionId → Option NestedRules) (d : Dispatcher σ) : Prop :=
  ∀ ctx, d.progress = .live ctx → ctx.Laid nested d.rules

theorem Dispatcher.laid_of_idle (idle : d.state ≠ .documentStarted) : d.Laid nested :=
  fun _ live => absurd (state_of_live live) idle

theorem Dispatcher.laid_fresh (d : Dispatcher σ) : d.fresh.Laid nested d.rules := by
  refine ⟨rfl, ?_⟩
  change (Dispatcher.freshWork d.initialRoot d.progress.journal).Laid nested
  cases d.initialRoot <;> exact fun scope member => nomatch member

theorem Chain.laid (lays : ∀ id (occasion : Occasion), (occasion.answer (c id)).Lays nested)
    {ws last : Workspace σ} {made : List (Callback σ)} (chain : Chain c ws made last)
    (laid : ws.Laid nested) : last.Laid nested :=
  chain.carries (fun ws after => ws.Laid nested → after.Laid nested) (fun _ => id)
    (fun here there laid => there (here laid))
    (fun call _ => lays call.actor call.occasion call.site call.work) laid

theorem Chain.laid_calls (lays : ∀ id (occasion : Occasion), (occasion.answer (c id)).Lays nested)
    {ws last : Workspace σ} {made : List (Callback σ)} (chain : Chain c ws made last)
    (laid : ws.Laid nested) : ∀ call ∈ made, call.work.Laid nested := by
  induction chain with
  | nil => simp
  | @cons call rest last result later ih =>
    intro other member
    obtain rfl | further := List.mem_cons.mp member
    · exact laid
    · exact ih (lays call.actor call.occasion call.site call.work laid) other further

namespace Event
variable {due : List Duty} {settled : Workspace σ → Progress σ}

theorem Asks.laid (asks : Asks c d e ctx due settled) (laid : d.Laid nested) :
    ctx.Laid nested d.rules := by
  cases asks with
  | startDocument idle => exact d.laid_fresh
  | start live | text live | finish live | endDocument live => exact laid ctx live

theorem Asks.laid_settled (asks : Asks c d e ctx due settled) {rules : Registry}
    (laid : ctx.Laid nested rules) {ws : Workspace σ} (left : ws.Laid nested) {after : Context σ}
    (live : settled ws = .live after) : after.Laid nested rules := by
  cases asks with
  | startDocument idle | start _ name attrs =>
    cases live
    exact ⟨laid.rules, left⟩
  | text _ content =>
    cases live
    obtain ⟨site, frames, work⟩ := ctx
    cases frames <;> exact ⟨laid.rules, left⟩
  | finish _ innermost =>
    cases live
    exact ⟨laid.rules, left.of_subset (List.dropWhile_subset _)⟩
  | endDocument _ closed => cases live

variable (lays : ∀ id (occasion : Occasion), (occasion.answer (c id)).Lays nested)
include lays

theorem laid_run (laid : d.Laid nested) (e : Event) : ((e.run c).perform d).2.Laid nested := by
  intro after live
  rw [(keeps_run e d).rules]
  cases outcome c e d with
  | silent none same => exact laid after (same after live).1
  | @asked ctx due settled ws asks chain verdict part well badly =>
    by_cases ok : ((e.run c).perform d).1 = .ok ()
    · rw [(well ok).2] at live
      have here := asks.laid laid
      exact asks.laid_settled here (chain.laid lays here.scopes) live
    · rw [badly ok] at live
      cases live

theorem laid_callbacks (laid : d.Laid nested) (e : Event) :
    ∀ call ∈ callbacks c [e] d, call.work.Laid nested := by
  cases outcome c e d with
  | silent none same => simp [none]
  | asked asks chain verdict part well badly =>
    exact chain.laid_calls lays (asks.laid laid).scopes

theorem laid_feed (laid : d.Laid nested) (es : List Event) : (feed c es d).2.Laid nested := by
  induction es generalizing d with
  | nil => exact laid
  | cons e es ih => exact ih (laid_run lays laid e)

end Event

end Documents
end XmlRules
