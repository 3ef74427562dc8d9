import XmlRules.Proofs.Holdings
namespace XmlRules

-- How a step ends: what holds when it does so well, and what when it fails.
def Attempt.Ends {ε σ α : Type} (step : Attempt ε σ α) (s : σ) (after : α → σ → Prop)
    (failed : σ → Prop) : Prop :=
  (∀ a t, step.perform s = (.ok a, t) → after a t) ∧
    ∀ e t, step.perform s = (.error e, t) → failed t

namespace Attempt.Ends
variable {ε σ α β : Type} {s : σ} {failed : σ → Prop}

theorem bind {step : Attempt ε σ α} {next : α → Attempt ε σ β} {middle : α → σ → Prop}
    {after : β → σ → Prop} (first : Ends step s middle failed)
    (second : ∀ a t, middle a t → Ends (next a) t after failed) :
    Ends (step >>= next) s after failed := by
  unfold Ends
  rw [perform_bind]
  cases run : step.perform s with
  | mk result t =>
    cases result with
    | ok a => exact second a t (first.1 a t run)
    | error e =>
      refine ⟨fun _ _ ran => (nomatch ran), fun _ _ ran => ?_⟩
      cases ran
      exact first.2 e t run

theorem tryCatch {step : Attempt ε σ α} {handler : ε → Attempt ε σ α} {after : α → σ → Prop}
    {caught : σ → Prop} (first : Ends step s after caught)
    (second : ∀ e t, caught t → Ends (handler e) t after failed) :
    Ends (tryCatch step handler) s after failed := by
  unfold Ends
  rw [perform_tryCatch]
  cases run : step.perform s with
  | mk result t =>
    cases result with
    | ok a =>
      refine ⟨fun _ _ ran => ?_, fun _ _ ran => (nomatch ran)⟩
      cases ran
      exact first.1 a t run
    | error e => exact second e t (first.2 e t run)

theorem weaken {step : Attempt ε σ α} {strong weak : α → σ → Prop} (ends : Ends step s strong failed)
    (implied : ∀ a t, strong a t → weak a t) : Ends step s weak failed :=
  ⟨fun a t ran => implied a t (ends.1 a t ran), ends.2⟩

theorem also {step : Attempt ε σ α} {after known : α → σ → Prop} (ends : Ends step s after failed)
    (well : ∀ a t, step.perform s = (.ok a, t) → known a t) :
    Ends step s (fun a t => known a t ∧ after a t) failed :=
  ⟨fun a t ran => ⟨well a t ran, ends.1 a t ran⟩, ends.2⟩

theorem pure {after : α → σ → Prop} {a : α} (holds : after a s) :
    Ends (Pure.pure a : Attempt ε σ α) s after failed := by
  refine ⟨fun b t ran => ?_, fun e t ran => (nomatch ran)⟩
  cases ran
  exact holds

theorem throw {after : α → σ → Prop} (e : ε) (holds : failed s) :
    Ends (MonadExcept.throw e : Attempt ε σ α) s after failed := by
  refine ⟨fun b t ran => (nomatch ran), fun _ t ran => ?_⟩
  cases ran
  exact holds

theorem get {next : σ → Attempt ε σ α} {after : α → σ → Prop} (rest : Ends (next s) s after failed) :
    Ends (MonadState.get >>= next) s after failed := rest

theorem set {t : σ} {next : PUnit → Attempt ε σ α} {after : α → σ → Prop}
    (rest : Ends (next ⟨⟩) t after failed) : Ends (MonadStateOf.set t >>= next) s after failed := rest

end Attempt.Ends

namespace Step
variable {σ α β : Type} {site : Site} {ws : Workspace σ} {failed : Workspace σ → Prop}

def Ends (step : Step σ α) (site : Site) (ws : Workspace σ) (after : α → Workspace σ → Prop)
    (failed : Workspace σ → Prop) : Prop :=
  Attempt.Ends (step site) ws after failed

theorem Ends.bind {step : Step σ α} {next : α → Step σ β} {middle : α → Workspace σ → Prop}
    {after : β → Workspace σ → Prop} (first : step.Ends site ws middle failed)
    (second : ∀ a t, middle a t → (next a).Ends site t after failed) :
    Ends (step >>= next) site ws after failed :=
  Attempt.Ends.bind first second

theorem Ends.tryCatch {step : Step σ α} {handler : ActionError → Step σ α}
    {after : α → Workspace σ → Prop} {caught : Workspace σ → Prop}
    (first : step.Ends site ws after caught)
    (second : ∀ e t, caught t → (handler e).Ends site t after failed) :
    Ends (tryCatch step handler) site ws after failed :=
  Attempt.Ends.tryCatch first second

theorem Ends.weaken {step : Step σ α} {strong weak : α → Workspace σ → Prop}
    (ends : step.Ends site ws strong failed) (implied : ∀ a t, strong a t → weak a t) :
    step.Ends site ws weak failed :=
  Attempt.Ends.weaken ends implied

theorem ends_pure {after : α → Workspace σ → Prop} {a : α} (holds : after a ws) :
    Ends (pure a : Step σ α) site ws after failed :=
  Attempt.Ends.pure holds

theorem ends_throw {after : α → Workspace σ → Prop} (e : ActionError) (holds : failed ws) :
    Ends (throw e : Step σ α) site ws after failed :=
  Attempt.Ends.throw e holds

theorem ends_forM {ids : List ActionId} {callback : ActionId → Step σ Unit}
    {kept : Workspace σ → Prop}
    (each : ∀ id ∈ ids, ∀ t, kept t → (callback id).Ends site t (fun _ => kept) failed)
    (start : kept ws) : Step.Ends (ids.forM callback) site ws (fun _ => kept) failed := by
  induction ids generalizing ws with
  | nil => exact ends_pure start
  | cons id ids ih =>
    refine (each id List.mem_cons_self ws start).bind fun _ t still => ?_
    exact ih (fun other member => each other (List.mem_cons_of_mem _ member)) still

theorem Ends.yielding {step : Step σ α} {before : List Scope} {post : α → List Scope → Prop}
    {after : α → Workspace σ → Prop} (ends : step.Ends site ws after failed)
    (yields : step.Yields site before post) (here : ws.scopes = before) :
    step.Ends site ws (fun a t => post a t.scopes ∧ after a t) failed :=
  Attempt.Ends.also ends fun a t ran => yields ws a t here ran

end Step

section Records
variable {σ : Type} (actions : ActionId → StockAction)

def AllProper (calls : List (Callback σ)) : Prop :=
  ∀ before call later, calls = before ++ call :: later → call.Proper actions (unended actions before)

-- The stacks with what is held, and the record of the calls that have led there.
structure Holding (base : Workspace σ) (held : List (Callback σ)) (ws : Workspace (Logged σ)) :
    Prop where
  piled : Piled actions base held ws.plain
  record : unended actions ws.journal.calls = held
  proper : AllProper actions ws.journal.calls

def Recorded (ws : Workspace (Logged σ)) : Prop := AllProper actions ws.journal.calls

variable {actions} {base : Workspace σ} {held : List (Callback σ)}

theorem allProper_nil : AllProper actions ([] : List (Callback σ)) := by
  intro before call later shape
  simp at shape

theorem forall_split_snoc {α : Type} {property : List α → α → Prop} {items : List α} {item : α}
    (all : ∀ before other later, items = before ++ other :: later → property before other)
    (last : property items item) :
    ∀ before other later, items ++ [item] = before ++ other :: later → property before other := by
  intro before other later shape
  rcases List.eq_nil_or_concat later with rfl | ⟨init, final, rfl⟩
  · obtain ⟨rfl, same⟩ := List.append_inj' shape rfl
    obtain rfl := List.singleton_inj.mp same
    exact last
  · have ends : items ++ [item] = (before ++ other :: init) ++ [final] := by simpa using shape
    exact all before other init (List.append_inj' ends rfl).1

theorem AllProper.snoc {calls : List (Callback σ)} (proper : AllProper actions calls)
    {call : Callback σ} (last : call.Proper actions (unended actions calls)) :
    AllProper actions (calls ++ [call]) :=
  forall_split_snoc proper last

theorem unended_snoc (calls : List (Callback σ)) (call : Callback σ) :
    unended actions (calls ++ [call]) = call.tally actions (unended actions calls) := by
  rw [unended, List.foldl_append]
  rfl

theorem Holding.leaf {site : Site} {ws : Workspace (Logged σ)} (holding : Holding actions base held ws)
    {id : ActionId} (leaf : (actions id).nested? = none) (depth : Nat) (occasion : Occasion)
    (sound : (leafCall actions id occasion site ws.plain).Sound actions base held) :
    Step.Ends (occasion.answer (recordedStock actions (depth + 1) id)) site ws
      (fun _ => Holding actions base
        ((leafCall actions id occasion site ws.plain).tally actions held))
      (Recorded actions) := by
  let call := leafCall actions id occasion site ws.plain
  have proper : AllProper actions (ws.journal.calls ++ [call]) :=
    holding.proper.snoc (holding.record ▸ sound.proper)
  have ran := Step.perform_recorded id occasion (occasion.answer (leaves actions id)) site ws
  rw [← Catalogue.answer_recorded, ← recordedStock_of_leaf leaf depth] at ran
  change _ = (call.result, (call.after (leaves actions)).logged (ws.journal.calls ++ [call])) at ran
  refine ⟨fun a t ended => ?_, fun e t ended => ?_⟩
  · obtain ⟨fine, rfl⟩ := Prod.mk.inj (ran.symm.trans ended)
    refine ⟨sound.piled fine, ?_, proper⟩
    rw [← holding.record]
    exact unended_snoc _ _
  · obtain ⟨_, rfl⟩ := Prod.mk.inj (ran.symm.trans ended)
    exact proper

end Records

def Occasion.idle : Occasion → Bool
  | .start | .segment _ _ | .finish => true
  | .begin _ _ | .body _ _ | .ending _ => false

theorem Occasion.aside_of_idle {occasion : Occasion} (idle : occasion.idle) : occasion.aside := by
  cases occasion with
  | start | segment | finish => rfl
  | begin | body | ending => cases idle

-- At most some scopes have changed and some idle calls been recorded.
structure Workspace.Idle {σ : Type} (ws after : Workspace (Logged σ)) : Prop where
  objects : after.objects = ws.objects
  params : after.params = ws.params
  calls : ∃ more : List (Callback σ), after.journal.calls = ws.journal.calls ++ more ∧
    ∀ call ∈ more, call.occasion.idle

section Idling
open Step NestedRules
variable {σ : Type} {actions : ActionId → StockAction}

theorem Workspace.Idle.trans {ws middle after : Workspace (Logged σ)} (first : ws.Idle middle)
    (second : middle.Idle after) : ws.Idle after := by
  obtain ⟨more, calls, idle⟩ := first.calls
  obtain ⟨rest, others, further⟩ := second.calls
  refine ⟨second.objects.trans first.objects, second.params.trans first.params, more ++ rest, ?_, ?_⟩
  · rw [others, calls, List.append_assoc]
  · intro call member
    rcases List.mem_append.mp member with early | late
    · exact idle call early
    · exact further call late

theorem Workspace.Idle.of_same {ws after : Workspace (Logged σ)} (objects : after.objects = ws.objects)
    (params : after.params = ws.params) (journal : after.journal = ws.journal) : ws.Idle after :=
  ⟨objects, params, [], by rw [journal, List.append_nil], by simp⟩

def Step.Idles {α : Type} (step : Step (Logged σ) α) : Prop :=
  step.Moves fun _ ws after => ws.Idle after

theorem Step.Reads.idles {α : Type} {step : Step (Logged σ) α} (reads : step.Reads) : step.Idles :=
  reads.moves fun _ _ => .of_same rfl rfl rfl

theorem Step.Idles.bind {α β : Type} {step : Step (Logged σ) α} {next : α → Step (Logged σ) β}
    (first : step.Idles) (second : ∀ a, (next a).Idles) : Idles (step >>= next) :=
  Moves.bind (fun here there => here.trans there) first second

theorem Step.idles_forM (ids : List ActionId) {callback : ActionId → Step (Logged σ) Unit}
    (each : ∀ id, (callback id).Idles) : Idles (ids.forM callback) :=
  Moves.forM (.of_same rfl rfl rfl) (fun here there => here.trans there) ids each

theorem Step.idles_openScope (rules : Registry) (mountActions : List ActionId)
    (owner : Option Owner) :
    (openScope rules mountActions owner : Step (Logged σ) Unit).Idles :=
  fun _ _ => .of_same rfl rfl rfl

theorem Step.idles_closeOwnedScope (owner : Owner) :
    (closeOwnedScope owner : Step (Logged σ) Scope).Idles := by
  refine reads_depth.idles.bind fun here => ?_
  apply moves_get
  intro ws site
  split <;> exact .of_same rfl rfl rfl

theorem leaf_idle {id : ActionId} (leaf : (actions id).nested? = none) {occasion : Occasion}
    (idle : occasion.idle) : occasion.answer (leaves actions id : Behaviour σ) = pure () := by
  unfold leaves
  cases kind : actions id with
  | nested n =>
    rw [kind] at leaf
    cases leaf
  | create | link | call | param =>
    cases occasion with
    | start | segment | finish => rfl
    | begin | body | ending => cases idle

theorem idles_stock (actions : ActionId → StockAction) (occasion : Occasion) (idle : occasion.idle)
    (depth : Nat) (id : ActionId) :
    (occasion.answer (recordedStock actions depth id : Behaviour (Logged σ))).Idles := by
  induction depth generalizing id with
  | zero => cases occasion <;> exact (reads_throw .tooDeep).idles
  | succ depth ih =>
    cases leaf : (actions id).nested? with
    | none =>
      intro site ws
      rw [recordedStock_of_leaf leaf, Catalogue.answer_recorded, Step.perform_recorded,
        leaf_idle leaf idle]
      exact ⟨rfl, rfl, _, rfl, by simpa using idle⟩
    | some n =>
      change (occasion.answer ((actions id).recorded id (recordedStock actions depth))).Idles
      rw [StockAction.nested_of_nested? leaf]
      cases occasion with
      | segment name text => exact (reads_mounted id).idles.bind fun ids => idles_forM ids ih
      | start | finish => exact (reads_pure ()).idles
      | begin | body | ending => cases idle

theorem idles_start (actions : ActionId → StockAction) (depth : Nat) (ids : List ActionId) :
    ((recordedStock actions depth).start ids : Step (Logged σ) Unit).Idles :=
  idles_forM ids fun id => idles_stock actions .start rfl depth id

theorem idles_finish (actions : ActionId → StockAction) (depth : Nat) (ids : List ActionId) :
    ((recordedStock actions depth).finish ids : Step (Logged σ) Unit).Idles :=
  idles_forM ids fun id => idles_stock actions .finish rfl depth id

theorem proper_idle {held : List (Callback σ)} {call : Callback σ} (idle : call.occasion.idle) :
    call.Proper actions held := by
  unfold Callback.Proper
  cases occasion : call.occasion with
  | start | segment | finish => cases actions call.actor <;> trivial
  | begin | body | ending =>
    rw [occasion] at idle
    cases idle

theorem tally_idle (held more : List (Callback σ)) (idle : ∀ call ∈ more, call.occasion.idle) :
    more.foldl (Callback.tally actions) held = held := by
  induction more with
  | nil => rfl
  | cons call more ih =>
    rw [List.foldl_cons, Callback.tally_calm fun _ => Occasion.aside_of_idle (idle call (by simp))]
    exact ih fun other member => idle other (List.mem_cons_of_mem _ member)

theorem AllProper.idle {calls more : List (Callback σ)} (proper : AllProper actions calls)
    (idle : ∀ call ∈ more, call.occasion.idle) : AllProper actions (calls ++ more) := by
  induction more using List.reverseRecOn with
  | nil => rwa [List.append_nil]
  | append_singleton more call ih =>
    rw [← List.append_assoc]
    exact (ih fun other member => idle other (List.mem_append_left _ member)).snoc
      (proper_idle (idle call (by simp)))

variable {base : Workspace σ} {held : List (Callback σ)}

theorem Holding.idle {ws after : Workspace (Logged σ)} (holding : Holding actions base held ws)
    (idle : ws.Idle after) : Holding actions base held after := by
  obtain ⟨more, calls, further⟩ := idle.calls
  refine ⟨holding.piled.level (.of_same idle.objects idle.params), ?_, ?_⟩
  · rw [calls, unended, List.foldl_append, tally_idle _ _ further]
    exact holding.record
  · rw [calls]
    exact holding.proper.idle further

theorem Recorded.idle {ws after : Workspace (Logged σ)} (recorded : Recorded actions ws)
    (idle : ws.Idle after) : Recorded actions after := by
  obtain ⟨more, calls, further⟩ := idle.calls
  unfold Recorded
  rw [calls]
  exact AllProper.idle recorded further

theorem Step.Idles.ends {α : Type} {step : Step (Logged σ) α} (idles : step.Idles) {site : Site}
    {ws : Workspace (Logged σ)} (holding : Holding actions base held ws) :
    step.Ends site ws (fun _ => Holding actions base held) (Recorded actions) :=
  ⟨fun _ _ ran => holding.idle (Moves.ran idles ran),
    fun _ _ ran => Recorded.idle holding.proper (Moves.ran idles ran)⟩

theorem Step.Idles.goes_on {α : Type} {step : Step (Logged σ) α} (idles : step.Idles) {site : Site}
    {ws : Workspace (Logged σ)} (recorded : Recorded actions ws) :
    step.Ends site ws (fun _ => Recorded actions) (Recorded actions) :=
  ⟨fun _ _ ran => recorded.idle (Moves.ran idles ran),
    fun _ _ ran => recorded.idle (Moves.ran idles ran)⟩

end Idling

def Callback.holder {σ : Type} (call : Callback σ) : ActionId × Trail := (call.actor, call.site.trail)

section Nested
open Step NestedRules
variable {σ : Type} (actions : ActionId → StockAction)

-- The actions that put something on a stack when an action begins, in the order they do.
def holders (m : Mount) : Nat → ActionId → List ActionId
  | 0, _ => []
  | depth + 1, id =>
    match actions id with
    | .nested n =>
      match n.table? m.attrs with
      | none => []
      | some table => (table.matching m.path).flatMap (holders m depth)
    | action => if action.holds then [id] else []

-- Some actions hold something on top of the rest.
def Grown (base : Workspace σ) (ids : List ActionId) (trail : Trail) (held : List (Callback σ))
    (ws : Workspace (Logged σ)) : Prop :=
  ∃ new : List (Callback σ), new.map Callback.holder = (ids.map (·, trail)).reverse ∧
    Holding actions base (new ++ held) ws

variable {actions} {base : Workspace σ} {held : List (Callback σ)} {site : Site}
  {ws : Workspace (Logged σ)} {m : Mount}

theorem holders_of_leaf {id : ActionId} (leaf : (actions id).nested? = none) (depth : Nat) :
    holders actions m (depth + 1) id = if (actions id).holds then [id] else [] := by
  rw [holders]
  cases kind : actions id with
  | nested n =>
    rw [kind] at leaf
    cases leaf
  | create | link | call | param => rfl

theorem holders_of_table {id : ActionId} {n : NestedRules} {table : RuleTable}
    (nests : (actions id).nested? = some n) (found : n.table? m.attrs = some table) (depth : Nat) :
    holders actions m (depth + 1) id = (table.matching m.path).flatMap (holders actions m depth) := by
  rw [holders, StockAction.nested_of_nested? nests]
  dsimp only
  rw [found]

theorem recordedStock_of_nested {id : ActionId} {n : NestedRules}
    (nests : (actions id).nested? = some n) (depth : Nat) :
    (recordedStock actions (depth + 1) id : Behaviour (Logged σ)) =
      n.behaviour id (recordedStock actions depth) := by
  change (actions id).recorded id _ = _
  rw [StockAction.nested_of_nested? nests]
  rfl

theorem Grown.of_holding {trail : Trail} (holding : Holding actions base held ws) :
    Grown actions base [] trail held ws :=
  ⟨[], rfl, holding⟩

theorem Grown.append {ids more : List ActionId} {trail : Trail} {new : List (Callback σ)}
    (first : new.map Callback.holder = (ids.map (·, trail)).reverse)
    (grown : Grown actions base more trail (new ++ held) ws) :
    Grown actions base (ids ++ more) trail held ws := by
  obtain ⟨upper, second, holding⟩ := grown
  refine ⟨upper ++ new, ?_, by rwa [List.append_assoc]⟩
  rw [List.map_append, first, second, List.map_append, List.reverse_append]

theorem Grown.split {ids more : List ActionId} {trail : Trail}
    (grown : Grown actions base (ids ++ more) trail held ws) :
    ∃ new : List (Callback σ), new.map Callback.holder = (ids.map (·, trail)).reverse ∧
      Grown actions base more trail (new ++ held) ws := by
  obtain ⟨all, same, holding⟩ := grown
  rw [List.map_append, List.reverse_append] at same
  obtain ⟨upper, new, rfl, second, first⟩ := List.map_eq_append_iff.mp same
  exact ⟨new, first, upper, second, by rwa [List.append_assoc] at holding⟩

theorem ends_begin_each {depth : Nat} {name : QName} {attrs : Attributes}
    (single : ∀ (id : ActionId) (held : List (Callback σ)) (ws : Workspace (Logged σ)),
      Holding actions base held ws →
        ((recordedStock actions depth id).onBegin name attrs).Ends site ws
          (fun _ => Grown actions base (holders actions m depth id) site.trail held)
          (Recorded actions))
    (ids : List ActionId) (holding : Holding actions base held ws) :
    Step.Ends (ids.forM fun id => (recordedStock actions depth id).onBegin name attrs) site ws
      (fun _ => Grown actions base (ids.flatMap (holders actions m depth)) site.trail held)
      (Recorded actions) := by
  induction ids generalizing held ws with
  | nil => exact ends_pure (.of_holding holding)
  | cons id ids ih =>
    refine (single id held ws holding).bind fun _ t grown => ?_
    obtain ⟨new, same, held⟩ := grown
    exact (ih held).weaken fun _ _ further => further.append same

theorem Holding.recorded (holding : Holding actions base held ws) : Recorded actions ws :=
  holding.proper

theorem ends_enter {depth : Nat} {name : QName} {attrs : Attributes}
    (single : ∀ (id : ActionId) (held : List (Callback σ)) (ws : Workspace (Logged σ)),
      Holding actions base held ws →
        ((recordedStock actions depth id).onBegin name attrs).Ends site ws
          (fun _ => Grown actions base (holders actions (site.mount attrs) depth id) site.trail held)
          (Recorded actions))
    {id : ActionId} {n : NestedRules} (nests : (actions id).nested? = some n)
    (holding : Holding actions base held ws) :
    (n.enter id (recordedStock actions depth) name attrs).Ends site ws
      (fun _ => Grown actions base (holders actions (site.mount attrs) (depth + 1) id) site.trail held)
      (Recorded actions) := by
  rw [enter_written]
  refine (((reads_ofExcept _).idles.ends holding).yielding (yields_ofExcept _) rfl).bind ?_
  intro set _ chosen
  obtain ⟨⟨selected, _⟩, holding⟩ := chosen
  refine (((reads_install set).idles.ends holding).yielding (yields_install set) rfl).bind ?_
  intro rules _ made
  obtain ⟨⟨table, built, rfl, _⟩, holding⟩ := made
  refine ((reads_path.idles.ends holding).yielding yields_path rfl).bind fun path _ here => ?_
  obtain ⟨⟨rfl, _⟩, holding⟩ := here
  refine ((idles_openScope _ _ _).ends holding).bind fun _ _ holding => ?_
  refine ((idles_start actions depth _).ends holding).bind fun _ _ holding => ?_
  have found : n.table? attrs = some table := by
    simp only [NestedRules.table?, selected, built, Except.toOption]
  rw [holders_of_table nests found]
  exact ends_begin_each single _ holding

theorem ends_begin (depth : Nat) (name : QName) (attrs : Attributes) (id : ActionId)
    (holding : Holding actions base held ws) :
    ((recordedStock actions depth id).onBegin name attrs).Ends site ws
      (fun _ => Grown actions base (holders actions (site.mount attrs) depth id) site.trail held)
      (Recorded actions) := by
  induction depth generalizing id held ws with
  | zero => exact ends_throw .tooDeep holding.recorded
  | succ depth ih =>
    cases nests : (actions id).nested? with
    | none =>
      have ended := holding.leaf nests depth (.begin name attrs)
        (sound_begin nests name attrs site holding.piled)
      refine ended.weaken fun _ t began => ?_
      rw [holders_of_leaf nests]
      cases holds : (actions id).holds with
      | true =>
        rw [Callback.tally_begin holds rfl] at began
        exact ⟨[_], rfl, began⟩
      | false =>
        rw [Callback.tally_calm (by simp [leafCall, holds])] at began
        exact .of_holding began
    | some n =>
      rw [recordedStock_of_nested nests]
      -- When it fails, it fails in the end, whatever becomes of its scope.
      refine (ends_enter (fun id held ws => ih id) nests holding).tryCatch fun e t recorded => ?_
      refine ((reads_ownedScope? _).idles.goes_on recorded).bind fun found _ recorded => ?_
      dsimp only
      split
      · refine ((idles_closeOwnedScope _).goes_on recorded).bind fun _ _ recorded => ?_
        exact ends_throw e recorded
      · exact ends_throw e recorded

theorem ends_begins (depth : Nat) (name : QName) (attrs : Attributes) (ids : List ActionId)
    (site : Site) (holding : Holding actions base held ws) :
    Step.Ends (ids.forM fun id => (recordedStock actions depth id).onBegin name attrs) site ws
      (fun _ => Grown actions base (ids.flatMap (holders actions (site.mount attrs) depth)) site.trail
        held) (Recorded actions) :=
  ends_begin_each (fun id _ _ holding => ends_begin depth name attrs id holding) ids holding

def Mounted (actions : ActionId → StockAction) (m : Mount) (scopes : List Scope) : Prop :=
  ∀ scope ∈ scopes, scope.mountDepth = m.depth →
    Installed (fun id => (actions id).nested?) m scope

theorem holders_of_mounted {scopes : List Scope} (mounted : Mounted actions m scopes)
    {id : ActionId} {scope : Scope}
    (found : scopes.find? (ownedHere (.nested id) m.depth) = some scope) (depth : Nat) :
    holders actions m (depth + 1) id = scope.mountActions.flatMap (holders actions m depth) := by
  have owned := List.find?_some found
  simp only [ownedHere, Bool.and_eq_true, decide_eq_true_eq] at owned
  obtain ⟨owner, n, set, table, nests, selected, built, by_owner, _, _, same⟩ :=
    mounted scope (List.mem_of_find?_eq_some found) owned.2
  obtain rfl : owner = id := Owner.nested.inj (Option.some.inj (by_owner.symm.trans owned.1))
  have table_eq : n.table? m.attrs = some table := by
    simp only [NestedRules.table?, selected, built, Except.toOption]
  rw [holders_of_table nests table_eq, same]

theorem ends_body_each {depth : Nat} {name : QName} {text : String}
    (single : ∀ (id : ActionId) (ws : Workspace (Logged σ)), Mounted actions m ws.scopes →
      Holding actions base held ws →
        (∀ holder ∈ holders actions m depth id, ∃ own ∈ held, own.actor = holder) →
          ((recordedStock actions depth id).onBody name text).Ends site ws
            (fun _ t => t.scopes = ws.scopes ∧ Holding actions base held t) (Recorded actions))
    (ids : List ActionId) (mounted : Mounted actions m ws.scopes)
    (holding : Holding actions base held ws)
    (pending : ∀ holder ∈ ids.flatMap (holders actions m depth), ∃ own ∈ held, own.actor = holder) :
    Step.Ends (ids.forM fun id => (recordedStock actions depth id).onBody name text) site ws
      (fun _ t => t.scopes = ws.scopes ∧ Holding actions base held t) (Recorded actions) := by
  refine ends_forM (fun id known t now => ?_) ⟨rfl, holding⟩
  have ended := single id t (now.1 ▸ mounted) now.2 fun holder member =>
    pending holder (List.mem_flatMap.mpr ⟨id, known, member⟩)
  exact ended.weaken fun _ _ after => ⟨after.1.trans now.1, after.2⟩

theorem ends_body (here : m.depth = site.trail.depth) (depth : Nat) (name : QName) (text : String)
    (id : ActionId) (mounted : Mounted actions m ws.scopes) (holding : Holding actions base held ws)
    (pending : ∀ holder ∈ holders actions m depth id, ∃ own ∈ held, own.actor = holder) :
    ((recordedStock actions depth id).onBody name text).Ends site ws
      (fun _ t => t.scopes = ws.scopes ∧ Holding actions base held t) (Recorded actions) := by
  induction depth generalizing id ws with
  | zero => exact ends_throw .tooDeep holding.recorded
  | succ depth ih =>
    cases nests : (actions id).nested? with
    | none =>
      rw [holders_of_leaf nests] at pending
      have ended := holding.leaf nests depth (.body name text)
        (sound_body nests name text site holding.piled fun holds => pending id (by simp [holds]))
      rw [Callback.tally_calm fun _ => rfl] at ended
      exact ended.yielding ((nesting_recorded actions).quiet_aside (.body name text) rfl _ id _ _) rfl
    | some n =>
      rw [recordedStock_of_nested nests]
      refine (((reads_mounted id).idles.ends holding).yielding (yields_mounted id) rfl).bind ?_
      intro ids t known
      obtain ⟨⟨⟨scope, found, rfl⟩, same⟩, holding⟩ := known
      rw [← here] at found
      rw [holders_of_mounted mounted found] at pending
      rw [← same] at mounted ⊢
      exact ends_body_each (fun id _ => ih id) scope.mountActions mounted holding pending

-- Ended in reverse order, every action finds what it holds on top.
theorem ends_ending_each {opens : ActionId → Registry → List Scope} {fits : ActionId → Prop}
    {under : Registry} {depth : Nat} {name : QName}
    (single : ∀ (id : ActionId) (active : Registry) (below : List Scope) (held : List (Callback σ))
      (ws : Workspace (Logged σ)), fits id → ws.scopes = opens id active ++ below →
        Grown actions base (holders actions m depth id) site.trail held ws →
          ((recordedStock actions depth id).onEnd name).Ends site ws
            (fun _ t => t.scopes = below ∧ Holding actions base held t) (Recorded actions))
    (ids : List ActionId) (fit : ∀ id ∈ ids, fits id) (scopes below : List Scope)
    (lying : ws.scopes = stacked opens under ids scopes ++ below)
    (grown : Grown actions base (ids.flatMap (holders actions m depth)) site.trail held ws) :
    Step.Ends (ids.reverse.forM fun id => (recordedStock actions depth id).onEnd name) site ws
      (fun _ t => t.scopes = scopes ++ below ∧ Holding actions base held t) (Recorded actions) := by
  induction ids using List.reverseRecOn generalizing ws with
  | nil =>
    obtain ⟨new, same, holding⟩ := grown
    obtain rfl := List.map_eq_nil_iff.mp same
    exact ends_pure ⟨lying, holding⟩
  | append_singleton ids id ih =>
    rw [List.flatMap_append, List.flatMap_singleton] at grown
    obtain ⟨new, same, grown⟩ := grown.split
    rw [stacked_snoc, List.append_assoc] at lying
    rw [List.reverse_append]
    refine (single id _ _ _ ws (fit id (by simp)) lying grown).bind fun _ t closed => ?_
    exact ih (fun other member => fit other (List.mem_append_left _ member)) closed.1
      ⟨new, same, closed.2⟩

theorem ends_failure? {step : Step (Logged σ) Unit} {after : Unit → Workspace (Logged σ) → Prop}
    {failed : Workspace (Logged σ) → Prop} (ends : step.Ends site ws after failed) :
    (failure? step).Ends site ws
      (fun result t => (result = none ∧ after () t) ∨ (∃ e, result = some e) ∧ failed t) failed := by
  refine Ends.tryCatch ?_ fun e t recorded => ends_pure (.inr ⟨⟨e, rfl⟩, recorded⟩)
  exact ends.bind fun _ t fine => ends_pure (.inl ⟨rfl, fine⟩)

theorem ends_ending_leaf {id : ActionId} (leaf : (actions id).nested? = none) (depth : Nat)
    (name : QName)
    (grown : Grown actions base (if (actions id).holds then [id] else []) site.trail held ws) :
    ((recordedStock actions (depth + 1) id).onEnd name).Ends site ws
      (fun _ => Holding actions base held) (Recorded actions) := by
  obtain ⟨new, same, holding⟩ := grown
  cases holds : (actions id).holds with
  | true =>
    rw [if_pos holds] at same
    obtain ⟨own, rfl, holder⟩ := List.map_eq_singleton_iff.mp same
    obtain ⟨actor, element⟩ := Prod.mk.inj holder
    have ended := holding.leaf leaf depth (.ending name) (sound_ending leaf name site holding.piled
      fun _ => ⟨own, held, rfl, actor, element⟩)
    rwa [Callback.tally_ending holds rfl] at ended
  | false =>
    rw [if_neg (by simp [holds])] at same
    obtain rfl := List.map_eq_nil_iff.mp same
    have ended := holding.leaf leaf depth (.ending name) (sound_ending leaf name site holding.piled
      fun held => by simp [holds] at held)
    rwa [Callback.tally_calm (by simp [leafCall, holds])] at ended

theorem ends_ending (here : m.depth = site.trail.depth) (depth : Nat) (name : QName) (id : ActionId)
    (active : Registry) (below : List Scope)
    (fits : Fits (fun id => (actions id).nested?) m depth id)
    (lying : ws.scopes = opened (fun id => (actions id).nested?) m depth id active ++ below)
    (grown : Grown actions base (holders actions m depth id) site.trail held ws) :
    ((recordedStock actions depth id).onEnd name).Ends site ws
      (fun _ t => t.scopes = below ∧ Holding actions base held t) (Recorded actions) := by
  induction depth generalizing id active below held ws with
  | zero => cases fits
  | succ depth ih =>
    suffices ends : ((recordedStock actions (depth + 1) id).onEnd name).Ends site ws
        (fun _ => Holding actions base held) (Recorded actions) from
      ends.yielding ((nesting_recorded actions).yields_end here (depth + 1) name id active below fits)
        lying
    cases nests : (actions id).nested? with
    | none =>
      rw [holders_of_leaf nests] at grown
      exact ends_ending_leaf nests depth name grown
    | some n =>
      obtain ⟨table, found, inside⟩ := fits n nests
      have own := fits.find?_own nests found active below
      rw [← lying, here] at own
      rw [opened_of_table nests found] at lying
      rw [holders_of_table nests found] at grown
      rw [recordedStock_of_nested nests]
      obtain ⟨new, same, holding⟩ := grown
      refine (((reads_mounted id).idles.ends holding).yielding (yields_mounted id) rfl).bind ?_
      intro ids t mounted
      obtain ⟨⟨⟨scope, search, rfl⟩, kept⟩, holding⟩ := mounted
      cases own.symm.trans search
      have ended := ends_ending_each (fun id active below held ws => ih id active below)
        (table.matching m.path) inside [m.scope id table active] below (kept.trans lying)
        ⟨new, same, holding⟩
      refine (ends_failure? ended).bind fun failed t outcome => ?_
      rcases outcome with ⟨rfl, -, holding⟩ | ⟨⟨e, rfl⟩, recorded⟩
      · refine ((idles_closeOwnedScope _).ends holding).bind fun scope _ holding => ?_
        refine (ends_failure? ((idles_finish actions depth _).ends holding)).bind ?_
        intro unfinished _ outcome
        rcases outcome with ⟨rfl, holding⟩ | ⟨⟨e, rfl⟩, recorded⟩
        · exact ends_pure holding
        · exact ends_throw e recorded
      -- The scope is closed all the same, but the error comes out.
      · refine ((idles_closeOwnedScope _).goes_on recorded).bind fun scope _ recorded => ?_
        refine (ends_failure? ((idles_finish actions depth _).goes_on recorded)).bind ?_
        intro unfinished _ outcome
        exact ends_throw e (outcome.elim And.right And.right)

end Nested
end XmlRules
