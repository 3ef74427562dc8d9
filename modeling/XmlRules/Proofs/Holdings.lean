import XmlRules.Proofs.CallChain
import XmlRules.Proofs.LeafCalls
namespace XmlRules

theorem Step.ok_of_bind {σ α β : Type} {step : Step σ α} {next : α → Step σ β} {site : Site}
    {ws last : Workspace σ} {b : β} (ran : Step.perform (step >>= next) site ws = (.ok b, last)) :
    ∃ a middle, Step.perform step site ws = (.ok a, middle) ∧
      Step.perform (next a) site middle = (.ok b, last) :=
  Attempt.ok_of_bind ran

theorem Step.error_of_bind {σ α β : Type} {step : Step σ α} {next : α → Step σ β} {site : Site}
    {ws last : Workspace σ} {e : ActionError}
    (failed : Step.perform (step >>= next) site ws = (.error e, last)) :
    Step.perform step site ws = (.error e, last) ∨ ∃ a middle,
      Step.perform step site ws = (.ok a, middle) ∧
        Step.perform (next a) site middle = (.error e, last) :=
  Attempt.error_of_bind failed

def placeBelow (objects : List Ref) (n : Nat) : Except ActionError Ref :=
  match objects[n]? with
  | some ref => .ok ref
  | none => .error (.emptyStack "objects")

-- An action that keeps something on a stack while its element is open.
def StockAction.holds : StockAction → Bool
  | .create _ | .call _ => true
  | .link _ | .param _ | .nested _ => false

-- The same objects and, but for what stands in the innermost frame, the same parameters.
structure Workspace.Level {σ : Type} (ws after : Workspace σ) : Prop where
  objects : after.objects = ws.objects
  sizes : after.params.map List.length = ws.params.map List.length
  lower : after.params.tail = ws.params.tail

namespace Workspace.Level
variable {σ : Type} {ws middle after : Workspace σ}

theorem refl (ws : Workspace σ) : ws.Level ws := ⟨rfl, rfl, rfl⟩

theorem trans (first : ws.Level middle) (second : middle.Level after) : ws.Level after :=
  ⟨second.objects.trans first.objects, second.sizes.trans first.sizes,
    second.lower.trans first.lower⟩

theorem of_same (objects : after.objects = ws.objects) (params : after.params = ws.params) :
    ws.Level after :=
  ⟨objects, by rw [params], by rw [params]⟩

theorem frame (level : ws.Level after) {pushed : ParamFrame} {params : List ParamFrame}
    (top : ws.params = pushed :: params) :
    ∃ frame, after.params = frame :: params ∧ frame.length = pushed.length := by
  have sizes := level.sizes
  have lower := level.lower
  rw [top] at sizes lower
  cases shape : after.params with
  | nil =>
    rw [shape] at sizes
    cases sizes
  | cons frame rest =>
    rw [shape] at sizes lower
    obtain rfl : rest = params := lower
    exact ⟨frame, rfl, (List.cons.inj sizes).1⟩

end Workspace.Level

namespace Step
variable {σ α β : Type}

def Even (step : Step σ α) : Prop := step.Moves fun _ ws after => ws.Level after

theorem Reads.even {step : Step σ α} (reads : step.Reads) : step.Even :=
  reads.moves fun _ ws => .refl ws

theorem even_put (ref : Ref) (o : Object) : (put ref o : Step σ Unit).Even :=
  fun _ _ => ⟨rfl, rfl, rfl⟩

theorem perform_get (next : Workspace σ → Step σ α) (site : Site) (ws : Workspace σ) :
    Step.perform (get >>= next) site ws = Step.perform (next ws) site ws := rfl

theorem perform_setParam {ws : Workspace σ} {frame : ParamFrame} {params : List ParamFrame}
    (top : ws.params = frame :: params) (index : Nat) (value : Option String) (site : Site) :
    Step.perform (setParam index value) site ws = if index < frame.length
      then (.ok true, { ws with params := frame.set index value :: params })
      else (.ok false, ws) := by
  unfold setParam
  rw [perform_get, top]
  dsimp only
  split <;> rfl

theorem even_setParam (index : Nat) (value : Option String) :
    (setParam index value : Step σ Bool).Even := by
  intro site ws
  cases top : ws.params with
  | nil =>
    obtain ⟨store, objects, named, params, scopes, root, journal⟩ := ws
    cases top
    exact .refl _
  | cons frame params =>
    rw [perform_setParam top]
    split
    · refine ⟨rfl, ?_, ?_⟩
      · simp [top]
      · simp [top]
    · exact .refl ws

section Places
variable {site : Site} {ws : Workspace σ}

-- The stack is counted from its bottom, with a number that has been made by an addition of words.
theorem perform_peekAt (n : UInt64) (site : Site) (ws : Workspace σ) :
    Step.perform (peekAt n) site ws =
      (if ws.objects.length < (n + 1).toNat then .error (.emptyStack "objects")
        else match ws.objects.reverse[ws.objects.length - (n + 1).toNat]? with
          | some ref => .ok ref
          | none => .error (.outOfRange (ws.objects.length - (n + 1).toNat) ws.objects.length), ws) := by
  change Step.perform (ite _ _ _) site ws = _
  split
  · rfl
  · cases ws.objects.reverse[ws.objects.length - (n + 1).toNat]? <;> rfl

theorem peekAt_within {n : UInt64} (within : n.toNat + 1 < UInt64.size) :
    Step.perform (peekAt n) site ws = (placeBelow ws.objects n.toNat, ws) := by
  have next : (n + 1).toNat = n.toNat + 1 := by
    rw [UInt64.toNat_add]
    exact Nat.mod_eq_of_lt within
  rw [perform_peekAt, next, placeBelow]
  by_cases short : ws.objects.length < n.toNat + 1
  · rw [if_pos short, List.getElem?_eq_none (by omega)]
  · have place : ws.objects.length - 1 - (ws.objects.length - (n.toNat + 1)) = n.toNat := by omega
    rw [if_neg short, List.getElem?_reverse (by omega), place,
      List.getElem?_eq_getElem (by omega)]

theorem perform_peek (site : Site) (ws : Workspace σ) :
    Step.perform peek site ws = (placeBelow ws.objects 0, ws) :=
  peekAt_within (by decide)

theorem peek_empty {after : Workspace σ} {stack : String}
    (failed : Step.perform peek site ws = (.error (.emptyStack stack), after)) :
    stack = "objects" ∧ ws.objects = [] := by
  rw [perform_peek, placeBelow] at failed
  cases objects : ws.objects with
  | nil =>
    rw [objects] at failed
    cases failed
    exact ⟨rfl, rfl⟩
  | cons ref rest =>
    rw [objects] at failed
    cases failed

end Places

theorem expect_found (type : ObjectType) (ref : Ref) {site : Site} {ws after : Workspace σ}
    {stack : String} :
    Step.perform (expect type ref) site ws ≠ (.error (.emptyStack stack), after) := by
  intro failed
  rcases error_of_bind failed with unseen | ⟨o, _, _, mistyped⟩
  · rcases error_of_bind unseen with other | ⟨_, _, read, absent⟩
    · cases other
    · split at absent <;> cases absent
  · split at mistyped <;> cases mistyped

end Step

section Leaves
open Step
variable {σ : Type}

theorem repeatable_level : Repeatable fun _ (ws after : Workspace σ) => ws.Level after where
  kept := .refl _
  chained here there := here.trans there

theorem Link.even (l : Link) (occasion : Occasion) :
    (occasion.answer (l.behaviour : Behaviour σ)).Even :=
  l.moves repeatable_level even_put occasion

theorem Param.even (p : Param) (occasion : Occasion) :
    (occasion.answer (p.behaviour : Behaviour σ)).Even :=
  p.moves repeatable_level even_setParam occasion

theorem Call.even_body (c : Call) (name : QName) (text : String) :
    ((c.behaviour : Behaviour σ).onBody name text).Even :=
  c.moves_body repeatable_level even_setParam name text

theorem Creation.begin_ok (c : Creation) {name : QName} {attrs : Attributes} {site : Site}
    {ws after : Workspace σ}
    (ran : Step.perform ((c.behaviour : Behaviour σ).onBegin name attrs) site ws =
      (.ok (), after)) :
    ∃ ref, after.objects = ref :: ws.objects ∧ after.params = ws.params := by
  obtain ⟨_, _, read, rest⟩ := ok_of_bind ran
  cases read
  obtain ⟨known, _, resolved, later⟩ := ok_of_bind rest
  obtain rfl := Moves.ran (reads_ofExcept _) resolved
  obtain ⟨made, _, built, pushed⟩ := ok_of_bind later
  obtain rfl := Moves.ran (reads_ofExcept _) built
  cases pushed
  exact ⟨_, rfl, rfl⟩

theorem Creation.end_eq (c : Creation) (name : QName) (site : Site) {ws : Workspace σ} {ref : Ref}
    {objects : List Ref} (top : ws.objects = ref :: objects) :
    Step.perform ((c.behaviour : Behaviour σ).onEnd name) site ws = (.ok (), { ws with objects }) := by
  obtain ⟨store, _, named, params, scopes, root, journal⟩ := ws
  cases top
  rfl

theorem Call.begin_eq (c : Call) (name : QName) (attrs : Attributes) (site : Site)
    (ws : Workspace σ) :
    Step.perform ((c.behaviour : Behaviour σ).onBegin name attrs) site ws =
      (.ok (), { ws with params := List.replicate c.frameSize none :: ws.params }) := rfl

theorem Call.body_ok (c : Call) (name : QName) (text : String) (site : Site) {ws : Workspace σ}
    {frame : ParamFrame} {params : List ParamFrame} (top : ws.params = frame :: params)
    (room : 0 < frame.length) :
    (Step.perform ((c.behaviour : Behaviour σ).onBody name text) site ws).1 = .ok () := by
  change (Step.perform (if c.arity = 0 then _ else _) site ws).1 = _
  split
  · have written := perform_setParam top 0 (some text) site
    rw [if_pos room] at written
    have went := Attempt.perform_bind_ok written fun written => (if !written then
      throw (.outOfRange 0 0) else pure () : Step σ Unit) site
    exact congrArg Prod.fst went
  · rfl

def Call.deliver (c : Call) (frame : ParamFrame) : Step σ Unit := do
  let top ← peek
  let before ← expect c.target top
  let (after, result) := c.invoke before frame
  put top after
  ofExcept result

theorem Call.end_eq (c : Call) (name : QName) (site : Site) {ws : Workspace σ} {frame : ParamFrame}
    {params : List ParamFrame} (top : ws.params = frame :: params) :
    Step.perform ((c.behaviour : Behaviour σ).onEnd name) site ws =
      Step.perform (c.deliver frame) site { ws with params } := by
  obtain ⟨store, objects, named, _, scopes, root, journal⟩ := ws
  cases top
  rfl

def Step.Stores {α : Type} (step : Step σ α) : Prop := step.Moves fun _ ws after =>
  after.objects = ws.objects ∧ after.params = ws.params

theorem Step.Stores.bind {α β : Type} {step : Step σ α} {next : α → Step σ β} (first : step.Stores)
    (second : ∀ a, (next a).Stores) : Stores (step >>= next) :=
  Moves.bind (fun here there => ⟨there.1.trans here.1, there.2.trans here.2⟩) first second

theorem Step.Reads.stores {α : Type} {step : Step σ α} (reads : step.Reads) : step.Stores :=
  reads.moves fun _ _ => ⟨rfl, rfl⟩

theorem Call.deliver_stores (c : Call) (frame : ParamFrame) :
    (c.deliver frame : Step σ Unit).Stores := by
  refine (reads_peekAt 0).stores.bind fun top => ?_
  refine (reads_expect _ _).stores.bind fun before => ?_
  exact Stores.bind (fun _ _ => ⟨rfl, rfl⟩) fun _ => (reads_ofExcept _).stores

theorem Call.deliver_empty (c : Call) (frame : ParamFrame) {site : Site} {ws after : Workspace σ}
    {stack : String}
    (failed : Step.perform (c.deliver frame) site ws = (.error (.emptyStack stack), after)) :
    (stack = "objects" ∧ ws.objects = []) ∨
      ∃ target, (c.invoke target frame).2 = .error (.emptyStack stack) := by
  rcases error_of_bind failed with unseen | ⟨top, _, _, failed⟩
  · exact .inl (peek_empty unseen)
  rcases error_of_bind failed with other | ⟨before, _, _, failed⟩
  · exact (expect_found _ _ other).elim
  rcases error_of_bind failed with other | ⟨_, _, _, failed⟩
  · cases other
  · refine .inr ⟨before, ?_⟩
    cases result : (c.invoke before frame).2 with
    | ok value =>
      rw [result] at failed
      cases failed
    | error e =>
      rw [result] at failed
      cases failed
      rfl

end Leaves

section Holding
open Step
variable {σ : Type} (actions : ActionId → StockAction)

def leafCall (id : ActionId) (occasion : Occasion) (site : Site) (ws : Workspace σ) : Callback σ :=
  ⟨id, occasion, site, ws, (Step.perform (occasion.answer (leaves actions id)) site ws).1⟩

namespace Callback

inductive Took (own : Callback σ) : Prop where
  | object {c : Creation} (creates : actions own.actor = .create c) (ref : Ref)
      (objects : (own.after (leaves actions)).objects = ref :: own.work.objects)
      (params : (own.after (leaves actions)).params = own.work.params)
  | frame {c : Call} (calls : actions own.actor = .call c) (pushed : ParamFrame)
      (filled : 0 < pushed.length)
      (params : (own.after (leaves actions)).params = pushed :: own.work.params)
      (objects : (own.after (leaves actions)).objects = own.work.objects)

-- The beginnings that are still to be ended after a call, the latest first.
def tally (held : List (Callback σ)) (call : Callback σ) : List (Callback σ) :=
  if (actions call.actor).holds then
    match call.occasion with
    | .begin _ _ => call :: held
    | .ending _ => held.tail
    | _ => held
  else held

structure PopsObject (own call : Callback σ) : Prop where
  actor : own.actor = call.actor
  element : own.site.trail = call.site.trail
  well : call.result = .ok ()
  top : ∃ ref, (own.after (leaves actions)).objects = ref :: own.work.objects ∧
    call.work.objects = ref :: own.work.objects
  left : (call.after (leaves actions)).objects = own.work.objects

-- An end that takes the very frame off that a beginning has put there, whatever it holds by now. It
-- finds nothing to call only where there is no object, or says so by itself.
structure PopsFrame (c : Call) (own call : Callback σ) : Prop where
  actor : own.actor = call.actor
  element : own.site.trail = call.site.trail
  top : ∃ pushed frame, (own.after (leaves actions)).params = pushed :: own.work.params ∧
    call.work.params = frame :: own.work.params ∧ frame.length = pushed.length ∧
    ∀ stack, call.result = .error (.emptyStack stack) →
      (stack = "objects" ∧ call.work.objects = []) ∨
        ∃ target, (c.invoke target frame).2 = .error (.emptyStack stack)
  left : (call.after (leaves actions)).params = own.work.params

def Proper (held : List (Callback σ)) (call : Callback σ) : Prop :=
  match actions call.actor, call.occasion with
  | .create _, .ending _ => ∃ own rest, held = own :: rest ∧ own.PopsObject actions call
  | .call c, .ending _ => ∃ own rest, held = own :: rest ∧ own.PopsFrame actions c call
  | .call _, .body _ _ => call.result = .ok ()
  | _, _ => True

end Callback

def unended (calls : List (Callback σ)) : List (Callback σ) := calls.foldl (Callback.tally actions) []

-- The stacks as they were in the beginning, with what some beginnings have put there on top.
def Piled (base : Workspace σ) : List (Callback σ) → Workspace σ → Prop
  | [], ws => base.Level ws
  | own :: rest, ws =>
    own.Took actions ∧ (own.after (leaves actions)).Level ws ∧ Piled base rest own.work

structure Callback.Sound (base : Workspace σ) (held : List (Callback σ)) (call : Callback σ) :
    Prop where
  proper : call.Proper actions held
  piled : call.result = .ok () → Piled actions base (call.tally actions held)
    (call.after (leaves actions))

variable {actions} {base ws after : Workspace σ} {held : List (Callback σ)}

theorem Piled.level (piled : Piled actions base held ws) (level : ws.Level after) :
    Piled actions base held after := by
  cases held with
  | nil => exact piled.trans level
  | cons own rest => exact ⟨piled.1, piled.2.1.trans level, piled.2.2⟩

theorem Piled.same (piled : Piled actions base held ws) (again : Piled actions base held after) :
    after.objects = ws.objects ∧ after.params.length = ws.params.length := by
  have like {origin : Workspace σ} (first : origin.Level ws) (second : origin.Level after) :
      after.objects = ws.objects ∧ after.params.length = ws.params.length := by
    have sizes := congrArg List.length (second.sizes.trans first.sizes.symm)
    rw [List.length_map, List.length_map] at sizes
    exact ⟨second.objects.trans first.objects.symm, sizes⟩
  cases held with
  | nil => exact like piled again
  | cons own rest => exact like piled.2.1 again.2.1

theorem Piled.frame (piled : Piled actions base held ws) {own : Callback σ} (pending : own ∈ held)
    {c : Call} (calls : actions own.actor = .call c) :
    ∃ frame params, ws.params = frame :: params ∧ 0 < frame.length := by
  induction held generalizing ws with
  | nil => cases pending
  | cons first rest ih =>
    obtain ⟨took, level, below⟩ := piled
    have room {pushed : ParamFrame} {params : List ParamFrame} (filled : 0 < pushed.length)
        (top : (first.after (leaves actions)).params = pushed :: params) :
        ∃ frame params, ws.params = frame :: params ∧ 0 < frame.length := by
      obtain ⟨frame, shape, size⟩ := level.frame top
      exact ⟨frame, params, shape, size ▸ filled⟩
    cases took with
    | frame _ pushed filled params objects => exact room filled params
    | object creates ref objects params =>
      rcases List.mem_cons.mp pending with rfl | further
      · cases calls.symm.trans creates
      · obtain ⟨pushed, lower, shape, filled⟩ := ih below further
        exact room filled (params.trans shape)

theorem Callback.tally_calm {call : Callback σ}
    (calm : (actions call.actor).holds → call.occasion.aside) : call.tally actions held = held := by
  unfold tally
  split
  · rename_i holds
    have aside := calm holds
    cases occasion : call.occasion with
    | begin name attrs | ending name =>
      rw [occasion] at aside
      cases aside
    | start | segment | body | finish => rfl
  · rfl

theorem even_leaf {id : ActionId} (leaf : (actions id).nested? = none) {occasion : Occasion}
    (calm : (actions id).holds → occasion.aside) :
    (occasion.answer (leaves actions id : Behaviour σ)).Even := by
  unfold leaves
  cases kind : actions id with
  | nested n =>
    rw [kind] at leaf
    cases leaf
  | link l => exact l.even occasion
  | param p => exact p.even occasion
  | create c =>
    rw [kind] at calm
    cases occasion with
    | begin name attrs | ending name => cases calm rfl
    | start | segment | body | finish => exact (reads_pure ()).even
  | call c =>
    rw [kind] at calm
    cases occasion with
    | begin name attrs | ending name => cases calm rfl
    | body name text => exact c.even_body name text
    | start | segment | finish => exact (reads_pure ()).even

theorem sound_calm {id : ActionId} (leaf : (actions id).nested? = none) {occasion : Occasion}
    (calm : (actions id).holds → occasion.aside) (site : Site) (piled : Piled actions base held ws)
    (proper : (leafCall actions id occasion site ws).Proper actions held) :
    (leafCall actions id occasion site ws).Sound actions base held := by
  refine ⟨proper, fun _ => ?_⟩
  rw [Callback.tally_calm calm]
  exact piled.level (even_leaf leaf calm site ws)

theorem leaves_create {id : ActionId} {c : Creation} (creates : actions id = .create c) :
    (leaves actions id : Behaviour σ) = c.behaviour := by
  rw [leaves, creates]
  rfl

theorem leaves_call {id : ActionId} {c : Call} (calls : actions id = .call c) :
    (leaves actions id : Behaviour σ) = c.behaviour := by
  rw [leaves, calls]
  rfl

theorem Callback.tally_begin {call : Callback σ} (holds : (actions call.actor).holds) {name : QName}
    {attrs : Attributes} (begins : call.occasion = .begin name attrs) :
    call.tally actions held = call :: held := by
  rw [tally, if_pos holds, begins]

theorem Callback.tally_ending {call : Callback σ} (holds : (actions call.actor).holds)
    {name : QName} (ends : call.occasion = .ending name) :
    call.tally actions held = held.tail := by
  rw [tally, if_pos holds, ends]

theorem sound_begin {id : ActionId} (leaf : (actions id).nested? = none) (name : QName)
    (attrs : Attributes) (site : Site) (piled : Piled actions base held ws) :
    (leafCall actions id (.begin name attrs) site ws).Sound actions base held := by
  let call := leafCall actions id (.begin name attrs) site ws
  have proper : call.Proper actions held := by
    unfold Callback.Proper
    cases actions call.actor <;> trivial
  cases kind : actions id with
  | nested n =>
    rw [kind] at leaf
    cases leaf
  | link l | param p => exact sound_calm leaf (by simp [kind, StockAction.holds]) site piled proper
  | create c =>
    refine ⟨proper, fun fine => ?_⟩
    rw [Callback.tally_begin (by simp [leafCall, kind, StockAction.holds]) rfl]
    have ran : Step.perform ((c.behaviour : Behaviour σ).onBegin name attrs) site ws =
        (.ok (), call.after (leaves actions)) := by
      rw [← leaves_create kind]
      exact Prod.ext fine rfl
    obtain ⟨ref, objects, params⟩ := c.begin_ok ran
    exact ⟨.object kind ref objects params, .refl _, piled⟩
  | call c =>
    refine ⟨proper, fun _ => ?_⟩
    rw [Callback.tally_begin (by simp [leafCall, kind, StockAction.holds]) rfl]
    have ran : call.after (leaves actions) =
        { ws with params := List.replicate c.frameSize none :: ws.params } := by
      change (Step.perform ((leaves actions id).onBegin name attrs) site ws).2 = _
      rw [leaves_call kind, c.begin_eq]
    have room : 0 < (List.replicate c.frameSize (none : Option String)).length := by
      rw [List.length_replicate, Call.frameSize]
      omega
    have pushed : (call.after (leaves actions)).params =
        List.replicate c.frameSize none :: ws.params := by rw [ran]
    have kept : (call.after (leaves actions)).objects = ws.objects := by rw [ran]
    exact ⟨.frame kind _ room pushed kept, .refl _, piled⟩

theorem sound_body {id : ActionId} (leaf : (actions id).nested? = none) (name : QName)
    (text : String) (site : Site) (piled : Piled actions base held ws)
    (pending : (actions id).holds → ∃ own ∈ held, own.actor = id) :
    (leafCall actions id (.body name text) site ws).Sound actions base held := by
  refine sound_calm leaf (fun _ => rfl) site piled ?_
  unfold Callback.Proper
  cases kind : actions id with
  | nested n | link l | param p | create c => simp [leafCall, kind]
  | call c =>
    obtain ⟨own, known, rfl⟩ := pending (by rw [kind]; rfl)
    obtain ⟨frame, params, top, room⟩ := piled.frame known kind
    simp only [leafCall, kind]
    rw [show (Occasion.body name text).answer (leaves actions own.actor) =
      (c.behaviour : Behaviour σ).onBody name text by rw [leaves_call kind]; rfl]
    exact c.body_ok name text site top room

-- What is on top of the stack is what has been put there in the beginning, since what has been done
-- to the stack in between has been undone.
theorem sound_ending_create {own : Callback σ} {rest : List (Callback σ)} {c : Creation}
    (kind : actions own.actor = .create c) (name : QName) {site : Site}
    (element : own.site.trail = site.trail) (piled : Piled actions base (own :: rest) ws) :
    (leafCall actions own.actor (.ending name) site ws).Sound actions base (own :: rest) := by
  obtain ⟨took, level, below⟩ := piled
  cases took with
  | frame calls => cases kind.symm.trans calls
  | object creates ref objects params =>
    have top := level.objects.trans objects
    have ran := c.end_eq name site top
    rw [show (c.behaviour : Behaviour σ).onEnd name = (Occasion.ending name).answer
      (leaves actions own.actor) by rw [leaves_create kind]; rfl] at ran
    have after : (leafCall actions own.actor (.ending name) site ws).after (leaves actions) =
        { ws with objects := own.work.objects } := congrArg Prod.snd ran
    have left : ((leafCall actions own.actor (.ending name) site ws).after (leaves actions)).objects =
        own.work.objects := by rw [after]
    refine ⟨?_, fun _ => ?_⟩
    · simp only [Callback.Proper, leafCall, kind]
      exact ⟨own, rest, rfl, rfl, element, congrArg Prod.fst ran, ⟨ref, objects, top⟩, left⟩
    · rw [Callback.tally_ending (by simp [leafCall, kind, StockAction.holds]) rfl, after]
      refine below.level ⟨rfl, ?_, ?_⟩
      · rw [← params]
        exact level.sizes
      · rw [← params]
        exact level.lower

theorem sound_ending_call {own : Callback σ} {rest : List (Callback σ)} {c : Call}
    (kind : actions own.actor = .call c) (name : QName) {site : Site}
    (element : own.site.trail = site.trail) (piled : Piled actions base (own :: rest) ws) :
    (leafCall actions own.actor (.ending name) site ws).Sound actions base (own :: rest) := by
  obtain ⟨took, level, below⟩ := piled
  cases took with
  | object creates => cases kind.symm.trans creates
  | frame calls pushed filled params objects =>
    obtain ⟨frame, top, size⟩ := level.frame params
    have ran := c.end_eq name site top
    rw [show (c.behaviour : Behaviour σ).onEnd name = (Occasion.ending name).answer
      (leaves actions own.actor) by rw [leaves_call kind]; rfl] at ran
    obtain ⟨kept, left⟩ := c.deliver_stores frame site { ws with params := own.work.params }
    rw [← ran] at kept left
    refine ⟨?_, fun _ => ?_⟩
    · simp only [Callback.Proper, leafCall, kind]
      refine ⟨own, rest, rfl, rfl, element, ⟨pushed, frame, params, top, size, ?_⟩, left⟩
      intro stack empty
      have failed : Step.perform (c.deliver frame) site { ws with params := own.work.params } =
          (.error (.emptyStack stack), _) := Prod.ext ((congrArg Prod.fst ran).symm.trans empty) rfl
      exact (c.deliver_empty frame failed :)
    · rw [Callback.tally_ending (by simp [leafCall, kind, StockAction.holds]) rfl]
      exact below.level (.of_same (kept.trans (level.objects.trans objects)) left)

theorem sound_ending {id : ActionId} (leaf : (actions id).nested? = none) (name : QName)
    (site : Site) (piled : Piled actions base held ws)
    (latest : (actions id).holds → ∃ own rest, held = own :: rest ∧ own.actor = id ∧
      own.site.trail = site.trail) :
    (leafCall actions id (.ending name) site ws).Sound actions base held := by
  cases kind : actions id with
  | nested n =>
    rw [kind] at leaf
    cases leaf
  | link l | param p =>
    refine sound_calm leaf (by simp [kind, StockAction.holds]) site piled ?_
    simp [Callback.Proper, leafCall, kind]
  | create c =>
    obtain ⟨own, rest, rfl, rfl, element⟩ := latest (by rw [kind]; rfl)
    exact sound_ending_create kind name element piled
  | call c =>
    obtain ⟨own, rest, rfl, rfl, element⟩ := latest (by rw [kind]; rfl)
    exact sound_ending_call kind name element piled

end Holding
end XmlRules
