import XmlRules.Proofs.Traversal
namespace XmlRules

-- A dispatcher whose state, document and root stand side by side: nothing ties them together but what
-- its own steps do with them. The objects and the journal are those that the last document has left.
structure Loose (σ : Type) where
  rules : Registry
  factory : Factory
  trims : Bool
  pending : List (String × String)
  initialRoot : Option Object
  state : DispatchState
  context? : Option (Context σ)
  root? : Option Ref
  store : Store
  journal : σ

namespace Loose

inductive Fault where
  | error (e : DispatchError)
  | noContext

def said : Except DispatchError Unit → Except Fault Unit
  | .ok () => .ok ()
  | .error e => .error (.error e)

variable {σ : Type}

def ongoing : Attempt Fault (Loose σ) (Context σ) := do
  let l ← get
  match l.state with
  | .documentStarted =>
    match l.context? with
    | some ctx => return ctx
    | none => throw .noContext
  | .aborted => throw (.error (.internal .aborted))
  | _ => throw (.error (.internal .notStarted))

-- The document is dropped. Its objects and the journal are not its own.
def release (l : Loose σ) : Loose σ :=
  match l.context? with
  | some ctx => { l with context? := none, store := ctx.work.store, journal := ctx.work.journal }
  | none => l

def finishStep (result : Except DispatchError Unit) : Attempt Fault (Loose σ) Unit :=
  match result with
  | .ok () => return ()
  | .error e => do
    modify fun l => { l.release with state := .aborted }
    throw (.error e)

def proceed (step : ContextM σ Unit) : Attempt Fault (Loose σ) Unit := do
  let ctx ← ongoing
  let (result, after) := step.perform ctx
  modify fun l => { l with context? := some after }
  finishStep result

def fresh (l : Loose σ) : Context σ where
  site := { rules := l.rules, factory := l.factory }
  work := Dispatcher.freshWork l.initialRoot l.journal

-- The state is set before the rules are started, the document only when they have been.
def startDocument (c : Catalogue σ) : Attempt Fault (Loose σ) Unit := do
  let l ← get
  if l.state = .documentStarted then throw (.error (.internal .alreadyStarted))
  set { l with initialRoot := none, root? := none, pending := [], state := .documentStarted }
  let (result, after) :=
    (Context.perform (.lifecycle .startParse) (c.start l.rules.actions)).perform l.fresh
  modify fun l => { l with context? := some after }
  finishStep result

def endDocument (c : Catalogue σ) : Attempt Fault (Loose σ) Unit := do
  let ctx ← ongoing
  if 0 < ctx.depth then finishStep (.error (.internal (.stillOpen ctx.path)))
  else
    let (result, after) :=
      (Context.perform (.lifecycle .finishParse) (c.finish ctx.site.rules.actions)).perform ctx
    modify fun l => { l with context? := some after }
    match result with
    | .ok () => modify fun l => { l.release with root? := after.work.root, state := .documentEnded }
    | .error _ => pure ()
    finishStep result

def abort (l : Loose σ) : Loose σ :=
  match l.state with
  | .documentStarted => { l.release with state := .aborted }
  | _ => l

def run (c : Catalogue σ) : Event → Attempt Fault (Loose σ) Unit
  | .startDocument => startDocument c
  | .declare label uri => modify fun l => { l with pending := l.pending ++ [(label, uri)] }
  | .start name attrs => do
    let declared := (← get).pending
    modify fun l => { l with pending := [] }
    proceed (Context.openElement c name attrs declared)
  | .text content => proceed (modify (·.addText content))
  | .finish name => do
    let trims := (← get).trims
    proceed (Context.closeElement c trims name)
  | .endDocument => endDocument c
  | .setRoot object => modify fun l => { l with initialRoot := some object }
  | .takeRoot => modify fun l => { l with root? := none }
  | .abort => modify abort

def feed (c : Catalogue σ) : List Event → Loose σ → List (Except Fault Unit) × Loose σ
  | [], l => ([], l)
  | e :: es, l =>
    let (answer, next) := (run c e).perform l
    let (answers, last) := feed c es next
    (answer :: answers, last)

-- The parts are those of a dispatcher. What an earlier document has left does not matter as long as
-- one is in progress.
structure Shows (l : Loose σ) (d : Dispatcher σ) : Prop where
  rules : l.rules = d.rules
  factory : l.factory = d.factory
  trims : l.trims = d.trims
  pending : l.pending = d.pending
  initialRoot : l.initialRoot = d.initialRoot
  state : l.state = d.state
  context? : l.context? = d.context?
  root? : l.root? = d.root?
  left : d.state ≠ .documentStarted → l.store = d.progress.store ∧ l.journal = d.progress.journal

end Loose

def Dispatcher.parts {σ : Type} (d : Dispatcher σ) : Loose σ where
  rules := d.rules
  factory := d.factory
  trims := d.trims
  pending := d.pending
  initialRoot := d.initialRoot
  state := d.state
  context? := d.context?
  root? := d.root?
  store := d.progress.store
  journal := d.progress.journal

namespace Loose
variable {σ : Type} {c : Catalogue σ} {l : Loose σ} {d : Dispatcher σ} {ctx : Context σ}

theorem shows_parts (d : Dispatcher σ) : d.parts.Shows d :=
  ⟨rfl, rfl, rfl, rfl, rfl, rfl, rfl, rfl, fun _ => ⟨rfl, rfl⟩⟩

-- A step that has been taken on both sides: the same is said, and the parts show the dispatcher again.
def Agrees (loose : Except Fault Unit × Loose σ) (tied : Except DispatchError Unit × Dispatcher σ) :
    Prop :=
  loose.1 = said tied.1 ∧ loose.2.Shows tied.2

theorem Shows.started (shows : l.Shows d) (live : d.progress = .live ctx) :
    l.state = .documentStarted ∧ l.context? = some ctx ∧ l.root? = none := by
  refine ⟨shows.state.trans (Dispatcher.state_of_live live),
    shows.context?.trans (Dispatcher.context?_of_live live), shows.root?.trans ?_⟩
  simp [Dispatcher.root?, live]

theorem perform_ongoing (started : l.state = .documentStarted) (there : l.context? = some ctx) :
    ongoing.perform l = (.ok ctx, l) := by
  unfold ongoing
  rw [Attempt.perform_bind, Attempt.perform_get]
  simp only [started, there, Attempt.perform_pure]

theorem perform_ongoing_refused (shows : l.Shows d) (idle : d.state ≠ .documentStarted)
    (step : ContextM σ Unit) : ∃ misuse,
      ongoing.perform l = (.error (.error (.internal misuse)), l) ∧
      (Dispatcher.withContext step).perform d = (.error (.internal misuse), d) := by
  have state := shows.state
  unfold ongoing
  simp only [Attempt.perform_bind, Attempt.perform_get]
  obtain ⟨rules, factory, trims, pending, initialRoot, progress⟩ := d
  cases progress with
  | live ctx => exact absurd rfl idle
  | idle journal | ended root store journal | aborted store journal =>
    change l.state = _ at state
    simp only [state, Dispatcher.state, Progress.state]
    exact ⟨_, rfl, rfl⟩

theorem agrees_finishStep (shows : l.Shows d) (live : d.progress = .live ctx)
    (ran : Except DispatchError Unit × Context σ) :
    Agrees ((finishStep ran.1).perform { l with context? := some ran.2 }) (d.settle ran) := by
  obtain ⟨state, _, root⟩ := shows.started live
  obtain ⟨result, after⟩ := ran
  cases result with
  | ok value =>
    exact ⟨rfl, shows.rules, shows.factory, shows.trims, shows.pending, shows.initialRoot, state, rfl,
      root, fun idle => absurd rfl idle⟩
  | error e =>
    exact ⟨rfl, shows.rules, shows.factory, shows.trims, shows.pending, shows.initialRoot, rfl, rfl,
      root, fun _ => ⟨rfl, rfl⟩⟩

theorem agrees_proceed (shows : l.Shows d) (step : ContextM σ Unit) :
    Agrees ((proceed step).perform l) ((Dispatcher.withContext step).perform d) := by
  unfold proceed
  by_cases started : d.state = .documentStarted
  · obtain ⟨ctx, live⟩ := Dispatcher.live_of_started started
    obtain ⟨state, there, _⟩ := shows.started live
    rw [Attempt.perform_bind_ok (perform_ongoing state there), Dispatcher.perform_withContext live]
    exact agrees_finishStep shows live (step.perform ctx)
  · obtain ⟨misuse, loose, tied⟩ := perform_ongoing_refused shows started step
    rw [Attempt.perform_bind_error loose, tied]
    exact ⟨rfl, shows⟩

theorem agrees_startDocument (shows : l.Shows d) :
    Agrees ((startDocument c).perform l) ((Event.startDocument.run c).perform d) := by
  unfold startDocument
  rw [Attempt.perform_bind, Attempt.perform_get]
  dsimp only
  by_cases started : d.state = .documentStarted
  · rw [Event.perform_startDocument_refused started, if_pos (shows.state.trans started)]
    exact ⟨rfl, shows⟩
  · have fresh : l.fresh = d.fresh := by
      rw [Loose.fresh, shows.rules, shows.factory, shows.initialRoot, (shows.left started).2]
      rfl
    let opened : Loose σ := { l with
      initialRoot := none, root? := none, pending := [], state := .documentStarted
      context? := some d.fresh }
    have opens : opened.Shows d.opened :=
      ⟨shows.rules, shows.factory, shows.trims, rfl, rfl, rfl, rfl, rfl, fun idle => absurd rfl idle⟩
    rw [Event.perform_startDocument d started, Dispatcher.perform_withContext (d := d.opened) rfl,
      if_neg (shows.state ▸ started), ← shows.rules, ← fresh]
    exact agrees_finishStep opens rfl
      ((Context.perform (.lifecycle .startParse) (c.start l.rules.actions)).perform l.fresh)

theorem agrees_endDocument (shows : l.Shows d) :
    Agrees ((endDocument c).perform l) ((Event.endDocument.run c).perform d) := by
  unfold endDocument
  by_cases started : d.state = .documentStarted
  · obtain ⟨ctx, live⟩ := Dispatcher.live_of_started started
    obtain ⟨state, there, root⟩ := shows.started live
    rw [Attempt.perform_bind_ok (perform_ongoing state there), Event.perform_endDocument live]
    unfold Dispatcher.finishRules
    rw [Attempt.perform_bind, Attempt.perform_get]
    dsimp only
    by_cases inside : 0 < ctx.depth
    · rw [if_pos inside, if_pos inside]
      have ended := agrees_finishStep shows live (.error (.internal (.stillOpen ctx.path)), ctx)
      rwa [← there] at ended
    · rw [if_neg inside, if_neg inside]
      cases run : (Context.perform (.lifecycle .finishParse)
          (c.finish ctx.site.rules.actions)).perform ctx with
      | mk result after =>
        cases result with
        | ok value =>
          exact ⟨rfl, shows.rules, shows.factory, shows.trims, shows.pending, shows.initialRoot, rfl,
            rfl, rfl, fun _ => ⟨rfl, rfl⟩⟩
        | error e => exact agrees_finishStep shows live (.error e, after)
  · obtain ⟨misuse, loose, tied⟩ :=
      perform_ongoing_refused shows started (Dispatcher.finishRules c)
    have refused : (Event.endDocument.run c).perform d = (.error (.internal misuse), d) :=
      Attempt.perform_bind_error tied _
    rw [Attempt.perform_bind_error loose, refused]
    exact ⟨rfl, shows⟩

theorem Shows.abort (shows : l.Shows d) : l.abort.Shows d.abort := by
  have state := shows.state
  obtain ⟨rules, factory, trims, pending, initialRoot, progress⟩ := d
  cases progress with
  | live ctx =>
    obtain ⟨_, there, root⟩ := shows.started rfl
    change l.state = .documentStarted at state
    simp only [Loose.abort, state, release, there]
    exact ⟨shows.rules, shows.factory, shows.trims, shows.pending, shows.initialRoot, rfl, rfl, root,
      fun _ => ⟨rfl, rfl⟩⟩
  | idle journal | ended root store journal | aborted store journal =>
    change l.state = _ at state
    simp only [Loose.abort, state, Dispatcher.state, Progress.state]
    exact shows

theorem Shows.takeRoot (shows : l.Shows d) :
    ({ l with root? := none } : Loose σ).Shows d.takeRoot := by
  obtain ⟨rules, factory, trims, pending, initialRoot, progress⟩ := d
  cases progress <;> exact { shows with root? := rfl }

theorem agrees_run (shows : l.Shows d) (e : Event) :
    Agrees ((run c e).perform l) ((e.run c).perform d) := by
  cases e with
  | startDocument => exact agrees_startDocument shows
  | endDocument => exact agrees_endDocument shows
  | text content =>
    rw [run, Event.run, Dispatcher.characters]
    exact agrees_proceed shows _
  | start name attrs =>
    have cleared : ({ l with pending := [] } : Loose σ).Shows { d with pending := [] } :=
      { shows with pending := rfl }
    rw [run, Attempt.perform_bind, Attempt.perform_get, Event.perform_start, ← shows.pending]
    exact agrees_proceed cleared (Context.openElement c name attrs l.pending)
  | finish name =>
    rw [run, Attempt.perform_bind, Attempt.perform_get, Event.perform_finish, ← shows.trims]
    exact agrees_proceed shows (Context.closeElement c l.trims name)
  | declare label uri =>
    exact ⟨rfl, { shows with pending := congrArg (· ++ [(label, uri)]) shows.pending }⟩
  | setRoot object => exact ⟨rfl, { shows with initialRoot := rfl }⟩
  | takeRoot => exact ⟨rfl, shows.takeRoot⟩
  | abort => exact ⟨rfl, shows.abort⟩

theorem agrees_feed (shows : l.Shows d) (es : List Event) :
    (feed c es l).1 = (Event.feed c es d).1.map said ∧
      (feed c es l).2.Shows (Event.feed c es d).2 := by
  induction es generalizing l d with
  | nil => exact ⟨rfl, shows⟩
  | cons e es ih =>
    obtain ⟨answer, next⟩ := agrees_run (c := c) shows e
    obtain ⟨answers, last⟩ := ih next
    exact ⟨congr (congrArg List.cons answer) answers, last⟩

theorem Shows.context_iff (shows : l.Shows d) :
    l.context?.isSome ↔ l.state = .documentStarted := by
  rw [shows.context?, shows.state]
  obtain ⟨rules, factory, trims, pending, initialRoot, progress⟩ := d
  cases progress <;> simp [Dispatcher.context?, Dispatcher.state, Progress.context?, Progress.state]

theorem said_ne_noContext (answer : Except DispatchError Unit) : said answer ≠ .error .noContext := by
  cases answer <;> simp [said]

end Loose
end XmlRules
