import XmlRules.Reading
namespace XmlRules

inductive Event where
  | startDocument
  | declare (label uri : String)
  | start (name : QName) (attrs : Attributes)
  | text (content : String)
  | finish (name : QName)
  | endDocument
  | setRoot (object : Object)
  | takeRoot
  | abort

namespace Event
variable {σ : Type}

def run (c : Catalogue σ) : Event → DispatchM σ Unit
  | .startDocument => Dispatcher.startDocument c
  | .declare label uri => modify (·.startPrefixMapping label uri)
  | .start name attrs => Dispatcher.startElement c name attrs
  | .text content => Dispatcher.characters content
  | .finish name => Dispatcher.endElement c name
  | .endDocument => Dispatcher.endDocument c
  | .setRoot object => modify (·.setRoot object)
  | .takeRoot => modify Dispatcher.takeRoot
  | .abort => modify Dispatcher.abort

def feed (c : Catalogue σ) : List Event → Dispatcher σ → List (Except DispatchError Unit) × Dispatcher σ
  | [], d => ([], d)
  | e :: es, d =>
    let (answer, next) := (e.run c).perform d
    let (answers, last) := feed c es next
    (answer :: answers, last)

theorem feed_append (c : Catalogue σ) (es fs : List Event) (d : Dispatcher σ) :
    feed c (es ++ fs) d =
      ((feed c es d).1 ++ (feed c fs (feed c es d).2).1, (feed c fs (feed c es d).2).2) := by
  induction es generalizing d with
  | nil => rfl
  | cons e es ih =>
    rw [List.cons_append]
    simp only [feed, ih, List.cons_append]

theorem feed_snoc (es : List Event) (e : Event) (d : Dispatcher σ) :
    (feed c (es ++ [e]) d).2 = ((e.run c).perform (feed c es d).2).2 := by
  rw [feed_append]
  rfl

end Event

-- What stands between two tags: a run of text, then the next element and what follows it, if there
-- is one. A run may come in any number of pieces.
inductive Content where
  | last (run : List String)
  | next (run : List String) (tag : Tag) (inner rest : Content)

def Tag.events (tag : Tag) : List Event :=
  tag.declared.map (fun binding => .declare binding.1 binding.2) ++ [.start tag.name tag.attributes]

namespace Content

def events : Content → List Event
  | .last run => run.map .text
  | .next run tag inner rest =>
    run.map .text ++ tag.events ++ inner.events ++ .finish tag.name :: rest.events

def text : Content → String
  | .last run => String.join run
  | .next run _ _ rest => String.join run ++ rest.text

def document (content : Content) : List Event :=
  .startDocument :: content.events ++ [.endDocument]

end Content

def Site.enter (site : Site) (name : QName) (declared : List (String × String)) : Site :=
  { site with bindings := site.bindings.enter declared, trail := site.trail.enter name }

def Site.active {σ : Type} (site : Site) (ws : Workspace σ) : Registry :=
  match ws.scopes with
  | [] => site.rules
  | scope :: _ => scope.rules

namespace Context
variable {σ : Type}

def enter (ctx : Context σ) (name : QName) (declared : List (String × String)) : Context σ where
  site := ctx.site.enter name declared
  frames :=
    ⟨name, (ctx.site.active ctx.work).matching (ctx.site.trail.enter name).path, "", ""⟩ :: ctx.frames
  work := ctx.work

def beginElement (c : Catalogue σ) (name : QName) (attrs : Attributes)
    (declared : List (String × String)) : ContextM σ Unit := do
  let ctx ← get
  set (ctx.enter name declared)
  performAll c .begin (ctx.site.trail.enter name).path (·.onBegin name attrs)
    ((ctx.site.active ctx.work).matching (ctx.site.trail.enter name).path)

theorem perform_openElement (c : Catalogue σ) (name : QName) (attrs : Attributes)
    (declared : List (String × String)) (ctx : Context σ) :
    (openElement c name attrs declared).perform ctx =
      Attempt.perform (do flush c; beginElement c name attrs declared) ctx := by
  unfold openElement
  rw [Attempt.perform_bind, Attempt.perform_bind]
  cases (flush c).perform ctx with
  | mk result t => cases result <;> rfl

end Context

namespace Dispatcher
variable {σ : Type} {d : Dispatcher σ} {ctx : Context σ}

def opened (d : Dispatcher σ) : Dispatcher σ :=
  { d with initialRoot := none, pending := [], progress := .live d.fresh }

def settle (d : Dispatcher σ) : Except DispatchError Unit × Context σ →
    Except DispatchError Unit × Dispatcher σ
  | (.ok (), ctx) => (.ok (), { d with progress := .live ctx })
  | (.error e, ctx) => (.error e, d.abandon ctx)

theorem perform_withContext (live : d.progress = .live ctx) (step : ContextM σ Unit) :
    (withContext step).perform d = d.settle (step.perform ctx) := by
  unfold withContext
  rw [Attempt.perform_bind, Attempt.perform_get]
  simp only [live]
  cases run : step.perform ctx with
  | mk result after =>
    cases result with
    | ok value => rfl
    | error e => rfl

theorem perform_withContext_refused {store : Store} {journal : σ}
    (aborted : d.progress = .aborted store journal) (step : ContextM σ Unit) :
    (withContext step).perform d = (.error (.internal .aborted), d) := by
  unfold withContext
  rw [Attempt.perform_bind, Attempt.perform_get]
  simp only [aborted]
  rfl

theorem state_of_live {ctx : Context σ} (live : d.progress = .live ctx) :
    d.state = .documentStarted := by
  rw [state, live]
  rfl

theorem context?_of_live (live : d.progress = .live ctx) : d.context? = some ctx := by
  rw [context?, live]
  rfl

theorem live_of_started (started : d.state = .documentStarted) : ∃ ctx, d.progress = .live ctx := by
  cases d with
  | mk rules factory trims pending initialRoot progress =>
    cases progress with
    | live ctx => exact ⟨ctx, rfl⟩
    | idle journal => cases started
    | ended root store journal => cases started
    | aborted store journal => cases started

theorem perform_withContext_idle (idle : d.state ≠ .documentStarted) (step : ContextM σ Unit) :
    ∃ misuse, (withContext step).perform d = (.error (.internal misuse), d) := by
  cases d with
  | mk rules factory trims pending initialRoot progress =>
    cases progress with
    | live ctx => exact absurd rfl idle
    | idle journal => exact ⟨_, rfl⟩
    | ended root store journal => exact ⟨_, rfl⟩
    | aborted store journal => exact ⟨_, rfl⟩

end Dispatcher

namespace Event
variable {σ : Type} {c : Catalogue σ} {d : Dispatcher σ}

theorem perform_start (d : Dispatcher σ) (name : QName) (attrs : Attributes) :
    ((Event.start name attrs).run c).perform d =
      (Dispatcher.withContext (Context.openElement c name attrs d.pending)).perform
        { d with pending := [] } := rfl

theorem perform_finish (d : Dispatcher σ) (name : QName) :
    ((Event.finish name).run c).perform d =
      (Dispatcher.withContext (Context.closeElement c d.trims name)).perform d := by
  change (Dispatcher.endElement c name).perform d = _
  unfold Dispatcher.endElement
  rw [Attempt.perform_bind, Attempt.perform_get]

theorem finish_of_ok {name : QName} (fine : (((Event.finish name).run c).perform d).1 = .ok ()) :
    ∃ ctx next, d.progress = .live ctx ∧
      (Context.closeElement c d.trims name).perform ctx = (.ok (), next) ∧
        (((Event.finish name).run c).perform d).2.progress = .live next := by
  rw [perform_finish] at fine ⊢
  by_cases started : d.state = .documentStarted
  · obtain ⟨ctx, live⟩ := Dispatcher.live_of_started started
    rw [Dispatcher.perform_withContext live] at fine ⊢
    cases run : (Context.closeElement c d.trims name).perform ctx with
    | mk result next =>
      rw [run] at fine
      cases result with
      | ok value => exact ⟨ctx, next, live, run, rfl⟩
      | error e => cases fine
  · obtain ⟨misuse, refused⟩ := Dispatcher.perform_withContext_idle started
      (Context.closeElement c d.trims name)
    rw [refused] at fine
    cases fine

theorem live_of_finish_ok {name : QName}
    (fine : (((Event.finish name).run c).perform d).1 = .ok ()) :
    (((Event.finish name).run c).perform d).2.state = .documentStarted := by
  obtain ⟨_, _, _, _, going⟩ := finish_of_ok fine
  exact Dispatcher.state_of_live going

theorem perform_startDocument (d : Dispatcher σ) (idle : d.state ≠ .documentStarted) :
    (Event.startDocument.run c).perform d =
      (Dispatcher.withContext
        (Context.perform (.lifecycle .startParse) (c.start d.rules.actions))).perform d.opened := by
  change (Dispatcher.startDocument c).perform d = _
  unfold Dispatcher.startDocument
  rw [Attempt.perform_bind, Attempt.perform_get]
  cases progress : d.progress with
  | live ctx => exact absurd (by rw [Dispatcher.state, progress]; rfl) idle
  | idle journal => simp only [progress]; rfl
  | ended root store journal => simp only [progress]; rfl
  | aborted store journal => simp only [progress]; rfl

theorem perform_startDocument_refused (started : d.state = .documentStarted) :
    (Event.startDocument.run c).perform d = (.error (.internal .alreadyStarted), d) := by
  obtain ⟨ctx, live⟩ := Dispatcher.live_of_started started
  change (Dispatcher.startDocument c).perform d = _
  unfold Dispatcher.startDocument
  rw [Attempt.perform_bind, Attempt.perform_get]
  simp only [live]
  rfl

theorem aborted_run {d : Dispatcher σ} {store : Store} {journal : σ}
    (aborted : d.progress = .aborted store journal) {e : Event} (inner : e ≠ .startDocument) :
    ((e.run c).perform d).2.progress = .aborted store journal := by
  cases e with
  | startDocument => exact absurd rfl inner
  | declare label uri => exact aborted
  | start name attrs =>
    rw [perform_start, Dispatcher.perform_withContext_refused (d := { d with pending := [] }) aborted]
    exact aborted
  | text content =>
    rw [run, Dispatcher.characters, Dispatcher.perform_withContext_refused aborted]
    exact aborted
  | finish name =>
    rw [perform_finish, Dispatcher.perform_withContext_refused aborted]
    exact aborted
  | endDocument =>
    rw [run, Dispatcher.endDocument, Attempt.perform_bind,
      Dispatcher.perform_withContext_refused aborted]
    exact aborted
  | setRoot object => exact aborted
  | takeRoot =>
    change d.takeRoot.progress = _
    simp only [Dispatcher.takeRoot, aborted]
  | abort =>
    change d.abort.progress = _
    simp only [Dispatcher.abort, aborted]

theorem aborted_feed {d : Dispatcher σ} {store : Store} {journal : σ}
    (aborted : d.progress = .aborted store journal) {es : List Event}
    (inner : ∀ e ∈ es, e ≠ .startDocument) :
    (feed c es d).2.progress = .aborted store journal := by
  induction es generalizing d with
  | nil => exact aborted
  | cons e es ih =>
    exact ih (aborted_run aborted (inner e (by simp)))
      fun f member => inner f (List.mem_cons_of_mem _ member)

end Event

namespace Content
variable {σ : Type}

def addRun (run : List String) : ContextM σ Unit := run.forM fun s => modify (·.addText s)

def play (c : Catalogue σ) (trims : Bool) : Content → ContextM σ Unit
  | .last run => addRun run
  | .next run tag inner rest => do
    addRun run
    Context.openElement c tag.name tag.attributes tag.declared
    inner.play c trims
    Context.closeElement c trims tag.name
    rest.play c trims

end Content

namespace Event
variable {σ : Type} {c : Catalogue σ} {trims : Bool}

-- The events of one document make a step of that document. If it fails, the rest is refused.
def Makes (c : Catalogue σ) (trims : Bool) (es : List Event) (step : ContextM σ Unit) : Prop :=
  (∀ e ∈ es, e ≠ .startDocument) ∧ ∀ (d : Dispatcher σ) (ctx : Context σ),
    d.progress = .live ctx → d.pending = [] → d.trims = trims →
      match step.perform ctx with
      | (.ok (), after) =>
        feed c es d = (es.map fun _ => .ok (), { d with progress := .live after })
      | (.error _, after) =>
        (feed c es d).2.progress = .aborted after.work.store after.work.journal

theorem Makes.append {es fs : List Event} {step next : ContextM σ Unit}
    (first : Makes c trims es step) (second : Makes c trims fs next) :
    Makes c trims (es ++ fs) (do step; next) := by
  refine ⟨?_, ?_⟩
  · intro e member
    rcases List.mem_append.mp member with left | right
    · exact first.1 e left
    · exact second.1 e right
  · intro d ctx live clear same
    have before := first.2 d ctx live clear same
    rw [Attempt.perform_bind, feed_append]
    cases run : step.perform ctx with
    | mk result middle =>
      rw [run] at before
      cases result with
      | ok value =>
        have later := second.2 { d with progress := .live middle } middle rfl clear same
        simp only at before ⊢
        rw [before]
        cases rest : next.perform middle with
        | mk result after =>
          rw [rest] at later
          cases result with
          | ok value => simp only [later, List.map_append]
          | error e => exact later
      | error e => exact aborted_feed before second.1

theorem makes_nil : Makes c trims [] (pure ()) :=
  ⟨by simp, fun _ _ live _ _ => by simp [feed, ← live]⟩

theorem makes_single {e : Event} {step : ContextM σ Unit} (inner : e ≠ .startDocument)
    (single : ∀ d : Dispatcher σ, d.trims = trims →
      (e.run c).perform d = (Dispatcher.withContext step).perform d) :
    Makes c trims [e] step := by
  refine ⟨by simpa using inner, ?_⟩
  intro d ctx live clear same
  rw [feed, single d same, Dispatcher.perform_withContext live]
  cases run : step.perform ctx with
  | mk result after =>
    cases result with
    | ok value => rfl
    | error e => rfl

theorem makes_finish (name : QName) :
    Makes c trims [.finish name] (Context.closeElement c trims name) := by
  apply makes_single (by simp)
  intro d same
  rw [perform_finish, same]

theorem makes_run (run : List String) : Makes c trims (run.map .text) (Content.addRun run) := by
  induction run with
  | nil => exact makes_nil
  | cons s run ih =>
    have first : Makes c trims [.text s] (modify (·.addText s)) :=
      makes_single (by simp) fun _ _ => rfl
    exact first.append ih

theorem feed_declared (bindings : List (String × String)) (d : Dispatcher σ) :
    feed c (bindings.map fun binding => .declare binding.1 binding.2) d =
      (bindings.map fun _ => .ok (), { d with pending := d.pending ++ bindings }) := by
  induction bindings generalizing d with
  | nil => simp [feed]
  | cons binding bindings ih =>
    rw [List.map_cons, feed]
    change (match feed c _ (d.startPrefixMapping binding.1 binding.2) with
      | (answers, last) => (_ :: answers, last)) = _
    rw [ih]
    simp [Dispatcher.startPrefixMapping]

theorem makes_tag (tag : Tag) : Makes c trims tag.events
    (Context.openElement c tag.name tag.attributes tag.declared) := by
  refine ⟨?_, ?_⟩
  · intro e member
    simp only [Tag.events, List.mem_append, List.mem_map, List.mem_singleton] at member
    rcases member with ⟨binding, _, rfl⟩ | rfl
    · simp
    · simp
  · intro d ctx live clear same
    have declared := feed_declared (c := c) tag.declared d
    rw [clear, List.nil_append] at declared
    rw [Tag.events, feed_append, declared]
    simp only [feed]
    rw [perform_start, Dispatcher.perform_withContext (d := { d with pending := [] }) live]
    simp only
    cases run : (Context.openElement c tag.name tag.attributes tag.declared).perform ctx with
    | mk result after =>
      cases result with
      | ok value =>
        simp only [Dispatcher.settle, ← clear, List.map_append, List.map_map, List.map_cons,
          List.map_nil, Function.comp_def]
      | error e => rfl

theorem makes_content (trims : Bool) (content : Content) :
    Makes c trims content.events (content.play c trims) := by
  induction content with
  | last run => exact makes_run run
  | next run tag inner rest inside after =>
    have whole := (makes_run run).append ((makes_tag tag).append
      (inside.append ((makes_finish tag.name).append after)))
    simpa [Content.events, Content.play] using whole

end Event
end XmlRules
