import XmlRules.Proofs.Views
namespace XmlRules

-- One call of an action by the dispatcher: where, on what, and how it ended.
structure Callback (σ : Type) where
  actor : ActionId
  occasion : Occasion
  site : Site
  work : Workspace σ
  result : Except ActionError Unit

structure Logged (σ : Type) where
  own : σ
  calls : List (Callback σ) := []

section Logging
variable {σ : Type}

def Workspace.plain (ws : Workspace (Logged σ)) : Workspace σ :=
  { ws with journal := ws.journal.own }

def Workspace.logged (ws : Workspace σ) (calls : List (Callback σ)) : Workspace (Logged σ) :=
  { ws with journal := ⟨ws.journal, calls⟩ }

def Step.recorded (actor : ActionId) (occasion : Occasion) (step : Step σ Unit) :
    Step (Logged σ) Unit := fun site => do
  let ws ← get
  let (result, after) := Step.perform step site ws.plain
  set (after.logged (ws.journal.calls ++ [⟨actor, occasion, site, ws.plain, result⟩]))
  ofExcept result

-- Actions with every call on record, but for what they call themselves.
def Catalogue.recorded (c : Catalogue σ) : Catalogue (Logged σ) := fun id =>
  { name := (c id).name
    onStart := (c id).onStart.recorded id .start
    onBegin := fun name attrs => ((c id).onBegin name attrs).recorded id (.begin name attrs)
    onSegment := fun name text => ((c id).onSegment name text).recorded id (.segment name text)
    onBody := fun name text => ((c id).onBody name text).recorded id (.body name text)
    onEnd := fun name => ((c id).onEnd name).recorded id (.ending name)
    onFinish := (c id).onFinish.recorded id .finish }

theorem Catalogue.answer_recorded (c : Catalogue σ) (id : ActionId) (occasion : Occasion) :
    occasion.answer (c.recorded id) = (occasion.answer (c id)).recorded id occasion := by
  cases occasion <;> rfl

def Context.plain (ctx : Context (Logged σ)) : Context σ := { ctx with work := ctx.work.plain }

def Progress.plain : Progress (Logged σ) → Progress σ
  | .idle journal => .idle journal.own
  | .live ctx => .live ctx.plain
  | .ended root store journal => .ended root store journal.own
  | .aborted store journal => .aborted store journal.own

def Progress.logging : Progress σ → Progress (Logged σ)
  | .idle journal => .idle ⟨journal, []⟩
  | .live ctx => .live { ctx with work := ctx.work.logged [] }
  | .ended root store journal => .ended root store ⟨journal, []⟩
  | .aborted store journal => .aborted store ⟨journal, []⟩

def Dispatcher.plain (d : Dispatcher (Logged σ)) : Dispatcher σ :=
  { d with progress := d.progress.plain }

def Dispatcher.logging (d : Dispatcher σ) : Dispatcher (Logged σ) :=
  { d with progress := d.progress.logging }

def Event.callbacks (c : Catalogue σ) (es : List Event) (d : Dispatcher σ) : List (Callback σ) :=
  (feed c.recorded es d.logging).2.progress.journal.calls

theorem Dispatcher.plain_logging (d : Dispatcher σ) : d.logging.plain = d := by
  cases d with
  | mk rules factory trims pending initialRoot progress => cases progress <;> rfl

theorem Dispatcher.journal_logging (d : Dispatcher σ) :
    d.logging.progress.journal = ⟨d.progress.journal, []⟩ := by
  cases d with
  | mk rules factory trims pending initialRoot progress => cases progress <;> rfl

theorem Dispatcher.state_logging (d : Dispatcher σ) : d.logging.state = d.state := by
  cases d with
  | mk rules factory trims pending initialRoot progress => cases progress <;> rfl

theorem Step.perform_recorded (actor : ActionId) (occasion : Occasion) (step : Step σ Unit)
    (site : Site) (ws : Workspace (Logged σ)) :
    Step.perform (step.recorded actor occasion) site ws =
      ((Step.perform step site ws.plain).1, (Step.perform step site ws.plain).2.logged
        (ws.journal.calls ++
          [⟨actor, occasion, site, ws.plain, (Step.perform step site ws.plain).1⟩])) := by
  unfold Step.recorded Step.perform
  rw [Attempt.perform_bind, Attempt.perform_get]
  dsimp only
  rw [Attempt.perform_bind, Attempt.perform_set]
  dsimp only
  cases ((step site).perform ws.plain).1 <;> rfl

end Logging

section Recording
variable {σ : Type} {c : Catalogue σ}

-- Recording changes nothing: without the record the recorded actions do what the actions do.
theorem Step.shadows_recorded (actor : ActionId) (occasion : Occasion) (step : Step σ Unit)
    (site : Site) (ws : Workspace (Logged σ)) :
    Attempt.Shadows (Workspace.viewed Logged.own) (step.recorded actor occasion site) (step site)
      ws := by
  have made := Step.perform_recorded actor occasion step site ws
  unfold Attempt.Shadows
  change _ = ((Step.perform (step.recorded actor occasion) site ws).1,
    (Step.perform (step.recorded actor occasion) site ws).2.viewed Logged.own)
  rw [made]
  rfl

theorem Catalogue.shadows_recorded (c : Catalogue σ) :
    Catalogue.Shadows Logged.own c.recorded c where
  name _ := rfl
  answer id occasion site ws := by
    rw [Catalogue.answer_recorded]
    exact Step.shadows_recorded id occasion _ site ws

theorem Dispatcher.plain_eq (d : Dispatcher (Logged σ)) : d.plain = d.viewed Logged.own := by
  cases d with
  | mk rules factory trims pending initialRoot progress => cases progress <;> rfl

theorem Dispatcher.state_plain (d : Dispatcher (Logged σ)) : d.plain.state = d.state := by
  rw [plain_eq, state_viewed]

theorem Event.feed_recorded (es : List Event) (d : Dispatcher (Logged σ)) :
    feed c es d.plain = ((feed c.recorded es d).1, (feed c.recorded es d).2.plain) := by
  rw [Dispatcher.plain_eq, Dispatcher.plain_eq]
  exact feed_viewed c.shadows_recorded es d

section Viewing
variable {τ : Type}

def Callback.viewed (view : τ → σ) (call : Callback τ) : Callback σ :=
  { call with work := call.work.viewed view }

def Logged.viewed (view : τ → σ) (journal : Logged τ) : Logged σ :=
  ⟨view journal.own, journal.calls.map (Callback.viewed view)⟩

variable {view : τ → σ} {rich : Catalogue τ} {own : Catalogue σ}

theorem Catalogue.Shadows.recorded (same : Catalogue.Shadows view rich own) :
    Catalogue.Shadows (Logged.viewed view) rich.recorded own.recorded where
  name := same.name
  answer id occasion site ws := by
    have made := Step.perform_recorded id occasion (occasion.answer (rich id)) site ws
    have seen := Step.perform_recorded id occasion (occasion.answer (own id)) site
      (ws.viewed (Logged.viewed view))
    have step : Step.perform (occasion.answer (own id)) site (ws.plain.viewed view) = _ :=
      same.answer id occasion site ws.plain
    rw [show (ws.viewed (Logged.viewed view)).plain = ws.plain.viewed view from rfl, step] at seen
    rw [Catalogue.answer_recorded, Catalogue.answer_recorded]
    unfold Attempt.Shadows
    change Step.perform _ site (ws.viewed (Logged.viewed view)) =
      ((Step.perform _ site ws).1, (Step.perform _ site ws).2.viewed (Logged.viewed view))
    rw [made, seen]
    simp [Workspace.logged, Workspace.viewed, Logged.viewed, Callback.viewed, Step.perform]

theorem Dispatcher.logging_viewed (d : Dispatcher τ) :
    (d.viewed view).logging = d.logging.viewed (Logged.viewed view) := by
  obtain ⟨rules, factory, trims, pending, initialRoot, progress⟩ := d
  cases progress <;> rfl

theorem Event.callbacks_viewed (same : Catalogue.Shadows view rich own) (es : List Event)
    (d : Dispatcher τ) :
    callbacks own es (d.viewed view) = (callbacks rich es d).map (Callback.viewed view) := by
  unfold callbacks
  rw [Dispatcher.logging_viewed, feed_viewed same.recorded, Dispatcher.journal_viewed]
  rfl

end Viewing

def Logged.behind (earlier : List (Callback σ)) (journal : Logged σ) : Logged σ :=
  ⟨journal.own, earlier ++ journal.calls⟩

theorem Catalogue.shadows_behind (c : Catalogue σ) (earlier : List (Callback σ)) :
    Catalogue.Shadows (Logged.behind earlier) c.recorded c.recorded where
  name _ := rfl
  answer id occasion site ws := by
    have here := Step.perform_recorded id occasion (occasion.answer (c id)) site ws
    have behind := Step.perform_recorded id occasion (occasion.answer (c id)) site
      (ws.viewed (Logged.behind earlier))
    rw [show (ws.viewed (Logged.behind earlier)).plain = ws.plain from rfl] at behind
    rw [Catalogue.answer_recorded]
    unfold Attempt.Shadows
    change Step.perform _ site (ws.viewed (Logged.behind earlier)) =
      ((Step.perform _ site ws).1, (Step.perform _ site ws).2.viewed (Logged.behind earlier))
    rw [here, behind]
    simp [Workspace.logged, Workspace.viewed, Logged.behind]

theorem Dispatcher.behind_logging (d : Dispatcher (Logged σ)) :
    d.plain.logging.viewed (Logged.behind d.progress.journal.calls) = d := by
  obtain ⟨rules, factory, trims, pending, initialRoot, progress⟩ := d
  cases progress <;> simp [plain, logging, viewed, Progress.plain, Progress.logging, Progress.viewed,
    Progress.journal, Logged.behind, Context.plain, Context.viewed, Workspace.viewed,
    Workspace.logged, Workspace.plain]

theorem Event.callbacks_append (es fs : List Event) (d : Dispatcher σ) :
    callbacks c (es ++ fs) d = callbacks c es d ++ callbacks c fs (feed c es d).2 := by
  have told := feed_recorded (c := c) es d.logging
  rw [Dispatcher.plain_logging] at told
  let middle := (feed c.recorded es d.logging).2
  have later := feed_viewed (c.shadows_behind middle.progress.journal.calls) fs middle.plain.logging
  rw [Dispatcher.behind_logging] at later
  unfold callbacks
  rw [feed_append, told, later, Dispatcher.journal_viewed]
  rfl

end Recording
end XmlRules
