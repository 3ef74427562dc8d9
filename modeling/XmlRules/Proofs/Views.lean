import XmlRules.Proofs.Events
namespace XmlRules

-- What an action is called for, with what it is given.
inductive Occasion where
  | start
  | begin (name : QName) (attrs : Attributes)
  | segment (name : QName) (text : String)
  | body (name : QName) (text : String)
  | ending (name : QName)
  | finish
deriving DecidableEq

namespace Occasion

def phase : Occasion → Phase
  | .start => .startParse
  | .begin _ _ => .begin
  | .segment _ _ => .bodySegment
  | .body _ _ => .body
  | .ending _ => .ending
  | .finish => .finishParse

def answer {σ : Type} (b : Behaviour σ) : Occasion → Step σ Unit
  | .start => b.onStart
  | .begin name attrs => b.onBegin name attrs
  | .segment name text => b.onSegment name text
  | .body name text => b.onBody name text
  | .ending name => b.onEnd name
  | .finish => b.onFinish

end Occasion

-- A step on a richer state shows, to a view of that state, what another step does by itself.
def Attempt.Shadows {ε τ σ α : Type} (view : τ → σ) (step : Attempt ε τ α) (own : Attempt ε σ α)
    (s : τ) : Prop :=
  own.perform (view s) = ((step.perform s).1, view (step.perform s).2)

theorem Attempt.Shadows.bind {ε τ σ α β : Type} {view : τ → σ} {step : Attempt ε τ α}
    {own : Attempt ε σ α} {next : α → Attempt ε τ β} {after : α → Attempt ε σ β} {s : τ}
    (first : Shadows view step own s) (second : ∀ a t, Shadows view (next a) (after a) t) :
    Shadows view (step >>= next) (own >>= after) s := by
  unfold Shadows at first ⊢
  rw [Attempt.perform_bind, Attempt.perform_bind, first]
  cases run : step.perform s with
  | mk result t =>
    cases result with
    | ok a => exact second a t
    | error e => rfl

section Viewing
variable {τ σ : Type}

def Workspace.viewed (view : τ → σ) (ws : Workspace τ) : Workspace σ :=
  { ws with journal := view ws.journal }

def Context.viewed (view : τ → σ) (ctx : Context τ) : Context σ :=
  { ctx with work := ctx.work.viewed view }

def Progress.viewed (view : τ → σ) : Progress τ → Progress σ
  | .idle journal => .idle (view journal)
  | .live ctx => .live (ctx.viewed view)
  | .ended root store journal => .ended root store (view journal)
  | .aborted store journal => .aborted store (view journal)

def Dispatcher.viewed (view : τ → σ) (d : Dispatcher τ) : Dispatcher σ :=
  { d with progress := d.progress.viewed view }

-- Actions with a richer journal that do, to a view of it, what others do by themselves.
structure Catalogue.Shadows (view : τ → σ) (rich : Catalogue τ) (own : Catalogue σ) : Prop where
  name : ∀ id, (rich id).name = (own id).name
  answer : ∀ id (occasion : Occasion) site ws, Attempt.Shadows (Workspace.viewed view)
    (occasion.answer (rich id) site) (occasion.answer (own id) site) ws

variable {view : τ → σ} {rich : Catalogue τ} {own : Catalogue σ}
open Attempt

theorem Catalogue.Shadows.start (same : Catalogue.Shadows view rich own) (ids : List ActionId)
    (site : Site) (ws : Workspace τ) :
    Attempt.Shadows (Workspace.viewed view) (rich.start ids site) (own.start ids site) ws := by
  induction ids generalizing ws with
  | nil => rfl
  | cons id ids ih => exact (same.answer id .start site ws).bind fun _ t => ih t

theorem Catalogue.Shadows.finish (same : Catalogue.Shadows view rich own) (ids : List ActionId)
    (site : Site) (ws : Workspace τ) :
    Attempt.Shadows (Workspace.viewed view) (rich.finish ids site) (own.finish ids site) ws := by
  induction ids generalizing ws with
  | nil => rfl
  | cons id ids ih => exact (same.answer id .finish site ws).bind fun _ t => ih t

namespace Context

theorem shadows_perform (wrap : ActionError → DispatchError) {step : Step τ Unit}
    {alone : Step σ Unit} {ctx : Context τ}
    (same : Shadows (Workspace.viewed view) (step ctx.site) (alone ctx.site) ctx.work) :
    Shadows (Context.viewed view) (Context.perform wrap step) (Context.perform wrap alone) ctx := by
  unfold Shadows at same ⊢
  unfold Context.perform
  rw [Attempt.perform_bind, Attempt.perform_get, Attempt.perform_bind, Attempt.perform_get]
  dsimp only
  unfold Step.perform
  change (alone ctx.site).perform (ctx.viewed view).work = _ at same
  rw [show (ctx.viewed view).site = ctx.site from rfl, same]
  cases run : (step ctx.site).perform ctx.work with
  | mk result ws => cases result <;> rfl

theorem shadows_performAll (same : Catalogue.Shadows view rich own) {phase : Phase} {path : String}
    (occasion : Occasion) (ids : List ActionId) (ctx : Context τ) :
    Shadows (Context.viewed view) (performAll rich phase path (occasion.answer ·) ids)
      (performAll own phase path (occasion.answer ·) ids) ctx := by
  induction ids generalizing ctx with
  | nil => rfl
  | cons id ids ih =>
    have first : Shadows (Context.viewed view)
        (Context.perform (.action (rich id).name phase path) (occasion.answer (rich id)))
        (Context.perform (.action (own id).name phase path) (occasion.answer (own id))) ctx := by
      rw [same.name id]
      exact shadows_perform _ (same.answer id occasion ctx.site ctx.work)
    exact first.bind fun _ t => ih t

theorem shadows_flush (same : Catalogue.Shadows view rich own) (ctx : Context τ) :
    Shadows (Context.viewed view) (flush rich) (flush own) ctx := by
  unfold Shadows flush
  rw [Attempt.perform_bind, Attempt.perform_get, Attempt.perform_bind, Attempt.perform_get]
  dsimp only
  rw [show (ctx.viewed view).frames = ctx.frames from rfl]
  cases ctx.frames with
  | nil => rfl
  | cons frame frames =>
    dsimp only
    split
    · rfl
    · exact shadows_performAll same (.segment frame.name frame.segment) frame.actions
        { ctx with frames := { frame with segment := "" } :: frames }

theorem shadows_addText (text : String) (ctx : Context τ) :
    Shadows (Context.viewed view) (modify (·.addText text) : ContextM τ Unit)
      (modify (·.addText text) : ContextM σ Unit) ctx := by
  cases ctx with
  | mk site frames work => cases frames <;> rfl

theorem shadows_openElement (same : Catalogue.Shadows view rich own) (name : QName)
    (attrs : Attributes) (declared : List (String × String)) (ctx : Context τ) :
    Shadows (Context.viewed view) (openElement rich name attrs declared)
      (openElement own name attrs declared) ctx := by
  have begun : ∀ t : Context τ, Shadows (Context.viewed view)
      (beginElement rich name attrs declared) (beginElement own name attrs declared) t :=
    fun t => shadows_performAll same (.begin name attrs) _ (t.enter name declared)
  have both := (shadows_flush same ctx).bind fun _ t => begun t
  unfold Shadows at both ⊢
  rw [perform_openElement, perform_openElement]
  exact both

theorem shadows_closeElement (same : Catalogue.Shadows view rich own) (trims : Bool) (name : QName)
    (ctx : Context τ) :
    Shadows (Context.viewed view) (closeElement rich trims name) (closeElement own trims name)
      ctx := by
  unfold closeElement Shadows
  rw [Attempt.perform_bind, Attempt.perform_get, Attempt.perform_bind, Attempt.perform_get]
  dsimp only
  rw [show (ctx.viewed view).frames = ctx.frames from rfl]
  cases ctx.frames with
  | nil => rfl
  | cons frame frames =>
    dsimp only
    split
    · rfl
    · change Shadows (Context.viewed view) _ _ ctx
      refine (shadows_flush same ctx).bind fun _ t => ?_
      let text := if trims then Text.trimmed frame.body else frame.body
      refine (shadows_performAll same (.body name text) frame.actions t).bind fun _ u => ?_
      exact (shadows_performAll same (.ending name) frame.actions.reverse u).bind fun _ _ => rfl

end Context

namespace Dispatcher

theorem shadows_withContext {step : ContextM τ Unit} {alone : ContextM σ Unit} {d : Dispatcher τ}
    (same : ∀ ctx, Shadows (Context.viewed view) step alone ctx) :
    Shadows (Dispatcher.viewed view) (withContext step) (withContext alone) d := by
  cases d with
  | mk rules factory trims pending initialRoot progress =>
    cases progress with
    | live ctx =>
      have made := same ctx
      unfold Shadows at made ⊢
      rw [perform_withContext rfl, perform_withContext rfl, made]
      cases run : step.perform ctx with
      | mk result after => cases result <;> rfl
    | idle journal => rfl
    | ended root store journal => rfl
    | aborted store journal => rfl

theorem opened_viewed (d : Dispatcher τ) : (d.viewed view).opened = d.opened.viewed view := by
  cases d with
  | mk rules factory trims pending initialRoot progress =>
    cases progress <;> cases initialRoot <;> rfl

theorem journal_viewed (d : Dispatcher τ) :
    (d.viewed view).progress.journal = view d.progress.journal := by
  cases d with
  | mk rules factory trims pending initialRoot progress => cases progress <;> rfl

theorem state_viewed (d : Dispatcher τ) : (d.viewed view).state = d.state := by
  cases d with
  | mk rules factory trims pending initialRoot progress => cases progress <;> rfl

theorem root?_viewed (d : Dispatcher τ) : (d.viewed view).root? = d.root? := by
  cases d with
  | mk rules factory trims pending initialRoot progress => cases progress <;> rfl

theorem rootObject?_viewed (d : Dispatcher τ) : (d.viewed view).rootObject? = d.rootObject? := by
  cases d with
  | mk rules factory trims pending initialRoot progress => cases progress <;> rfl

theorem shadows_startDocument (same : Catalogue.Shadows view rich own) (d : Dispatcher τ) :
    Shadows (Dispatcher.viewed view) (Event.startDocument.run rich) (Event.startDocument.run own)
      d := by
  by_cases idle : d.state = .documentStarted
  · cases d with
    | mk rules factory trims pending initialRoot progress =>
      cases progress with
      | live ctx => rfl
      | idle journal => cases idle
      | ended root store journal => cases idle
      | aborted store journal => cases idle
  · have started : Shadows (Dispatcher.viewed view)
        (withContext (Context.perform (.lifecycle .startParse) (rich.start d.rules.actions)))
        (withContext (Context.perform (.lifecycle .startParse) (own.start d.rules.actions)))
        d.opened :=
      shadows_withContext fun ctx =>
        Context.shadows_perform _ (same.start d.rules.actions ctx.site ctx.work)
    unfold Shadows at started ⊢
    rw [Event.perform_startDocument d idle,
      Event.perform_startDocument (d.viewed view) (by rwa [state_viewed]), opened_viewed]
    exact started

theorem shadows_finishRules (same : Catalogue.Shadows view rich own) (ctx : Context τ) :
    Shadows (Context.viewed view) (finishRules rich) (finishRules own) ctx := by
  unfold finishRules Shadows
  rw [Attempt.perform_bind, Attempt.perform_get, Attempt.perform_bind, Attempt.perform_get]
  dsimp only
  rw [show (ctx.viewed view).depth = ctx.depth from rfl]
  split
  · rfl
  · exact Context.shadows_perform _ (same.finish ctx.site.rules.actions ctx.site ctx.work)

theorem shadows_endDocument (same : Catalogue.Shadows view rich own) (d : Dispatcher τ) :
    Shadows (Dispatcher.viewed view) (endDocument rich) (endDocument own) d := by
  unfold endDocument
  refine (shadows_withContext (shadows_finishRules same)).bind fun _ t => ?_
  cases t with
  | mk rules factory trims pending initialRoot progress => cases progress <;> rfl

theorem shadows_run (same : Catalogue.Shadows view rich own) (e : Event) (d : Dispatcher τ) :
    Shadows (Dispatcher.viewed view) (e.run rich) (e.run own) d := by
  cases e with
  | startDocument => exact shadows_startDocument same d
  | declare label uri => rfl
  | start name attrs =>
    unfold Shadows
    rw [Event.perform_start, Event.perform_start]
    exact shadows_withContext (d := { d with pending := [] })
      (Context.shadows_openElement same _ _ _)
  | text content =>
    change Shadows (Dispatcher.viewed view) (characters content) (characters content) d
    exact shadows_withContext (Context.shadows_addText content)
  | finish name =>
    unfold Shadows
    rw [Event.perform_finish, Event.perform_finish]
    exact shadows_withContext (Context.shadows_closeElement same _ _)
  | endDocument => exact shadows_endDocument same d
  | setRoot object => rfl
  | takeRoot =>
    cases d with
    | mk rules factory trims pending initialRoot progress => cases progress <;> rfl
  | abort =>
    cases d with
    | mk rules factory trims pending initialRoot progress => cases progress <;> rfl

end Dispatcher

theorem Event.feed_viewed (same : Catalogue.Shadows view rich own) (es : List Event)
    (d : Dispatcher τ) :
    feed own es (d.viewed view) = ((feed rich es d).1, (feed rich es d).2.viewed view) := by
  induction es generalizing d with
  | nil => rfl
  | cons e es ih =>
    have first := Dispatcher.shadows_run same e d
    unfold Shadows at first
    simp only [feed]
    rw [first, ih]

end Viewing
end XmlRules
