import XmlRules.Proofs.Callbacks
import XmlRules.Proofs.TableIndexes
namespace XmlRules

abbrev Visit (σ : Type) := Attempt DispatchError (Workspace σ)

structure Host where
  name : QName
  actions : List ActionId

namespace Visit
variable {σ : Type}

def act (wrap : ActionError → DispatchError) (step : Step σ Unit) (site : Site) : Visit σ Unit := do
  let (result, ws) := Step.perform step site (← get)
  set ws
  match result with
  | .ok () => pure ()
  | .error e => throw (wrap e)

def callAll (c : Catalogue σ) (site : Site) (occasion : Occasion) (ids : List ActionId) :
    Visit σ Unit :=
  ids.forM fun id =>
    act (.action (c id).name occasion.phase site.trail.path) (occasion.answer (c id)) site

-- A run of text goes to the actions of the element it stands in, unless it is empty.
def deliver (c : Catalogue σ) (site : Site) (host : Host) (run : String) : Visit σ Unit :=
  if run = "" then pure () else callAll c site (.segment host.name run) host.actions

-- The actions of an element are looked up once, when it starts.
def lookUp (site : Site) (name : QName) : Visit σ (List ActionId) :=
  return (site.active (← get)).matching (site.trail.enter name).path

-- The end of an element: its whole text, the endings in reverse, and its scopes are dropped.
def conclude (c : Catalogue σ) (trims : Bool) (site : Site) (host : Host) (text : String) :
    Visit σ Unit := do
  callAll c site (.body host.name (if trims then Text.trimmed text else text)) host.actions
  callAll c site (.ending host.name) host.actions.reverse
  modify (·.closeScopesFrom site.trail.depth)

end Visit

namespace Content
variable {σ : Type}
open Visit

-- The document tree, visited once: every run of text where it stands, every element with its
-- beginning, its content, its whole text and its ending.
def traverse (c : Catalogue σ) (trims : Bool) (site : Site) (host : Host) : Content → Visit σ Unit
  | .last run => deliver c site host (String.join run)
  | .next run tag inner rest => do
    deliver c site host (String.join run)
    let actions ← lookUp site tag.name
    let inside := site.enter tag.name tag.declared
    callAll c inside (.begin tag.name tag.attributes) actions
    inner.traverse c trims inside ⟨tag.name, actions⟩
    conclude c trims inside ⟨tag.name, actions⟩ inner.text
    rest.traverse c trims site host

def nobody : Host := ⟨⟨"", ""⟩, []⟩

-- A whole document: the rules are started before everything and finished after everything.
def visit (c : Catalogue σ) (trims : Bool) (site : Site) (content : Content) : Visit σ Unit := do
  act (.lifecycle .startParse) (c.start site.rules.actions) site
  content.traverse c trims site nobody
  act (.lifecycle .finishParse) (c.finish site.rules.actions) site

def callbacks (c : Catalogue σ) (trims : Bool) (site : Site) (ws : Workspace σ) (content : Content) :
    List (Callback σ) :=
  ((content.visit c.recorded trims site).perform (ws.logged [])).2.journal.calls

-- A visit with the last run still to be delivered.
def advance (c : Catalogue σ) (trims : Bool) (site : Site) (host : Host) : Content → Visit σ String
  | .last run => pure (String.join run)
  | .next run tag inner rest => do
    deliver c site host (String.join run)
    let actions ← lookUp site tag.name
    let inside := site.enter tag.name tag.declared
    callAll c inside (.begin tag.name tag.attributes) actions
    let left ← inner.advance c trims inside ⟨tag.name, actions⟩
    deliver c inside ⟨tag.name, actions⟩ left
    conclude c trims inside ⟨tag.name, actions⟩ inner.text
    rest.advance c trims site host

theorem traverse_eq_advance (c : Catalogue σ) (trims : Bool) (content : Content) (site : Site)
    (host : Host) : content.traverse c trims site host = (do
      let left ← content.advance c trims site host
      deliver c site host left) := by
  induction content generalizing site host with
  | last run => simp [traverse, advance]
  | next run tag inner rest inside after => simp [traverse, advance, inside, after]

end Content

namespace Context
variable {σ α β : Type} {c : Catalogue σ} {trims : Bool}
open Visit

-- A step of the document that is a visit: it ends as the visit does, on the workspace of the visit,
-- and when it does not fail the rest of the context is where it should be.
structure Mirrors (step : ContextM σ Unit) (visit : Visit σ α) (place : α → Site × List Frame)
    (ctx : Context σ) : Prop where
  run : match visit.perform ctx.work with
    | (.ok a, ws) => step.perform ctx = (.ok (), ⟨(place a).1, (place a).2, ws⟩)
    | (.error e, ws) => ∃ after, step.perform ctx = (.error e, after) ∧ after.work = ws

theorem Mirrors.bind {step next : ContextM σ Unit} {visit : Visit σ α} {later : α → Visit σ β}
    {place : α → Site × List Frame} {goal : β → Site × List Frame} {ctx : Context σ}
    (first : Mirrors step visit place ctx)
    (second : ∀ a ws, Mirrors next (later a) goal ⟨(place a).1, (place a).2, ws⟩) :
    Mirrors (do step; next) (visit >>= later) goal ctx := by
  have start := first.run
  constructor
  rw [Attempt.perform_bind]
  cases run : visit.perform ctx.work with
  | mk result ws =>
    rw [run] at start
    cases result with
    | ok a =>
      rw [Attempt.perform_bind_ok start]
      exact (second a ws).run
    | error e =>
      obtain ⟨after, failed, work⟩ := start
      exact ⟨after, Attempt.perform_bind_error failed _, work⟩

theorem Mirrors.of_perform {step other : ContextM σ Unit} {visit like : Visit σ α}
    {place : α → Site × List Frame} {ctx origin : Context σ} (mirrors : Mirrors other like place origin)
    (same : step.perform ctx = other.perform origin)
    (visits : visit.perform ctx.work = like.perform origin.work) : Mirrors step visit place ctx := by
  constructor
  rw [same, visits]
  exact mirrors.run

theorem mirrors_act (wrap : ActionError → DispatchError) (step : Step σ Unit) (ctx : Context σ) :
    Mirrors (Context.perform wrap step) (act wrap step ctx.site) (fun _ => (ctx.site, ctx.frames))
      ctx := by
  constructor
  unfold Context.perform act
  rw [Attempt.perform_bind, Attempt.perform_get, Attempt.perform_bind, Attempt.perform_get]
  dsimp only
  cases run : Step.perform step ctx.site ctx.work with
  | mk result ws =>
    cases result with
    | ok value => rfl
    | error e => exact ⟨_, rfl, rfl⟩

theorem mirrors_pure (ctx : Context σ) :
    Mirrors (pure ()) (pure () : Visit σ Unit) (fun _ => (ctx.site, ctx.frames)) ctx := ⟨rfl⟩

theorem mirrors_modify (moved : Context σ → Context σ) (ctx : Context σ)
    (worked : Workspace σ → Workspace σ) (same : (moved ctx).work = worked ctx.work) :
    Mirrors (modify moved) (modify worked : Visit σ Unit)
      (fun _ => ((moved ctx).site, (moved ctx).frames)) ctx := by
  constructor
  rw [Attempt.perform_modify, Attempt.perform_modify, ← same]

theorem mirrors_callAll (occasion : Occasion) (ids : List ActionId) (ctx : Context σ) :
    Mirrors (performAll c occasion.phase ctx.path (occasion.answer ·) ids)
      (callAll c ctx.site occasion ids) (fun _ => (ctx.site, ctx.frames)) ctx := by
  obtain ⟨site, frames, work⟩ := ctx
  induction ids generalizing work with
  | nil => exact mirrors_pure _
  | cons id ids ih => exact (mirrors_act _ _ _).bind fun _ ws => ih ws

-- Where the text of some content is kept: in the frame of its element, or nowhere when there is
-- no element.
inductive Keeps : Host → (String → String → List Frame) → Prop where
  | element (host : Host) (outer : List Frame) :
      Keeps host fun body segment => ⟨host.name, host.actions, body, segment⟩ :: outer
  | nobody {host : Host} : host.actions = [] → Keeps host fun _ _ => []

variable {host : Host} {frames : String → String → List Frame}

theorem perform_addRun (keeps : Keeps host frames) (run : List String) (site : Site)
    (body : String) (ws : Workspace σ) :
    (Content.addRun run).perform ⟨site, frames body "", ws⟩ =
      (.ok (), ⟨site, frames (body ++ String.join run) (String.join run), ws⟩) := by
  have added : ∀ body segment : String,
      (Content.addRun run).perform ⟨site, frames body segment, ws⟩ =
        (.ok (), ⟨site, frames (body ++ String.join run) (segment ++ String.join run), ws⟩) := by
    induction run with
    | nil => simp [Content.addRun]
    | cons s run ih =>
      intro body segment
      have single : (⟨site, frames body segment, ws⟩ : Context σ).addText s =
          ⟨site, frames (body ++ s) (segment ++ s), ws⟩ := by
        cases keeps <;> rfl
      change (Content.addRun run).perform ((⟨site, frames body segment, ws⟩ : Context σ).addText s) = _
      rw [single, ih]
      simp [String.append_assoc]
  simpa using added body ""

theorem mirrors_flush (keeps : Keeps host frames) (site : Site) (body segment : String)
    (ws : Workspace σ) : Mirrors (flush c) (deliver c site host segment)
      (fun _ => (site, frames body "")) ⟨site, frames body segment, ws⟩ := by
  cases keeps with
  | nobody none =>
    unfold deliver
    split
    · exact ⟨rfl⟩
    · rw [none]
      exact ⟨rfl⟩
  | element outer =>
    by_cases empty : segment = ""
    · refine (mirrors_pure ⟨site, ⟨host.name, host.actions, body, ""⟩ :: outer, ws⟩).of_perform ?_ ?_
      · subst empty
        rfl
      · rw [deliver, if_pos empty]
    · refine (mirrors_callAll (c := c) (.segment host.name segment) host.actions
        ⟨site, ⟨host.name, host.actions, body, ""⟩ :: outer, ws⟩).of_perform ?_ ?_
      · rw [flush, Attempt.perform_bind, Attempt.perform_get]
        dsimp only
        rw [if_neg empty]
        rfl
      · rw [deliver, if_neg empty]

def finishElement (c : Catalogue σ) (name : QName) (text : String) (actions : List ActionId)
    (path : String) : ContextM σ Unit := do
  performAll c .body path (·.onBody name text) actions
  performAll c .ending path (·.onEnd name) actions.reverse
  modify leave

theorem perform_closeElement (host : Host) (site : Site) (body left : String) (outer : List Frame)
    (ws : Workspace σ) : (closeElement c trims host.name).perform
        ⟨site, ⟨host.name, host.actions, body, left⟩ :: outer, ws⟩ =
      Attempt.perform (do
          flush c
          finishElement c host.name (if trims then Text.trimmed body else body) host.actions
            site.trail.path)
        ⟨site, ⟨host.name, host.actions, body, left⟩ :: outer, ws⟩ := by
  unfold closeElement
  rw [Attempt.perform_bind, Attempt.perform_get]
  dsimp only
  rw [if_neg (by simp)]
  rfl

theorem mirrors_closeElement (trims : Bool) (site : Site) (declared : List (String × String))
    (name : QName) (actions : List ActionId) (body left : String) (outer : List Frame)
    (ws : Workspace σ) :
    Mirrors (closeElement c trims name)
      (do
        deliver c (site.enter name declared) ⟨name, actions⟩ left
        conclude c trims (site.enter name declared) ⟨name, actions⟩ body)
      (fun _ => (site, outer))
      ⟨site.enter name declared, ⟨name, actions, body, left⟩ :: outer, ws⟩ := by
  let inside := site.enter name declared
  let text := if trims then Text.trimmed body else body
  let here (ws : Workspace σ) : Context σ := ⟨inside, ⟨name, actions, body, ""⟩ :: outer, ws⟩
  have flushed := mirrors_flush (c := c) (.element ⟨name, actions⟩ outer) inside body left ws
  have finished : ∀ ws, Mirrors (finishElement c name text actions inside.trail.path)
      (conclude c trims inside ⟨name, actions⟩ body) (fun _ => (site, outer)) (here ws) := by
    intro ws
    unfold finishElement conclude
    refine (mirrors_callAll (.body name text) actions (here ws)).bind fun _ ws => ?_
    refine (mirrors_callAll (.ending name) actions.reverse (here ws)).bind fun _ ws => ?_
    have left := mirrors_modify leave (here ws) (·.closeScopesFrom inside.trail.depth) rfl
    have back : (here ws).leave = ⟨site, outer, ws.closeScopesFrom inside.trail.depth⟩ := by
      simp [here, inside, Context.leave, Site.enter, Trail.leave?_enter, depth]
    rwa [back] at left
  have both := flushed.bind fun _ ws => finished ws
  exact both.of_perform (perform_closeElement ⟨name, actions⟩ _ body left outer ws) rfl

theorem mirrors_beginElement (site : Site) (outer : List Frame) (name : QName) (attrs : Attributes)
    (declared : List (String × String)) (ws : Workspace σ) :
    Mirrors (beginElement c name attrs declared)
      (do
        let actions ← lookUp site name
        callAll c (site.enter name declared) (.begin name attrs) actions
        return actions)
      (fun actions => (site.enter name declared, ⟨name, actions, "", ""⟩ :: outer))
      ⟨site, outer, ws⟩ := by
  let actions := (site.active ws).matching (site.trail.enter name).path
  let entered := Context.enter ⟨site, outer, ws⟩ name declared
  have begun := mirrors_callAll (c := c) (.begin name attrs) actions entered
  have returned : ∀ after : Workspace σ, Mirrors (pure ()) (pure actions)
      (fun actions => (site.enter name declared, ⟨name, actions, "", ""⟩ :: outer))
      ⟨entered.site, entered.frames, after⟩ := fun _ => ⟨rfl⟩
  refine (begun.bind fun _ after => returned after).of_perform ?_ rfl
  rw [bind_pure_unit]
  rfl

-- Playing the events of some content visits the tree, up to the run that still waits.
theorem mirrors_play (trims : Bool) (content : Content) {host : Host} {frames : String → String → List Frame}
    (keeps : Keeps host frames) (site : Site) (body : String) (ws : Workspace σ) :
    Mirrors (content.play c trims) (content.advance c trims site host)
      (fun left => (site, frames (body ++ content.text) left)) ⟨site, frames body "", ws⟩ := by
  induction content generalizing host frames site body ws with
  | last run => exact ⟨perform_addRun keeps run site body ws⟩
  | next run tag inner rest inside after =>
    let opened := site.enter tag.name tag.declared
    let outer := frames (body ++ String.join run) ""
    have closed := fun actions left ws => (mirrors_closeElement (c := c) trims site tag.declared
      tag.name actions inner.text left outer ws).bind fun _ ws =>
        after keeps site (body ++ String.join run) ws
    have filled := fun actions ws => (inside (.element ⟨tag.name, actions⟩ outer) opened "" ws).bind
      fun left ws => by
        rw [String.empty_append]
        exact closed actions left ws
    have begun := fun ws => (mirrors_beginElement (c := c) site outer tag.name tag.attributes
      tag.declared ws).bind fun actions ws => filled actions ws
    have flushed := (mirrors_flush (c := c) keeps site (body ++ String.join run) (String.join run)
      ws).bind fun _ ws => begun ws
    rw [Content.text, ← String.append_assoc]
    refine flushed.of_perform ?_ ?_
    · rw [Content.play, Attempt.perform_bind_ok (perform_addRun keeps run site body ws),
        Attempt.perform_bind, perform_openElement, ← Attempt.perform_bind, bind_assoc]
    · simp only [Content.advance, bind_assoc, pure_bind]
      rfl

theorem deliver_nobody (site : Site) (run : String) :
    deliver c site Content.nobody run = pure () := by
  unfold deliver
  split <;> rfl

def playDocument (c : Catalogue σ) (trims : Bool) (ids : List ActionId) (content : Content) :
    ContextM σ Unit := do
  Context.perform (.lifecycle .startParse) (c.start ids)
  content.play c trims
  Dispatcher.finishRules c

theorem mirrors_document (trims : Bool) (content : Content) (site : Site) (outside : site.trail.depth = 0)
    (ws : Workspace σ) :
    Mirrors (playDocument c trims site.rules.actions content) (content.visit c trims site)
      (fun _ => (site, [])) ⟨site, [], ws⟩ := by
  have finished : ∀ ws : Workspace σ, Mirrors (Dispatcher.finishRules c)
      (act (.lifecycle .finishParse) (c.finish site.rules.actions) site) (fun _ => (site, []))
      ⟨site, [], ws⟩ := by
    intro ws
    refine (mirrors_act _ (c.finish site.rules.actions) ⟨site, [], ws⟩).of_perform ?_ rfl
    unfold Dispatcher.finishRules
    rw [Attempt.perform_bind, Attempt.perform_get]
    simp only [depth, outside, Nat.lt_irrefl, if_false]
  have nowhere : Keeps Content.nobody fun _ _ => [] := .nobody rfl
  have played := fun ws => (mirrors_play (c := c) trims content nowhere site "" ws).bind
    fun _ ws => finished ws
  have started := (mirrors_act (.lifecycle .startParse) (c.start site.rules.actions)
    ⟨site, [], ws⟩).bind fun _ ws => played ws
  refine started.of_perform rfl ?_
  simp only [Content.visit, Content.traverse_eq_advance, deliver_nobody, bind_assoc, pure_bind]

end Context

namespace Event
variable {σ : Type} {c : Catalogue σ} {d : Dispatcher σ} {ctx : Context σ}

theorem perform_endDocument (live : d.progress = .live ctx) :
    (Event.endDocument.run c).perform d = match (Dispatcher.finishRules c).perform ctx with
      | (.ok (), after) =>
        (.ok (), { d with progress := .ended after.work.root after.work.store after.work.journal })
      | (.error e, after) => (.error e, d.abandon after) := by
  change (Dispatcher.endDocument c).perform d = _
  unfold Dispatcher.endDocument
  rw [Attempt.perform_bind, Dispatcher.perform_withContext live]
  cases run : (Dispatcher.finishRules c).perform ctx with
  | mk result after => cases result <;> rfl

theorem feed_playDocument (content : Content) (idle : d.state ≠ .documentStarted) :
    match (Context.playDocument c d.trims d.rules.actions content).perform d.fresh with
    | (.ok (), after) => feed c content.document d = (content.document.map fun _ => .ok (),
        { d.opened with progress := .ended after.work.root after.work.store after.work.journal })
    | (.error _, after) =>
      (feed c content.document d).2.progress = .aborted after.work.store after.work.journal := by
  have inner : ∀ e ∈ content.events ++ [Event.endDocument], e ≠ .startDocument := by
    intro e member
    rcases List.mem_append.mp member with early | last
    · exact (makes_content (c := c) d.trims content).1 e early
    · rw [List.mem_singleton.mp last]
      simp
  change match (Context.playDocument c d.trims d.rules.actions content).perform d.fresh with
    | (.ok (), after) => feed c (.startDocument :: (content.events ++ [.endDocument])) d = _
    | (.error _, after) => (feed c (.startDocument :: (content.events ++ [.endDocument])) d).2.progress = _
  unfold Context.playDocument
  rw [feed, perform_startDocument d idle, Dispatcher.perform_withContext (d := d.opened) rfl,
    Attempt.perform_bind]
  cases (Context.perform (.lifecycle .startParse) (c.start d.rules.actions)).perform d.fresh with
  | mk result started =>
    cases result with
    | error e => exact aborted_feed (d := d.opened.abandon started) rfl inner
    | ok value =>
      dsimp only [Dispatcher.settle]
      have played := (makes_content (c := c) d.trims content).2
        { d.opened with progress := .live started } started rfl rfl rfl
      rw [Attempt.perform_bind, feed_append]
      cases run : (content.play c d.trims).perform started with
      | mk result middle =>
        rw [run] at played
        cases result with
        | error e => exact aborted_feed played (by simp)
        | ok value =>
          dsimp only at played ⊢
          rw [played, feed,
            perform_endDocument (d := { d.opened with progress := .live middle }) rfl]
          cases (Dispatcher.finishRules c).perform middle with
          | mk result after =>
            cases result with
            | error e => rfl
            | ok value => simp [feed, Content.document]

theorem feed_document (content : Content) (idle : d.state ≠ .documentStarted) :
    match (content.visit c d.trims d.fresh.site).perform d.fresh.work with
    | (.ok (), ws) => feed c content.document d = (content.document.map fun _ => .ok (),
        { d.opened with progress := .ended ws.root ws.store ws.journal })
    | (.error _, ws) => (feed c content.document d).2.progress = .aborted ws.store ws.journal := by
  have mirrored := (Context.mirrors_document (c := c) d.trims content d.fresh.site rfl
    d.fresh.work).run
  have fed := feed_playDocument (c := c) content idle
  cases run : (content.visit c d.trims d.fresh.site).perform d.fresh.work with
  | mk result ws =>
    rw [run] at mirrored
    cases result with
    | ok value =>
      change (Context.playDocument c d.trims d.rules.actions content).perform d.fresh = _ at mirrored
      rw [mirrored] at fed
      exact fed
    | error e =>
      obtain ⟨after, failed, rfl⟩ := mirrored
      change (Context.playDocument c d.trims d.rules.actions content).perform d.fresh = _ at failed
      rw [failed] at fed
      exact fed

end Event

section Recording
variable {σ α β ε : Type} {c : Catalogue σ}
open Visit

-- A step that fails only where a call it has recorded failed.
def Candid (step : Attempt ε (Workspace (Logged σ)) α) : Prop :=
  ∀ ws, match step.perform ws with
    | (.ok _, _) => True
    | (.error _, after) => ∃ call ∈ after.journal.calls, call.result ≠ .ok ()

theorem Candid.bind {step : Attempt ε (Workspace (Logged σ)) α}
    {next : α → Attempt ε (Workspace (Logged σ)) β} (first : Candid step)
    (second : ∀ a, Candid (next a)) : Candid (step >>= next) := by
  intro ws
  have here := first ws
  rw [Attempt.perform_bind]
  cases run : step.perform ws with
  | mk result after =>
    rw [run] at here
    cases result with
    | ok a => exact second a after
    | error e => exact here

theorem candid_pure (a : α) : Candid (pure a : Attempt ε (Workspace (Logged σ)) α) :=
  fun _ => trivial

theorem candid_recorded (actor : ActionId) (occasion : Occasion) (step : Step σ Unit) (site : Site) :
    Candid (step.recorded actor occasion site) := by
  intro ws
  have made := Step.perform_recorded actor occasion step site ws
  change (step.recorded actor occasion site).perform ws = _ at made
  rw [made]
  cases result : (Step.perform step site ws.plain).1 with
  | ok value => trivial
  | error e => exact ⟨⟨actor, occasion, site, ws.plain, .error e⟩, by simp [Workspace.logged], by simp⟩

theorem candid_start (ids : List ActionId) (site : Site) : Candid (c.recorded.start ids site) := by
  induction ids with
  | nil => exact candid_pure ()
  | cons id ids ih => exact (candid_recorded id .start _ site).bind fun _ => ih

theorem candid_finish (ids : List ActionId) (site : Site) : Candid (c.recorded.finish ids site) := by
  induction ids with
  | nil => exact candid_pure ()
  | cons id ids ih => exact (candid_recorded id .finish _ site).bind fun _ => ih

theorem candid_act (wrap : ActionError → DispatchError) {step : Step (Logged σ) Unit} {site : Site}
    (candid : Candid (step site)) : Candid (act wrap step site) := by
  intro ws
  have here := candid ws
  unfold act
  rw [Attempt.perform_bind, Attempt.perform_get]
  dsimp only [Step.perform]
  cases run : (step site).perform ws with
  | mk result after =>
    rw [run] at here
    cases result with
    | ok value => trivial
    | error e => exact here

theorem candid_callAll (site : Site) (occasion : Occasion) (ids : List ActionId) :
    Candid (callAll c.recorded site occasion ids) := by
  induction ids with
  | nil => exact candid_pure ()
  | cons id ids ih =>
    refine (candid_act _ ?_).bind fun _ => ih
    rw [Catalogue.answer_recorded]
    exact candid_recorded id occasion _ site

theorem candid_deliver (site : Site) (host : Host) (run : String) :
    Candid (deliver c.recorded site host run) := by
  unfold deliver
  split
  · exact candid_pure ()
  · exact candid_callAll site _ host.actions

theorem candid_conclude (trims : Bool) (site : Site) (host : Host) (text : String) :
    Candid (conclude c.recorded trims site host text) := by
  refine (candid_callAll site _ host.actions).bind fun _ => ?_
  exact (candid_callAll site _ host.actions.reverse).bind fun _ _ => trivial

theorem candid_traverse (trims : Bool) (content : Content) (site : Site) (host : Host) :
    Candid (content.traverse c.recorded trims site host) := by
  induction content generalizing site host with
  | last run => exact candid_deliver site host _
  | next run tag inner rest inside after =>
    refine (candid_deliver site host _).bind fun _ => ?_
    have looked : Candid (lookUp site tag.name : Visit (Logged σ) _) := fun _ => trivial
    refine looked.bind fun actions => ?_
    refine (candid_callAll _ _ actions).bind fun _ => ?_
    refine (inside _ ⟨tag.name, actions⟩).bind fun _ => ?_
    exact (candid_conclude trims _ ⟨tag.name, actions⟩ _).bind fun _ => after site host

theorem candid_visit (trims : Bool) (site : Site) (content : Content) :
    Candid (content.visit c.recorded trims site) := by
  refine (candid_act _ (candid_start _ site)).bind fun _ => ?_
  refine (candid_traverse trims content site _).bind fun _ => ?_
  exact candid_act _ (candid_finish _ site)

theorem work_logging (d : Dispatcher σ) : d.logging.fresh.work = d.fresh.work.logged [] := by
  cases d with
  | mk rules factory trims pending initialRoot progress =>
    cases initialRoot <;> cases progress <;> rfl

-- The calls a dispatcher makes on the events of a document are the calls of a visit to its tree. If
-- none of them fails, no event is refused and the document ends.
theorem Event.callbacks_document (content : Content) (d : Dispatcher σ)
    (idle : d.state ≠ .documentStarted)
    (unfailing : ∀ call ∈ content.callbacks c d.trims d.fresh.site d.fresh.work, call.result = .ok ()) :
    callbacks c content.document d = content.callbacks c d.trims d.fresh.site d.fresh.work ∧
      (∀ answer ∈ (feed c content.document d).1, answer = .ok ()) ∧
      (feed c content.document d).2.state = .documentEnded ∧
      ∀ calls, d.rules.table = RuleTable.after calls → d.rules.actions.Nodup := by
  have waiting : d.logging.state ≠ .documentStarted := by
    rwa [← Dispatcher.state_plain, Dispatcher.plain_logging]
  have fed := feed_document (c := c.recorded) content waiting
  have own := feed_recorded (c := c) content.document d.logging
  rw [Dispatcher.plain_logging] at own
  rw [work_logging, show d.logging.fresh.site = d.fresh.site from rfl,
    show d.logging.trims = d.trims from rfl] at fed
  have candid := candid_visit (c := c) d.trims d.fresh.site content (d.fresh.work.logged [])
  unfold Content.callbacks at unfailing ⊢
  cases run : (content.visit c.recorded d.trims d.fresh.site).perform (d.fresh.work.logged []) with
  | mk result ws =>
    rw [run] at fed candid unfailing
    cases result with
    | error e =>
      obtain ⟨call, member, failed⟩ := candid
      exact absurd (unfailing call member) failed
    | ok value =>
      dsimp only at fed
      refine ⟨?_, ?_, ?_, ?_⟩
      · rw [callbacks, fed]
        rfl
      · rw [own, fed]
        simp
      · rw [own, fed]
        rfl
      · intro calls same
        rw [Registry.actions, same]
        exact RuleTable.nodup_actions_after calls

-- An action opens a scope between two elements of its own content; the text comes in pieces.
theorem Event.callbacks_document_with_scope :
    let inner := RuleTable.after [.register (.rule "y" ⟨2⟩)]
    let table := RuleTable.after [.register (.rule "r" ⟨0⟩), .register (.rule "!*" ⟨1⟩)]
    let c : Catalogue (List String) := fun id =>
      { name := "a"
        onSegment := fun _ text => do
          Step.note (text :: ·)
          if id = ⟨0⟩ then Step.openScope (.base inner) [] none }
    let d : Dispatcher (List String) := .new (.base table) {} true []
    let content : Content := .next [" "] ⟨⟨"", "r"⟩, {}, []⟩
      (.next [] ⟨⟨"", "x"⟩, {}, []⟩ (.last ["", "s"]) (.next ["t", "u"] ⟨⟨"", "y"⟩, {}, []⟩ (.last []) (.last [])))
      (.last [])
    let calls := content.callbacks c d.trims d.fresh.site d.fresh.work
    d.state ≠ .documentStarted ∧ (∀ call ∈ calls, call.result = .ok ()) ∧
      callbacks c content.document d = calls ∧
      (calls.map fun call => (call.actor.index, call.occasion.phase, call.site.trail.path)) =
        [(0, .startParse, ""), (1, .startParse, ""), (0, .begin, "/r"), (1, .begin, "/r"),
          (1, .begin, "/r/x"), (1, .bodySegment, "/r/x"), (1, .body, "/r/x"), (1, .ending, "/r/x"),
          (0, .bodySegment, "/r"), (1, .bodySegment, "/r"), (2, .begin, "/r/y"), (2, .body, "/r/y"),
          (2, .ending, "/r/y"), (0, .body, "/r"), (1, .body, "/r"), (1, .ending, "/r"),
          (0, .ending, "/r"), (0, .finishParse, ""), (1, .finishParse, "")] := by
  intro inner table c d content calls
  have idle : d.state ≠ .documentStarted := by decide
  have unfailing : ∀ call ∈ calls, call.result = .ok () := by decide +kernel
  exact ⟨idle, unfailing, (callbacks_document content d idle unfailing).1, by decide +kernel⟩

end Recording
end XmlRules
