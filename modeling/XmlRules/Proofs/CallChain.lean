import XmlRules.Proofs.Traversal
namespace XmlRules

structure Duty where
  actor : ActionId
  occasion : Occasion
  site : Site

def Occasion.report (name path : String) (cause : ActionError) : Occasion → DispatchError
  | .start => .lifecycle .startParse cause
  | .finish => .lifecycle .finishParse cause
  | occasion => .action name occasion.phase path cause

namespace Callback
variable {σ : Type}

def duty (call : Callback σ) : Duty := ⟨call.actor, call.occasion, call.site⟩

def after (c : Catalogue σ) (call : Callback σ) : Workspace σ :=
  (Step.perform (call.occasion.answer (c call.actor)) call.site call.work).2

def report (c : Catalogue σ) (call : Callback σ) (cause : ActionError) : DispatchError :=
  call.occasion.report (c call.actor).name call.site.trail.path cause

end Callback

section Chains
variable {σ : Type} {c : Catalogue σ}

-- Calls one after another, each on the workspace that the one before it has left.
inductive Chain (c : Catalogue σ) : Workspace σ → List (Callback σ) → Workspace σ → Prop where
  | nil (ws : Workspace σ) : Chain c ws [] ws
  | cons {call : Callback σ} {rest : List (Callback σ)} {last : Workspace σ}
      (result : call.result =
        (Step.perform (call.occasion.answer (c call.actor)) call.site call.work).1)
      (later : Chain c (call.after c) rest last) : Chain c call.work (call :: rest) last

theorem Chain.append {ws middle last : Workspace σ} {calls more : List (Callback σ)}
    (first : Chain c ws calls middle) (second : Chain c middle more last) :
    Chain c ws (calls ++ more) last := by
  induction first with
  | nil ws => exact second
  | cons result _ ih => exact .cons result (ih second)

-- How a step ends after its calls: well when they all do, else with the error of the last of them,
-- which is the only one that has failed.
inductive Verdict (c : Catalogue σ) : List (Callback σ) → Except DispatchError Unit → Prop where
  | well {made : List (Callback σ)} (all : ∀ call ∈ made, call.result = .ok ()) :
      Verdict c made (.ok ())
  | failed {done : List (Callback σ)} {call : Callback σ} {cause : ActionError}
      (all : ∀ earlier ∈ done, earlier.result = .ok ()) (last : call.result = .error cause) :
      Verdict c (done ++ [call]) (.error (call.report c cause))

theorem Verdict.after {made more : List (Callback σ)} {result : Except DispatchError Unit}
    (all : ∀ call ∈ made, call.result = .ok ()) (verdict : Verdict c more result) :
    Verdict c (made ++ more) result := by
  have both : ∀ {rest : List (Callback σ)}, (∀ call ∈ rest, call.result = .ok ()) →
      ∀ call ∈ made ++ rest, call.result = .ok () := by
    intro rest further call member
    rcases List.mem_append.mp member with early | late
    · exact all call early
    · exact further call late
  cases verdict with
  | well further => exact .well (both further)
  | failed further last =>
    rw [← List.append_assoc]
    exact .failed (both further) last

theorem Verdict.ok_of_nil {result : Except DispatchError Unit} (verdict : Verdict c [] result) :
    result = .ok () := by
  generalize none : ([] : List (Callback σ)) = made at verdict
  cases verdict with
  | well all => rfl
  | failed all last => simp at none

theorem Verdict.of_failed {before left : List (Callback σ)} {call : Callback σ} {cause : ActionError}
    {result : Except DispatchError Unit} (verdict : Verdict c (before ++ call :: left) result)
    (failed : call.result = .error cause) : left = [] ∧ result = .error (call.report c cause) := by
  generalize same : before ++ call :: left = made at verdict
  cases verdict with
  | well all =>
    have fine := all call (by simp [← same])
    cases failed.symm.trans fine
  | @failed done last other all ended =>
    rcases List.eq_nil_or_concat left with rfl | ⟨init, final, rfl⟩
    · obtain ⟨_, here⟩ := List.append_inj' same rfl
      obtain rfl := List.singleton_inj.mp here
      cases failed.symm.trans ended
      exact ⟨rfl, rfl⟩
    · have ends : (before ++ call :: init) ++ [final] = done ++ [last] := by simpa using same
      have earlier := (List.append_inj' ends rfl).1
      have fine := all call (by simp [← earlier])
      cases failed.symm.trans fine

theorem Verdict.all_ok {made : List (Callback σ)} (verdict : Verdict c made (.ok ())) :
    ∀ call ∈ made, call.result = .ok () := by
  cases verdict with
  | well all => exact all

end Chains

namespace Context
variable {σ : Type} {c : Catalogue σ}

-- A step of the recording dispatcher that makes the calls that are due, up to the first that fails,
-- and leaves this site and these frames when none does.
def Runs (c : Catalogue σ) (step : ContextM (Logged σ) Unit) (ctx : Context (Logged σ))
    (due : List Duty) (site : Site) (frames : List Frame) : Prop :=
  ∃ made ws, Chain c ctx.work.plain made ws ∧ Verdict c made (step.perform ctx).1 ∧
    made.map Callback.duty <+: due ∧
    (step.perform ctx).2.work = ws.logged (ctx.work.journal.calls ++ made) ∧
    ((step.perform ctx).1 = .ok () → made.map Callback.duty = due ∧
      (step.perform ctx).2.site = site ∧ (step.perform ctx).2.frames = frames)

theorem runs_pure (ctx : Context (Logged σ)) : Runs c (pure ()) ctx [] ctx.site ctx.frames := by
  refine ⟨[], ctx.work.plain, .nil _, .well (by simp), List.prefix_refl _, ?_, fun _ => ⟨rfl, rfl, rfl⟩⟩
  rw [List.append_nil]
  rfl

theorem Runs.bind {step next : ContextM (Logged σ) Unit} {ctx : Context (Logged σ)}
    {due more : List Duty} {site place : Site} {frames outer : List Frame}
    (first : Runs c step ctx due site frames)
    (second : ∀ ws, step.perform ctx = (.ok (), ⟨site, frames, ws⟩) →
      Runs c next ⟨site, frames, ws⟩ more place outer) :
    Runs c (do step; next) ctx (due ++ more) place outer := by
  obtain ⟨made, ws, chain, verdict, part, work, whole⟩ := first
  unfold Runs
  cases run : step.perform ctx with
  | mk result after =>
    rw [run] at verdict work whole
    cases result with
    | error e =>
      rw [Attempt.perform_bind_error run]
      exact ⟨made, ws, chain, verdict, part.trans (List.prefix_append _ _), work, fun ok => nomatch ok⟩
    | ok value =>
      obtain ⟨all, here, kept⟩ := whole rfl
      cases after with
      | mk _ _ worked =>
        cases here
        cases kept
        obtain ⟨others, last, chained, judged, begun, worked', ended⟩ := second worked run
        change worked = _ at work
        subst work
        rw [Attempt.perform_bind_ok run]
        refine ⟨made ++ others, last, chain.append chained, judged.after verdict.all_ok, ?_, ?_, ?_⟩
        · rw [List.map_append, all]
          exact (List.prefix_append_right_inj _).mpr begun
        · rw [worked', ← List.append_assoc]
          rfl
        · intro ok
          obtain ⟨rest, placed⟩ := ended ok
          rw [List.map_append, all, rest]
          exact ⟨rfl, placed⟩

theorem Runs.of_perform {step other : ContextM (Logged σ) Unit} {ctx : Context (Logged σ)}
    {due : List Duty} {site : Site} {frames : List Frame} (runs : Runs c other ctx due site frames)
    (same : step.perform ctx = other.perform ctx) : Runs c step ctx due site frames := by
  unfold Runs
  rw [same]
  exact runs

theorem runs_call (occasion : Occasion) (id : ActionId) (ctx : Context (Logged σ)) :
    Runs c (Context.perform (occasion.report (c id).name ctx.path ·) (occasion.answer (c.recorded id)))
      ctx [⟨id, occasion, ctx.site⟩] ctx.site ctx.frames := by
  let call : Callback σ := ⟨id, occasion, ctx.site, ctx.work.plain,
    (Step.perform (occasion.answer (c id)) ctx.site ctx.work.plain).1⟩
  have chain : Chain c call.work [call] (call.after c) := .cons rfl (.nil _)
  have ran := Step.perform_recorded id occasion (occasion.answer (c id)) ctx.site ctx.work
  unfold Runs Context.perform
  rw [Attempt.perform_bind, Attempt.perform_get, Catalogue.answer_recorded]
  dsimp only
  rw [ran]
  refine ⟨[call], call.after c, chain, ?_⟩
  cases result : (Step.perform (occasion.answer (c id)) ctx.site ctx.work.plain).1 with
  | ok value =>
    refine ⟨.well (by simp [call, result]), List.prefix_refl _, ?_, fun _ => ⟨rfl, rfl, rfl⟩⟩
    simp only [call, result]
    rfl
  | error e =>
    refine ⟨?_, List.prefix_refl _, ?_, fun ok => nomatch ok⟩
    · have verdict : Verdict c ([] ++ [call]) (.error (call.report c e)) := .failed (by simp) result
      exact verdict
    · simp only [call, result]
      rfl

theorem runs_each (occasion : Occasion) (ids : List ActionId) (ctx : Context (Logged σ)) :
    Runs c (ids.forM fun id =>
        Context.perform (occasion.report (c id).name ctx.path ·) (occasion.answer (c.recorded id)))
      ctx (ids.map (⟨·, occasion, ctx.site⟩)) ctx.site ctx.frames := by
  obtain ⟨site, frames, work⟩ := ctx
  induction ids generalizing work with
  | nil => exact runs_pure _
  | cons id ids ih => exact (runs_call occasion id ⟨site, frames, work⟩).bind fun ws _ => ih ws

theorem perform_forM (wrap : ActionError → DispatchError) (callback : ActionId → Step (Logged σ) Unit)
    (ids : List ActionId) (ctx : Context (Logged σ)) :
    (Context.perform wrap (ids.forM callback)).perform ctx =
      (ids.forM fun id => Context.perform wrap (callback id)).perform ctx := by
  induction ids generalizing ctx with
  | nil => rfl
  | cons id ids ih =>
    change (Context.perform wrap (do callback id; ids.forM callback)).perform ctx =
      Attempt.perform (do Context.perform wrap (callback id); ids.forM _) ctx
    rw [Attempt.perform_bind]
    have split := Attempt.perform_bind (callback id ctx.site) (fun _ => ids.forM callback ctx.site)
      ctx.work
    change Step.perform (do callback id; ids.forM callback) ctx.site ctx.work = _ at split
    unfold Context.perform
    rw [Attempt.perform_bind, Attempt.perform_get, Attempt.perform_bind, Attempt.perform_get]
    dsimp only
    rw [split]
    unfold Step.perform
    cases run : (callback id ctx.site).perform ctx.work with
    | mk result ws =>
      cases result with
      | error e => rfl
      | ok value =>
        have rest := ih { ctx with work := ws }
        unfold Context.perform at rest
        rw [Attempt.perform_bind, Attempt.perform_get] at rest
        exact rest

def waiting (site : Site) : List Frame → List Duty
  | [] => []
  | frame :: _ =>
    if frame.segment = "" then []
    else frame.actions.map (⟨·, .segment frame.name frame.segment, site⟩)

def delivered : List Frame → List Frame
  | [] => []
  | frame :: frames => { frame with segment := "" } :: frames

-- The actions that the rules give for an element, as they are when the first of its beginnings is
-- called; none, if it does not come to that.
def lookedUp (calls : List (Callback σ)) : List ActionId :=
  match calls.find? fun call => call.occasion.phase = .begin with
  | some first => (first.site.active first.work).matching first.site.trail.path
  | none => []

theorem find?_begin_of_waiting {site : Site} {frames : List Frame} {made : List (Callback σ)}
    (part : made.map Callback.duty <+: waiting site frames) :
    made.find? (fun call => call.occasion.phase = .begin) = none := by
  rw [List.find?_eq_none]
  intro call member
  have due := part.subset (List.mem_map_of_mem member)
  cases frames with
  | nil => cases due
  | cons frame frames =>
    by_cases empty : frame.segment = ""
    · rw [waiting, if_pos empty] at due
      cases due
    · rw [waiting, if_neg empty] at due
      obtain ⟨id, _, same⟩ := List.mem_map.mp due
      have heard : call.occasion = .segment frame.name frame.segment :=
        (congrArg Duty.occasion same).symm
      simp [heard, Occasion.phase]

theorem runs_flush (ctx : Context (Logged σ)) :
    Runs c (flush c.recorded) ctx (waiting ctx.site ctx.frames) ctx.site (delivered ctx.frames) := by
  obtain ⟨site, frames, work⟩ := ctx
  cases frames with
  | nil => exact runs_pure _
  | cons frame frames =>
    by_cases empty : frame.segment = ""
    · have same : delivered (frame :: frames) = frame :: frames := by
        rw [delivered, ← empty]
      rw [waiting, if_pos empty, same]
      refine (runs_pure ⟨site, frame :: frames, work⟩).of_perform ?_
      rw [flush, Attempt.perform_bind, Attempt.perform_get]
      dsimp only
      rw [if_pos empty]
    · rw [waiting, if_neg empty]
      have each := runs_each (c := c) (.segment frame.name frame.segment) frame.actions
        ⟨site, delivered (frame :: frames), work⟩
      unfold Runs
      rw [flush, Attempt.perform_bind, Attempt.perform_get]
      dsimp only
      rw [if_neg empty, Attempt.perform_bind, Attempt.perform_set]
      exact each

theorem runs_beginElement (name : QName) (attrs : Attributes) (declared : List (String × String))
    (ctx : Context (Logged σ)) :
    let actions := (ctx.site.active ctx.work).matching (ctx.site.trail.enter name).path
    Runs c (beginElement c.recorded name attrs declared) ctx
      (actions.map (⟨·, .begin name attrs, ctx.site.enter name declared⟩))
      (ctx.site.enter name declared) (⟨name, actions, "", ""⟩ :: ctx.frames) := by
  intro actions
  have each := runs_each (c := c) (.begin name attrs) actions (ctx.enter name declared)
  unfold Runs beginElement
  rw [Attempt.perform_bind, Attempt.perform_get]
  dsimp only
  rw [Attempt.perform_bind, Attempt.perform_set]
  exact each

theorem lookedUp_of_begun {name : QName} {attrs : Attributes} {site : Site} {ids : List ActionId}
    {ws last : Workspace σ} {made : List (Callback σ)} {result : Except DispatchError Unit}
    (chain : Chain c ws made last) (verdict : Verdict c made result)
    (part : made.map Callback.duty <+: ids.map (⟨·, .begin name attrs, site⟩))
    (whole : result = .ok () → made.map Callback.duty = ids.map (⟨·, .begin name attrs, site⟩))
    (matched : ids = (site.active ws).matching site.trail.path) : lookedUp made = ids := by
  cases chain with
  | nil =>
    have none := whole verdict.ok_of_nil
    rw [List.map_eq_nil_iff.mp none.symm]
    rfl
  | @cons first rest _ same later =>
    have due := part.subset (List.mem_map_of_mem List.mem_cons_self)
    obtain ⟨id, _, duty⟩ := List.mem_map.mp due
    have begins : first.occasion = .begin name attrs := (congrArg Duty.occasion duty).symm
    have here : first.site = site := (congrArg Duty.site duty).symm
    unfold lookedUp
    rw [List.find?_cons_of_pos (by simp [begins, Occasion.phase]), matched]
    dsimp only
    rw [here]

theorem lookedUp_openElement (name : QName) (attrs : Attributes) (declared : List (String × String))
    {site : Site} {frames : List Frame} {work : Workspace σ} {ws : Workspace (Logged σ)}
    (told : (flush c.recorded).perform ⟨site, frames, work.logged []⟩ =
      (.ok (), ⟨site, delivered frames, ws⟩)) :
    lookedUp ((openElement c.recorded name attrs declared).perform
        ⟨site, frames, work.logged []⟩).2.work.journal.calls =
      (site.active ws).matching (site.trail.enter name).path := by
  obtain ⟨texts, _, _, _, part, recorded, -⟩ := runs_flush (c := c) ⟨site, frames, work.logged []⟩
  obtain ⟨made, last, chain, verdict, begins, worked, whole⟩ :=
    runs_beginElement (c := c) name attrs declared ⟨site, delivered frames, ws⟩
  rw [told] at recorded
  change ws = _ at recorded
  have calls : ((openElement c.recorded name attrs declared).perform
      ⟨site, frames, work.logged []⟩).2.work.journal.calls = texts ++ made := by
    rw [perform_openElement, Attempt.perform_bind_ok told, worked, recorded]
    rfl
  rw [calls]
  unfold lookedUp
  rw [List.find?_append, find?_begin_of_waiting part]
  exact lookedUp_of_begun chain verdict begins (fun fine => (whole fine).1) rfl

theorem runs_openElement (name : QName) (attrs : Attributes) (declared : List (String × String))
    (site : Site) (frames : List Frame) (work : Workspace σ) :
    let ctx : Context (Logged σ) := ⟨site, frames, work.logged []⟩
    let actions :=
      lookedUp ((openElement c.recorded name attrs declared).perform ctx).2.work.journal.calls
    Runs c (openElement c.recorded name attrs declared) ctx
      (waiting site frames ++ actions.map (⟨·, .begin name attrs, site.enter name declared⟩))
      (site.enter name declared) (⟨name, actions, "", ""⟩ :: delivered frames) := by
  intro ctx actions
  refine Runs.of_perform ?_ (perform_openElement c.recorded name attrs declared ctx)
  refine (runs_flush (c := c) ctx).bind fun ws told => ?_
  have begun := runs_beginElement (c := c) name attrs declared ⟨site, delivered frames, ws⟩
  rw [← lookedUp_openElement name attrs declared told] at begun
  exact begun

def callEndings (c : Catalogue σ) (frame : Frame) (text : String) : ContextM σ Unit := do
  let path := (← get).path
  flush c
  performAll c .body path (·.onBody frame.name text) frame.actions
  performAll c .ending path (·.onEnd frame.name) frame.actions.reverse

theorem perform_closeElement_of_frame (c : Catalogue σ) (trims : Bool) {ctx : Context σ}
    {frame : Frame} {frames : List Frame} (innermost : ctx.frames = frame :: frames) :
    (closeElement c trims frame.name).perform ctx =
      match (callEndings c frame (if trims then Text.trimmed frame.body else frame.body)).perform
        ctx with
      | (.ok (), after) => (.ok (), after.leave)
      | (.error e, after) => (.error e, after) := by
  unfold closeElement callEndings
  rw [Attempt.perform_bind, Attempt.perform_get, Attempt.perform_bind, Attempt.perform_get]
  dsimp only
  rw [innermost]
  dsimp only
  rw [if_neg (by simp)]
  simp only [Attempt.perform_bind]
  cases (flush c).perform ctx with
  | mk result flushed =>
    cases result with
    | error e => rfl
    | ok value =>
      dsimp only
      cases (performAll c .body ctx.path _ frame.actions).perform flushed with
      | mk result told =>
        cases result with
        | error e => rfl
        | ok value =>
          dsimp only
          cases (performAll c .ending ctx.path _ frame.actions.reverse).perform told with
          | mk result ended => cases result <;> rfl

theorem runs_callEndings (frame : Frame) (text : String) (ctx : Context (Logged σ)) :
    Runs c (callEndings c.recorded frame text) ctx
      (waiting ctx.site ctx.frames ++
        (frame.actions.map (⟨·, .body frame.name text, ctx.site⟩) ++
          frame.actions.reverse.map (⟨·, .ending frame.name, ctx.site⟩)))
      ctx.site (delivered ctx.frames) := by
  have split : (callEndings c.recorded frame text).perform ctx = Attempt.perform (do
      flush c.recorded
      performAll c.recorded .body ctx.path (·.onBody frame.name text) frame.actions
      performAll c.recorded .ending ctx.path (·.onEnd frame.name) frame.actions.reverse) ctx := rfl
  refine Runs.of_perform ?_ split
  refine (runs_flush ctx).bind fun ws _ => ?_
  refine (runs_each (.body frame.name text) frame.actions _).bind fun ws _ => ?_
  exact runs_each (.ending frame.name) frame.actions.reverse _

end Context

def Event.matched {σ : Type} (c : Catalogue σ) (e : Event) (d : Dispatcher σ) : List ActionId :=
  Context.lookedUp (callbacks c [e] d)

-- What an event asks for: the document it works on, the calls that are due there, and what comes of
-- the document when none of them fails.
inductive Event.Asks {σ : Type} (c : Catalogue σ) (d : Dispatcher σ) :
    Event → Context σ → List Duty → (Workspace σ → Progress σ) → Prop where
  | startDocument (idle : d.state ≠ .documentStarted) :
      Asks c d .startDocument d.fresh (d.rules.actions.map (⟨·, .start, d.fresh.site⟩))
        fun ws => .live ⟨d.fresh.site, [], ws⟩
  | start {ctx : Context σ} (live : d.progress = .live ctx) (name : QName) (attrs : Attributes) :
      Asks c d (.start name attrs) ctx
        (Context.waiting ctx.site ctx.frames ++
          (matched c (.start name attrs) d).map
            (⟨·, .begin name attrs, ctx.site.enter name d.pending⟩))
        fun ws => .live ⟨ctx.site.enter name d.pending,
          ⟨name, matched c (.start name attrs) d, "", ""⟩ :: Context.delivered ctx.frames, ws⟩
  | text {ctx : Context σ} (live : d.progress = .live ctx) (content : String) :
      Asks c d (.text content) ctx [] fun ws => .live { ctx.addText content with work := ws }
  | finish {ctx : Context σ} (live : d.progress = .live ctx) {frame : Frame} {frames : List Frame}
      (innermost : ctx.frames = frame :: frames) :
      Asks c d (.finish frame.name) ctx
        (Context.waiting ctx.site ctx.frames ++
          (frame.actions.map (⟨·, .body frame.name
              (if d.trims then Text.trimmed frame.body else frame.body), ctx.site⟩) ++
            frame.actions.reverse.map (⟨·, .ending frame.name, ctx.site⟩)))
        fun ws => .live (Context.leave ⟨ctx.site, Context.delivered ctx.frames, ws⟩)
  | endDocument {ctx : Context σ} (live : d.progress = .live ctx) (closed : ctx.depth = 0) :
      Asks c d .endDocument ctx (ctx.site.rules.actions.map (⟨·, .finish, ctx.site⟩))
        fun ws => .ended ws.root ws.store ws.journal

def Event.aside : Event → Bool
  | .startDocument | .declare _ _ | .setRoot _ | .takeRoot => true
  | _ => false

namespace Dispatcher
variable {σ : Type} {d : Dispatcher σ}

def settleAs (d : Dispatcher σ) (settle : Context σ → Progress σ) :
    Except DispatchError Unit × Context σ → Except DispatchError Unit × Dispatcher σ
  | (.ok (), after) => (.ok (), { d with progress := settle after })
  | (.error e, after) => (.error e, d.abandon after)

theorem settle_eq (d : Dispatcher σ) (ran : Except DispatchError Unit × Context σ) :
    d.settle ran = d.settleAs .live ran := by
  obtain ⟨result, after⟩ := ran
  cases result <;> rfl

theorem journal_settleAs (d : Dispatcher σ) (ran : Except DispatchError Unit × Context σ) :
    (d.settleAs .live ran).2.progress.journal = ran.2.work.journal := by
  obtain ⟨result, after⟩ := ran
  cases result <;> rfl

theorem logging_live {ctx : Context σ} (live : d.progress = .live ctx) :
    d.logging.progress = .live { ctx with work := ctx.work.logged [] } := by
  change d.progress.logging = _
  rw [live]
  rfl

theorem calls_logging (d : Dispatcher σ) : d.logging.progress.journal.calls = [] := by
  rw [journal_logging]

end Dispatcher

namespace Event
variable {σ : Type} {c : Catalogue σ} {d : Dispatcher σ}

-- The calls of an event and what it comes to. An event that asks for nothing, because it does not
-- fit or has nothing to do with the rules, makes no call and brings no document to life.
inductive Outcome (c : Catalogue σ) (d : Dispatcher σ) (e : Event) : Prop where
  | asked {ctx : Context σ} {due : List Duty} {settled : Workspace σ → Progress σ}
      {ws : Workspace σ} (asks : Asks c d e ctx due settled)
      (chain : Chain c ctx.work (callbacks c [e] d) ws)
      (verdict : Verdict c (callbacks c [e] d) ((e.run c).perform d).1)
      (part : (callbacks c [e] d).map Callback.duty <+: due)
      (well : ((e.run c).perform d).1 = .ok () → (callbacks c [e] d).map Callback.duty = due ∧
        ((e.run c).perform d).2.progress = settled ws)
      (badly : ((e.run c).perform d).1 ≠ .ok () →
        ((e.run c).perform d).2.progress = .aborted ws.store ws.journal)
  | silent (none : callbacks c [e] d = [])
      (same : ∀ ctx, ((e.run c).perform d).2.progress = .live ctx →
        d.progress = .live ctx ∧ e.aside)

theorem perform_of_recorded (e : Event) (d : Dispatcher σ) :
    (e.run c).perform d =
      (((e.run c.recorded).perform d.logging).1, ((e.run c.recorded).perform d.logging).2.plain) := by
  have told := Dispatcher.shadows_run c.shadows_recorded e d.logging
  unfold Attempt.Shadows at told
  rwa [← Dispatcher.plain_eq, ← Dispatcher.plain_eq, Dispatcher.plain_logging] at told

theorem callbacks_single (e : Event) (d : Dispatcher σ) :
    callbacks c [e] d = ((e.run c.recorded).perform d.logging).2.progress.journal.calls := rfl

theorem outcome_of_runs {e : Event} {ctx : Context σ} {due : List Duty}
    {settled : Workspace σ → Progress σ} (asks : Asks c d e ctx due settled)
    {step : ContextM (Logged σ) Unit} {site : Site} {frames : List Frame}
    (runs : Context.Runs c step { ctx with work := ctx.work.logged [] } due site frames)
    (opened : Dispatcher (Logged σ)) (settle : Context (Logged σ) → Progress (Logged σ))
    (same : (e.run c.recorded).perform d.logging =
      opened.settleAs settle (step.perform { ctx with work := ctx.work.logged [] }))
    (settles : ∀ ws calls, (settle ⟨site, frames, ws.logged calls⟩).plain = settled ws ∧
      (settle ⟨site, frames, ws.logged calls⟩).journal.calls = calls) : Outcome c d e := by
  obtain ⟨made, ws, chain, verdict, part, work, whole⟩ := runs
  cases run : step.perform { ctx with work := ctx.work.logged [] } with
  | mk result after =>
    rw [run] at same verdict work whole
    change after.work = ws.logged made at work
    cases result with
    | error failure =>
      have calls : callbacks c [e] d = made := by
        rw [callbacks_single, same]
        change after.work.journal.calls = made
        rw [work]
        rfl
      refine .asked asks (calls.symm ▸ chain) ?_ ?_ ?_ ?_
      · rw [calls, perform_of_recorded, same]
        exact verdict
      · rw [calls]
        exact part
      · rw [perform_of_recorded, same]
        exact fun ok => nomatch ok
      · intro _
        rw [perform_of_recorded, same]
        change Progress.aborted after.work.store after.work.journal.own = _
        rw [work]
        rfl
    | ok value =>
      obtain ⟨all, here, kept⟩ := whole rfl
      have placed : after = ⟨site, frames, ws.logged made⟩ := by
        cases after
        cases here
        cases kept
        cases work
        rfl
      have calls : callbacks c [e] d = made := by
        rw [callbacks_single, same, placed]
        exact (settles ws made).2
      refine .asked asks (calls.symm ▸ chain) ?_ ?_ ?_ ?_
      · rw [calls, perform_of_recorded, same]
        exact verdict
      · rw [calls]
        exact part
      · intro _
        rw [calls, perform_of_recorded, same, placed]
        exact ⟨all, (settles ws made).1⟩
      · rw [perform_of_recorded, same]
        exact fun bad => absurd rfl bad

theorem outcome_of_over {e : Event} {answer : Except DispatchError Unit}
    {next : Dispatcher (Logged σ)} (same : (e.run c.recorded).perform d.logging = (answer, next))
    (silent : next.progress.journal.calls = []) (ended : next.state ≠ .documentStarted) :
    Outcome c d e := by
  refine .silent ?_ ?_
  · rw [callbacks_single, same]
    exact silent
  · intro ctx going
    rw [perform_of_recorded, same] at going
    rw [← Dispatcher.state_plain] at ended
    exact absurd (Dispatcher.state_of_live going) ended

theorem outcome_of_refused {e : Event} (idle : d.state ≠ .documentStarted)
    (step : ContextM (Logged σ) Unit) (opened : Dispatcher (Logged σ))
    (alike : opened.progress = d.logging.progress)
    (same : (e.run c.recorded).perform d.logging = (Dispatcher.withContext step).perform opened) :
    Outcome c d e := by
  have waits : opened.state ≠ .documentStarted := by
    rwa [Dispatcher.state, alike, ← Dispatcher.state, Dispatcher.state_logging]
  obtain ⟨misuse, told⟩ := Dispatcher.perform_withContext_idle waits step
  refine outcome_of_over (same.trans told) ?_ waits
  rw [alike]
  exact Dispatcher.calls_logging d

theorem outcome_startDocument (c : Catalogue σ) (d : Dispatcher σ) : Outcome c d .startDocument := by
  by_cases started : d.state = .documentStarted
  · have refused := perform_startDocument_refused (c := c.recorded) (d := d.logging)
      (by rwa [Dispatcher.state_logging])
    refine .silent ?_ ?_
    · rw [callbacks_single, refused]
      exact Dispatcher.calls_logging d
    · intro after going
      rw [perform_of_recorded, refused, Dispatcher.plain_logging] at going
      exact ⟨going, rfl⟩
  · have fresh : d.logging.fresh = { d.fresh with work := d.fresh.work.logged [] } := by
      rw [← work_logging]
      rfl
    have each := Context.runs_each (c := c) .start d.rules.actions d.logging.fresh
    rw [fresh] at each
    refine outcome_of_runs (.startDocument started)
      (each.of_perform (Context.perform_forM _ (fun id => (c.recorded id).onStart) _ _))
      d.logging.opened .live ?_ fun ws calls => ⟨rfl, rfl⟩
    rw [perform_startDocument d.logging (by rwa [Dispatcher.state_logging]),
      Dispatcher.perform_withContext (d := d.logging.opened) rfl, fresh]
    exact Dispatcher.settle_eq _ _

theorem perform_start_logging {ctx : Context σ} (live : d.progress = .live ctx) (name : QName)
    (attrs : Attributes) :
    ((Event.start name attrs).run c.recorded).perform d.logging =
      ({ d.logging with pending := [] } : Dispatcher (Logged σ)).settleAs .live
        ((Context.openElement c.recorded name attrs d.pending).perform
          { ctx with work := ctx.work.logged [] }) := by
  rw [perform_start, Dispatcher.perform_withContext (d := { d.logging with pending := [] })
    (Dispatcher.logging_live live)]
  exact Dispatcher.settle_eq _ _

theorem matched_start {ctx : Context σ} (live : d.progress = .live ctx) (name : QName)
    (attrs : Attributes) :
    matched c (.start name attrs) d = Context.lookedUp
      ((Context.openElement c.recorded name attrs d.pending).perform
        { ctx with work := ctx.work.logged [] }).2.work.journal.calls := by
  unfold matched
  rw [callbacks_single, perform_start_logging live, Dispatcher.journal_settleAs]

theorem outcome_start (c : Catalogue σ) (d : Dispatcher σ) (name : QName) (attrs : Attributes) :
    Outcome c d (.start name attrs) := by
  by_cases started : d.state = .documentStarted
  · obtain ⟨ctx, live⟩ := Dispatcher.live_of_started started
    have runs := Context.runs_openElement (c := c) name attrs d.pending ctx.site ctx.frames ctx.work
    refine outcome_of_runs (.start live name attrs) ?_ { d.logging with pending := [] } .live
      (perform_start_logging live name attrs) fun ws calls => ⟨rfl, rfl⟩
    rw [matched_start live]
    exact runs
  · exact outcome_of_refused started _ { d.logging with pending := [] } rfl
      (perform_start d.logging name attrs)

theorem outcome_text (c : Catalogue σ) (d : Dispatcher σ) (content : String) :
    Outcome c d (.text content) := by
  by_cases started : d.state = .documentStarted
  · obtain ⟨ctx, live⟩ := Dispatcher.live_of_started started
    have runs : Context.Runs c (modify (·.addText content))
        { ctx with work := ctx.work.logged [] } [] ctx.site (ctx.addText content).frames := by
      obtain ⟨site, frames, work⟩ := ctx
      refine ⟨[], work, .nil _, .well (by simp), List.prefix_refl _, ?_, fun _ => ?_⟩
      · cases frames <;> rfl
      · cases frames <;> exact ⟨rfl, rfl, rfl⟩
    refine outcome_of_runs (.text live content) runs d.logging .live ?_ ?_
    · change (Dispatcher.withContext (modify (·.addText content))).perform d.logging = _
      rw [Dispatcher.perform_withContext (Dispatcher.logging_live live)]
      exact Dispatcher.settle_eq _ _
    · obtain ⟨site, frames, work⟩ := ctx
      intro ws calls
      cases frames <;> exact ⟨rfl, rfl⟩
  · exact outcome_of_refused started (modify (·.addText content)) d.logging rfl rfl

theorem outcome_finish (c : Catalogue σ) (d : Dispatcher σ) (name : QName) :
    Outcome c d (.finish name) := by
  by_cases started : d.state = .documentStarted
  · obtain ⟨ctx, live⟩ := Dispatcher.live_of_started started
    let logged : Context (Logged σ) := { ctx with work := ctx.work.logged [] }
    have closed : ((Event.finish name).run c.recorded).perform d.logging =
        d.logging.settle ((Context.closeElement c.recorded d.trims name).perform logged) := by
      rw [perform_finish, Dispatcher.perform_withContext (Dispatcher.logging_live live)]
      rfl
    by_cases fits : ∃ frame frames, ctx.frames = frame :: frames ∧ frame.name = name
    · obtain ⟨frame, frames, innermost, rfl⟩ := fits
      refine outcome_of_runs (.finish live innermost) (Context.runs_callEndings (c := c) frame
        (if d.trims then Text.trimmed frame.body else frame.body) logged)
        d.logging (fun ctx => .live ctx.leave) ?_ fun ws calls => ⟨rfl, rfl⟩
      have split := Context.perform_closeElement_of_frame c.recorded d.trims
        (show logged.frames = frame :: frames from innermost)
      rw [closed, split]
      cases (Context.callEndings c.recorded frame _).perform logged with
      | mk result after => cases result <;> rfl
    -- The element that is named is not the innermost one.
    · have misused : ∃ misuse, (Context.closeElement c.recorded d.trims name).perform logged =
          (.error (.internal misuse), logged) := by
        unfold Context.closeElement
        rw [Attempt.perform_bind, Attempt.perform_get]
        dsimp only
        rw [show logged.frames = ctx.frames from rfl]
        cases shape : ctx.frames with
        | nil => exact ⟨_, rfl⟩
        | cons frame frames =>
          have other : frame.name ≠ name := fun same => fits ⟨frame, frames, shape, same⟩
          dsimp only
          rw [if_pos other]
          exact ⟨_, rfl⟩
      obtain ⟨misuse, told⟩ := misused
      rw [told] at closed
      exact outcome_of_over closed rfl (by simp [Dispatcher.abandon, Dispatcher.state, Progress.state])
  · exact outcome_of_refused started _ d.logging rfl (perform_finish d.logging name)

theorem perform_finishRules_refused {ctx : Context σ} (inside : ctx.depth ≠ 0) :
    (Dispatcher.finishRules c).perform ctx = (.error (.internal (.stillOpen ctx.path)), ctx) := by
  unfold Dispatcher.finishRules
  rw [Attempt.perform_bind, Attempt.perform_get]
  dsimp only
  rw [if_pos (Nat.pos_of_ne_zero inside)]
  rfl

theorem runs_finishRules {ctx : Context σ} (closed : ctx.depth = 0) :
    Context.Runs c (Dispatcher.finishRules c.recorded) { ctx with work := ctx.work.logged [] }
      (ctx.site.rules.actions.map (⟨·, .finish, ctx.site⟩)) ctx.site ctx.frames := by
  let logged : Context (Logged σ) := { ctx with work := ctx.work.logged [] }
  have each := Context.runs_each (c := c) .finish ctx.site.rules.actions logged
  have done : ¬ 0 < logged.depth := by
    rw [show logged.depth = ctx.depth from rfl, closed]
    exact Nat.lt_irrefl 0
  refine each.of_perform ?_
  unfold Dispatcher.finishRules
  rw [Attempt.perform_bind, Attempt.perform_get]
  dsimp only
  rw [if_neg done]
  exact Context.perform_forM _ (fun id => (c.recorded id).onFinish) _ logged

theorem outcome_endDocument (c : Catalogue σ) (d : Dispatcher σ) : Outcome c d .endDocument := by
  by_cases started : d.state = .documentStarted
  · obtain ⟨ctx, live⟩ := Dispatcher.live_of_started started
    let logged : Context (Logged σ) := { ctx with work := ctx.work.logged [] }
    have ended := perform_endDocument (c := c.recorded) (Dispatcher.logging_live live)
    by_cases closed : ctx.depth = 0
    · refine outcome_of_runs (.endDocument live closed) (runs_finishRules closed)
        d.logging (fun after => .ended after.work.root after.work.store after.work.journal) ?_
        fun ws calls => ⟨rfl, rfl⟩
      rw [ended]
      cases (Dispatcher.finishRules c.recorded).perform logged with
      | mk result after => cases result <;> rfl
    · rw [perform_finishRules_refused (show logged.depth ≠ 0 from closed)] at ended
      exact outcome_of_over ended rfl (by simp [Dispatcher.abandon, Dispatcher.state, Progress.state])
  · obtain ⟨misuse, refused⟩ := Dispatcher.perform_withContext_idle
      (d := d.logging) (by rwa [Dispatcher.state_logging]) (Dispatcher.finishRules c.recorded)
    have told : (Event.endDocument.run c.recorded).perform d.logging =
        (.error (.internal misuse), d.logging) := Attempt.perform_bind_error refused _
    exact outcome_of_over told (Dispatcher.calls_logging d) (by rwa [Dispatcher.state_logging])

theorem ended_of_ok (ok : ((Event.endDocument.run c).perform d).1 = .ok ()) :
    ∃ ctx ws, d.progress = .live ctx ∧ Chain c ctx.work (callbacks c [.endDocument] d) ws ∧
      (callbacks c [.endDocument] d).map Callback.duty =
        ctx.site.rules.actions.map (⟨·, .finish, ctx.site⟩) ∧
      (∀ call ∈ callbacks c [.endDocument] d, call.result = .ok ()) ∧
      ((Event.endDocument.run c).perform d).2.progress = .ended ws.root ws.store ws.journal := by
  by_cases started : d.state = .documentStarted
  · obtain ⟨ctx, live⟩ := Dispatcher.live_of_started started
    by_cases closed : ctx.depth = 0
    · obtain ⟨made, ws, chain, verdict, -, worked, whole⟩ := runs_finishRules (c := c) closed
      rw [perform_of_recorded] at ok ⊢
      rw [callbacks_single]
      rw [perform_endDocument (c := c.recorded) (Dispatcher.logging_live live)] at ok ⊢
      cases ran : (Dispatcher.finishRules c.recorded).perform { ctx with work := ctx.work.logged [] } with
      | mk result left =>
        rw [ran] at ok verdict worked whole
        cases result with
        | error failure => cases ok
        | ok value =>
          change left.work = ws.logged made at worked
          have calls : left.work.journal.calls = made := by rw [worked]; rfl
          refine ⟨ctx, ws, live, ?_, ?_, ?_, ?_⟩
          · exact calls.symm ▸ chain
          · exact calls.symm ▸ (whole rfl).1
          · exact calls.symm ▸ verdict.all_ok
          · change Progress.ended left.work.root left.work.store left.work.journal.own = _
            rw [worked]
            rfl
    · rw [perform_endDocument live, perform_finishRules_refused closed] at ok
      cases ok
  · obtain ⟨misuse, refused⟩ := Dispatcher.perform_withContext_idle started (Dispatcher.finishRules c)
    have told : (Event.endDocument.run c).perform d = (.error (.internal misuse), d) :=
      Attempt.perform_bind_error refused _
    rw [told] at ok
    cases ok

theorem outcome (c : Catalogue σ) (e : Event) (d : Dispatcher σ) : Outcome c d e := by
  cases e with
  | startDocument => exact outcome_startDocument c d
  | start name attrs => exact outcome_start c d name attrs
  | text content => exact outcome_text c d content
  | finish name => exact outcome_finish c d name
  | endDocument => exact outcome_endDocument c d
  | declare label uri => exact .silent (Dispatcher.calls_logging d) fun ctx going => ⟨going, rfl⟩
  | setRoot object => exact .silent (Dispatcher.calls_logging d) fun ctx going => ⟨going, rfl⟩
  | takeRoot =>
    obtain ⟨rules, factory, trims, pending, initialRoot, progress⟩ := d
    cases progress with
    | live ctx => exact .silent rfl fun _ going => ⟨going, rfl⟩
    | idle journal => exact .silent rfl fun _ going => nomatch going
    | ended root store journal => exact .silent rfl fun _ going => nomatch going
    | aborted store journal => exact .silent rfl fun _ going => nomatch going
  | abort =>
    obtain ⟨rules, factory, trims, pending, initialRoot, progress⟩ := d
    cases progress <;> exact .silent rfl fun _ going => nomatch going

end Event
end XmlRules
