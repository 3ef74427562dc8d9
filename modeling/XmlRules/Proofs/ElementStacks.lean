import XmlRules.Proofs.ScopedDocument
import XmlRules.Proofs.StockStacks
namespace XmlRules

namespace Context
variable {σ : Type} {actions : ActionId → StockAction}

theorem perform_error {wrap : ActionError → DispatchError} {step : Step σ Unit} {ctx next : Context σ}
    {e : DispatchError} (failed : (perform wrap step).perform ctx = (.error e, next)) :
    ∃ cause, Step.perform step ctx.site ctx.work = (.error cause, next.work) := by
  unfold perform at failed
  rw [Attempt.perform_bind, Attempt.perform_get] at failed
  dsimp only at failed
  cases run : Step.perform step ctx.site ctx.work with
  | mk result work =>
    rw [run] at failed
    cases result with
    | ok value => cases failed
    | error cause =>
      cases failed
      exact ⟨cause, rfl⟩

theorem performAll_error {c : Catalogue σ} {phase : Phase} {path : String}
    {callback : Behaviour σ → Step σ Unit} {ids : List ActionId} {ctx next : Context σ}
    {e : DispatchError}
    (failed : (performAll c phase path callback ids).perform ctx = (.error e, next)) :
    ∃ cause, Step.perform (ids.forM fun id => callback (c id)) ctx.site ctx.work =
      (.error cause, next.work) := by
  induction ids generalizing ctx with
  | nil => cases failed
  | cons id ids ih =>
    rcases Attempt.error_of_bind failed with first | ⟨_, middle, first, later⟩
    · obtain ⟨cause, called⟩ := perform_error first
      exact ⟨cause, Attempt.perform_bind_error called _⟩
    · obtain ⟨work, called, rfl⟩ := perform_ok first
      obtain ⟨cause, rest⟩ := ih later
      exact ⟨cause, (Attempt.perform_bind_ok called _).trans rest⟩

theorem ends_performAll {c : Catalogue σ} {phase : Phase} {path : String}
    {callback : Behaviour σ → Step σ Unit} {ids : List ActionId} {ctx : Context σ}
    {after failed : Workspace σ → Prop}
    (ends : Step.Ends (ids.forM fun id => callback (c id)) ctx.site ctx.work (fun _ => after) failed) :
    Attempt.Ends (performAll c phase path callback ids) ctx
      (fun _ next => ∃ work, next = { ctx with work } ∧ after work) (fun next => failed next.work) := by
  refine ⟨fun _ next ran => ?_, fun e next ran => ?_⟩
  · obtain ⟨work, called, rfl⟩ := performAll_ok ran
    exact ⟨work, rfl, ends.1 () work called⟩
  · obtain ⟨cause, called⟩ := performAll_error ran
    exact ends.2 cause next.work called

variable {base : Workspace σ} {held : List (Callback σ)} {ctx : Context (Logged σ)}

theorem ends_flush (depth : Nat) (holding : Holding actions base held ctx.work) :
    Attempt.Ends (flush (recordedStock actions depth)) ctx
      (fun _ next => Holding actions base held next.work) (fun next => Recorded actions next.work) := by
  apply Attempt.Ends.get
  split
  · exact .pure holding
  · rename_i frame frames shape
    split
    · exact .pure holding
    · apply Attempt.Ends.set
      have idles : Step.Idles (frame.actions.forM fun id =>
          (recordedStock actions depth id : Behaviour (Logged σ)).onSegment frame.name frame.segment) :=
        Step.idles_forM _ fun id =>
          idles_stock actions (.segment frame.name frame.segment) rfl depth id
      refine (ends_performAll (idles.ends holding)).weaken fun _ next told => ?_
      obtain ⟨work, rfl, holding⟩ := told
      exact holding

def innermost (actions : ActionId → StockAction) (depth : Nat) (root : Registry) (tags : List OpenTag)
    (tag : OpenTag) : Level :=
  let nested : ActionId → Option NestedRules := fun id => (actions id).nested?
  Level.within nested depth root (levels nested depth root tags) tags tag

def keepers (actions : ActionId → StockAction) (depth : Nat) (root : Registry) :
    List OpenTag → List (ActionId × Trail)
  | [] => []
  | tag :: tags =>
    let level := innermost actions depth root tags tag
    ((level.actions.flatMap (holders actions level.mount depth)).map
      (·, trailOf (tag :: tags))).reverse ++ keepers actions depth root tags

-- A document in progress with what the actions of its open elements hold.
structure Stands (actions : ActionId → StockAction) (depth : Nat) (base : Workspace σ)
    (root : Registry) (tags : List OpenTag) (held : List (Callback σ)) (ctx : Context (Logged σ)) :
    Prop where
  follows : Follows (fun id => (actions id).nested?) depth root tags ctx
  holding : Holding actions base held ctx.work
  kept : held.map Callback.holder = keepers actions depth root tags

variable {depth : Nat} {root : Registry} {tags : List OpenTag}

theorem Stands.ends_flush (stands : Stands actions depth base root tags held ctx) :
    Attempt.Ends (flush (recordedStock actions depth)) ctx
      (fun _ next => Stands actions depth base root tags held next)
      (fun next => Recorded actions next.work) := by
  have flushed := (Context.ends_flush depth stands.holding).also fun _ t ran =>
    stands.follows.alike (alike_flush (fun id name text =>
      (nesting_recorded (σ := σ) actions).quiet_aside (.segment name text) rfl depth id) ran)
  exact flushed.weaken fun _ t between => ⟨between.1, between.2, stands.kept⟩

theorem ends_beginElement (depth : Nat) (holding : Holding actions base held ctx.work) (name : QName)
    (attrs : Attributes) (declared : List (String × String)) :
    let site := ctx.site.enter name declared
    Attempt.Ends (beginElement (recordedStock actions depth) name attrs declared) ctx
      (fun _ next => Grown actions base
        (((ctx.site.active ctx.work).matching site.trail.path).flatMap
          (holders actions (site.mount attrs) depth)) site.trail held next.work)
      (fun next => Recorded actions next.work) := by
  intro site
  apply Attempt.Ends.get
  apply Attempt.Ends.set
  refine (ends_performAll (ends_begins depth name attrs _ site holding)).weaken fun _ _ grown => ?_
  obtain ⟨work, rfl, grown⟩ := grown
  exact grown

theorem Stands.openElement (stands : Stands actions depth base root tags held ctx) (name : QName)
    (attrs : Attributes) (declared : List (String × String)) :
    Attempt.Ends (openElement (recordedStock actions depth) name attrs declared) ctx
      (fun _ next => ∃ new, Stands actions depth base root ((name, attrs) :: tags) (new ++ held) next)
      (fun next => Recorded actions next.work) := by
  have nesting := nesting_recorded (σ := σ) actions
  unfold Attempt.Ends
  rw [perform_openElement]
  refine stands.ends_flush.bind fun _ t stands => ?_
  have begun := (ends_beginElement depth stands.holding name attrs declared).also fun _ next ran =>
    stands.follows.beginElement nesting ran
  refine begun.weaken fun _ next ended => ?_
  obtain ⟨follows, new, same, holding⟩ := ended
  refine ⟨new, follows, holding, ?_⟩
  rw [stands.follows.matching_enter (name, attrs), stands.follows.mount_enter (name, attrs),
    stands.follows.trail_enter (name, attrs)] at same
  rw [List.map_append, same, stands.kept]
  rfl

section Innermost
variable {tag : OpenTag} (stands : Stands actions depth base root (tag :: tags) held ctx)

include stands

theorem Stands.here : (innermost actions depth root tags tag).mount.depth = ctx.site.trail.depth := by
  rw [stands.follows.trail, depth_trailOf]
  rfl

theorem Stands.scopes : ctx.work.scopes =
    (innermost actions depth root tags tag).scopes ++
      (levels (fun id => (actions id).nested?) depth root tags).flatMap Level.scopes :=
  stands.follows.scopes

theorem Stands.mounted :
    Mounted actions (innermost actions depth root tags tag).mount ctx.work.scopes := by
  intro scope member on
  rw [stands.scopes] at member
  rcases List.mem_append.mp member with own | further
  · have known : innermost actions depth root tags tag ∈
        levels (fun id => (actions id).nested?) depth root (tag :: tags) := List.mem_cons_self
    exact installed_of_mem_levels known own
  · have outside := mountDepth_le further
    have inside : scope.mountDepth = tags.length + 1 := on
    omega

theorem Stands.grown : ∃ closed rest, held = closed ++ rest ∧
    rest.map Callback.holder = keepers actions depth root tags ∧
    Grown actions base ((innermost actions depth root tags tag).actions.flatMap
      (holders actions (innermost actions depth root tags tag).mount depth)) ctx.site.trail rest
      ctx.work := by
  obtain ⟨closed, rest, rfl, own, further⟩ := List.map_eq_append_iff.mp stands.kept
  rw [← stands.follows.trail] at own
  exact ⟨closed, rest, rfl, further, closed, own, stands.holding⟩

theorem Stands.pending : ∀ holder ∈ (innermost actions depth root tags tag).actions.flatMap
    (holders actions (innermost actions depth root tags tag).mount depth),
      ∃ own ∈ held, own.actor = holder := by
  intro holder member
  have known : (holder, trailOf (tag :: tags)) ∈ held.map Callback.holder := by
    rw [stands.kept]
    refine List.mem_append_left _ (List.mem_reverse.mpr ?_)
    exact List.mem_map.mpr ⟨holder, member, rfl⟩
  obtain ⟨own, pending, same⟩ := List.mem_map.mp known
  exact ⟨own, pending, congrArg Prod.fst same⟩

theorem Stands.ends_closing (name : QName) (text : String) (path : String) :
    Attempt.Ends (do
      flush (recordedStock actions depth)
      performAll (recordedStock actions depth) .body path (·.onBody name text)
        (innermost actions depth root tags tag).actions
      performAll (recordedStock actions depth) .ending path (·.onEnd name)
        (innermost actions depth root tags tag).actions.reverse
      modify leave) ctx
      (fun _ next => ∃ closed rest, held = closed ++ rest ∧
        rest.map Callback.holder = keepers actions depth root tags ∧
          Holding actions base rest next.work) (fun next => Recorded actions next.work) := by
  refine stands.ends_flush.bind fun _ t stands => ?_
  -- The actions are told the body on the scopes and with all that is held as it was.
  refine (ends_performAll (ends_body_each (fun id ws => ends_body stands.here depth name text id)
    _ stands.mounted stands.holding stands.pending)).bind fun _ u told => ?_
  obtain ⟨work, rfl, scopes, holding⟩ := told
  have stands : Stands actions depth base root (tag :: tags) held { t with work } :=
    ⟨stands.follows.alike ⟨rfl, rfl, scopes⟩, holding, stands.kept⟩
  obtain ⟨closed, rest, shape, others, grown⟩ := stands.grown
  refine (ends_performAll (ends_ending_each (fun id active below _ _ fits =>
    ends_ending stands.here depth name id active below fits) _
      (stands.follows.fits _ List.mem_cons_self) [] _ stands.scopes grown)).bind fun _ u ended => ?_
  obtain ⟨work, rfl, _, holding⟩ := ended
  refine ⟨fun _ next ran => ?_, fun _ _ ran => (nomatch ran)⟩
  cases ran
  exact ⟨closed, rest, shape, others, holding.idle (.of_same rfl rfl rfl)⟩

end Innermost

theorem Stands.closing (stands : Stands actions depth base root tags held ctx) (trims : Bool)
    (name : QName) {after failed : Context (Logged σ) → Prop} (refused : failed ctx)
    (within : ∀ tag tags', tags = tag :: tags' → ∀ text path, Attempt.Ends (do
      flush (recordedStock actions depth)
      performAll (recordedStock actions depth) .body path (·.onBody name text)
        (innermost actions depth root tags' tag).actions
      performAll (recordedStock actions depth) .ending path (·.onEnd name)
        (innermost actions depth root tags' tag).actions.reverse
      modify leave) ctx (fun _ => after) failed) :
    Attempt.Ends (Context.closeElement (recordedStock actions depth) trims name) ctx (fun _ => after)
      failed := by
  unfold Context.closeElement
  apply Attempt.Ends.get
  split
  · exact .throw _ refused
  · rename_i frame frames shape
    dsimp only
    by_cases wrong : frame.name ≠ name
    · rw [if_pos wrong]
      exact .bind (.throw _ refused) fun _ _ (impossible : False) => impossible.elim
    · rw [if_neg wrong]
      cases tags with
      | nil =>
        have none := stands.follows.frames
        rw [shape] at none
        cases none
      | cons tag tags =>
        have matched := stands.follows.frames
        rw [shape] at matched
        have same : frame.actions = (innermost actions depth root tags tag).actions :=
          congrArg Prod.snd (List.cons.inj matched).1
        rw [same]
        exact within tag tags rfl _ _

theorem Stands.closeElement (stands : Stands actions depth base root tags held ctx) (trims : Bool)
    (name : QName) :
    Attempt.Ends (Context.closeElement (recordedStock actions depth) trims name) ctx
      (fun _ next => ∃ closed rest, held = closed ++ rest ∧
        Stands actions depth base root tags.tail rest next)
      (fun next => Recorded actions next.work) := by
  have nesting := nesting_recorded (σ := σ) actions
  have closing {next : Context (Logged σ)}
      (ran : (Context.closeElement (recordedStock actions depth) trims name).perform ctx = (.ok (), next)) :=
    stands.follows.closeElement nesting ran
  suffices ends : Attempt.Ends (Context.closeElement (recordedStock actions depth) trims name) ctx
      (fun _ next => ∃ closed rest, held = closed ++ rest ∧
        rest.map Callback.holder = keepers actions depth root tags.tail ∧
          Holding actions base rest next.work) (fun next => Recorded actions next.work) by
    refine (ends.also fun _ _ ran => closing ran).weaken fun _ next ended => ?_
    obtain ⟨follows, closed, rest, shape, same, holding⟩ := ended
    exact ⟨closed, rest, shape, follows, holding, same⟩
  clear closing
  refine stands.closing trims name stands.holding.recorded ?_
  rintro tag tags rfl text path
  exact stands.ends_closing name text path

theorem work_addText (ctx : Context σ) (text : String) : (ctx.addText text).work = ctx.work := by
  obtain ⟨site, frames, work⟩ := ctx
  cases frames <;> rfl

theorem ends_perform (wrap : ActionError → DispatchError) {step : Step σ Unit} {ctx : Context σ}
    {after failed : Workspace σ → Prop}
    (ends : step.Ends ctx.site ctx.work (fun _ => after) failed) :
    Attempt.Ends (perform wrap step) ctx
      (fun _ next => ∃ work, next = { ctx with work } ∧ after work) (fun next => failed next.work) := by
  refine ⟨fun _ next ran => ?_, fun e next ran => ?_⟩
  · obtain ⟨work, called, rfl⟩ := perform_ok ran
    exact ⟨work, rfl, ends.1 () work called⟩
  · obtain ⟨cause, called⟩ := perform_error ran
    exact ends.2 cause next.work called

end Context

namespace Dispatcher
variable {σ : Type} {actions : ActionId → StockAction} {d : Dispatcher (Logged σ)}

def Over (actions : ActionId → StockAction) (d : Dispatcher (Logged σ)) : Prop :=
  d.state ≠ .documentStarted ∧ AllProper actions d.progress.journal.calls

theorem ends_withContext {ctx : Context (Logged σ)} (live : d.progress = .live ctx)
    {step : ContextM (Logged σ) Unit} {after : Context (Logged σ) → Prop}
    (ends : Attempt.Ends step ctx (fun _ => after) (fun next => Recorded actions next.work)) :
    (((withContext step).perform d).2.Over actions) ∨
      ∃ next, ((withContext step).perform d).2.progress = .live next ∧ after next := by
  rw [perform_withContext live]
  cases run : step.perform ctx with
  | mk result next =>
    cases result with
    | ok value => exact .inr ⟨next, rfl, ends.1 value next run⟩
    | error e => exact .inl ⟨by rintro ⟨⟩, ends.2 e next run⟩

end Dispatcher

namespace Event
open Context
variable {σ : Type} {actions : ActionId → StockAction} {depth : Nat} {base : Workspace σ}
  {root : Registry} {tags : List OpenTag} {held : List (Callback σ)} {d : Dispatcher (Logged σ)}
  {ctx : Context (Logged σ)}

def Carries (held after : List (Callback σ)) : Event → Prop
  | .start _ _ => held <:+ after
  | .finish _ => after <:+ held
  | _ => after = held

theorem idle_run {c : Catalogue (Logged σ)} (idle : d.state ≠ .documentStarted) {e : Event}
    (inner : e ≠ .startDocument) :
    ((e.run c).perform d).2.state ≠ .documentStarted ∧
      ((e.run c).perform d).2.progress.journal = d.progress.journal := by
  cases e with
  | startDocument => exact absurd rfl inner
  | declare label uri => exact ⟨idle, rfl⟩
  | start name attrs =>
    obtain ⟨misuse, refused⟩ := Dispatcher.perform_withContext_idle (d := { d with pending := [] })
      idle (Context.openElement c name attrs d.pending)
    rw [perform_start, refused]
    exact ⟨idle, rfl⟩
  | text content =>
    obtain ⟨misuse, refused⟩ := Dispatcher.perform_withContext_idle idle (modify (·.addText content))
    rw [run, Dispatcher.characters, refused]
    exact ⟨idle, rfl⟩
  | finish name =>
    obtain ⟨misuse, refused⟩ := Dispatcher.perform_withContext_idle idle
      (Context.closeElement c d.trims name)
    rw [perform_finish, refused]
    exact ⟨idle, rfl⟩
  | endDocument =>
    obtain ⟨misuse, refused⟩ := Dispatcher.perform_withContext_idle idle (Dispatcher.finishRules c)
    rw [run, Dispatcher.endDocument, Attempt.perform_bind, refused]
    exact ⟨idle, rfl⟩
  | setRoot object => exact ⟨idle, rfl⟩
  | takeRoot | abort =>
    obtain ⟨rules, factory, trims, pending, initialRoot, progress⟩ := d
    cases progress with
    | live ctx => exact absurd rfl idle
    | idle journal | ended root store journal | aborted store journal => exact ⟨by rintro ⟨⟩, rfl⟩

theorem over_run {c : Catalogue (Logged σ)} (finished : d.Over actions) {e : Event}
    (inner : e ≠ .startDocument) : ((e.run c).perform d).2.Over actions := by
  obtain ⟨idle, same⟩ := idle_run (c := c) finished.1 inner
  refine ⟨idle, ?_⟩
  rw [same]
  exact finished.2

theorem ends_finishRules (holding : Holding actions base held ctx.work) (depth : Nat) :
    Attempt.Ends (Dispatcher.finishRules (recordedStock actions depth)) ctx
      (fun _ next => Holding actions base held next.work) (fun next => Recorded actions next.work) := by
  apply Attempt.Ends.get
  have finished := ends_perform (.lifecycle .finishParse)
    ((idles_finish actions depth ctx.site.rules.actions).ends holding)
  dsimp only
  split
  · exact .bind (.throw _ holding.recorded) fun _ _ (impossible : False) => impossible.elim
  · refine finished.weaken fun _ next ended => ?_
    obtain ⟨work, rfl, holding⟩ := ended
    exact holding

theorem stands_run (live : d.progress = .live ctx)
    (stands : Stands actions depth base root tags held ctx) {e : Event}
    (inner : e ≠ .startDocument) :
    (((e.run (recordedStock actions depth)).perform d).2.Over actions) ∨
      ∃ next after, ((e.run (recordedStock actions depth)).perform d).2.progress = .live next ∧
        e.Carries held after ∧ Stands actions depth base root (track tags e) after next := by
  cases e with
  | startDocument => exact absurd rfl inner
  | declare label uri => exact .inr ⟨ctx, held, live, rfl, stands⟩
  | start name attrs =>
    rw [perform_start]
    rcases Dispatcher.ends_withContext (d := { d with pending := [] }) live
      (stands.openElement name attrs d.pending) with finished | ⟨next, going, new, stands⟩
    · exact .inl finished
    · exact .inr ⟨next, new ++ held, going, List.suffix_append new held, stands⟩
  | text content =>
    have added : Attempt.Ends (modify (·.addText content) : ContextM (Logged σ) Unit) ctx
        (fun _ => Stands actions depth base root tags held) (fun next => Recorded actions next.work) := by
      refine ⟨fun _ next ran => ?_, fun _ _ ran => (nomatch ran)⟩
      cases ran
      exact ⟨stands.follows.alike (alike_addText content), work_addText ctx content ▸ stands.holding,
        stands.kept⟩
    rcases Dispatcher.ends_withContext live added with finished | ⟨next, going, stands⟩
    · exact .inl finished
    · exact .inr ⟨next, held, going, rfl, stands⟩
  | finish name =>
    rw [perform_finish]
    rcases Dispatcher.ends_withContext live (stands.closeElement d.trims name) with
      finished | ⟨next, going, closed, rest, shape, stands⟩
    · exact .inl finished
    · exact .inr ⟨next, rest, going, ⟨closed, shape.symm⟩, stands⟩
  | endDocument =>
    left
    have finished := ends_finishRules stands.holding depth
    rw [run, Dispatcher.endDocument, Attempt.perform_bind, Dispatcher.perform_withContext live]
    cases made : (Dispatcher.finishRules (recordedStock actions depth)).perform ctx with
    | mk result next =>
      cases result with
      | ok value => exact ⟨by rintro ⟨⟩, (finished.1 value next made).proper⟩
      | error e => exact ⟨by rintro ⟨⟩, finished.2 e next made⟩
  | setRoot object => exact .inr ⟨ctx, held, live, rfl, stands⟩
  | takeRoot =>
    refine .inr ⟨ctx, held, ?_, rfl, stands⟩
    change d.takeRoot.progress = _
    rw [Dispatcher.takeRoot, live]
    exact live
  | abort =>
    left
    change d.abort.Over actions
    rw [Dispatcher.abort, live]
    exact ⟨by rintro ⟨⟩, stands.holding.proper⟩

theorem over_feed {c : Catalogue (Logged σ)} (finished : d.Over actions) {es : List Event}
    (inner : ∀ e ∈ es, e ≠ .startDocument) : (feed c es d).2.Over actions := by
  induction es generalizing d with
  | nil => exact finished
  | cons e es ih =>
    exact ih (over_run finished (inner e List.mem_cons_self))
      fun f member => inner f (List.mem_cons_of_mem _ member)

theorem stands_feed {es : List Event} (inner : ∀ e ∈ es, e ≠ .startDocument)
    (live : d.progress = .live ctx) (stands : Stands actions depth base root tags held ctx) :
    ((feed (recordedStock actions depth) es d).2.Over actions) ∨
      ∃ next after, (feed (recordedStock actions depth) es d).2.progress = .live next ∧
        Stands actions depth base root (es.foldl track tags) after next := by
  induction es generalizing d ctx tags held with
  | nil => exact .inr ⟨ctx, held, live, stands⟩
  | cons e es ih =>
    have later : ∀ f ∈ es, f ≠ .startDocument :=
      fun f member => inner f (List.mem_cons_of_mem _ member)
    rcases stands_run live stands (inner e List.mem_cons_self) with
      finished | ⟨next, after, going, _, stands⟩
    · exact .inl (over_feed finished later)
    · exact ih later going stands

inductive Balanced : List Event → Prop where
  | nil : Balanced []
  | other {e : Event} {rest : List Event} (starts : ∀ name attrs, e ≠ .start name attrs)
      (ends : ∀ name, e ≠ .finish name) (after : Balanced rest) : Balanced (e :: rest)
  | element (name : QName) (attrs : Attributes) {within : List Event} (ended : QName)
      {rest : List Event} (inside : Balanced within) (after : Balanced rest) :
      Balanced (.start name attrs :: (within ++ .finish ended :: rest))

-- An element gives up what its actions have taken and nothing else.
theorem stands_balanced {es : List Event} (balanced : Balanced es)
    (inner : ∀ e ∈ es, e ≠ .startDocument) (live : d.progress = .live ctx)
    (stands : Stands actions depth base root tags held ctx) :
    ((feed (recordedStock actions depth) es d).2.Over actions) ∨
      ∃ next, (feed (recordedStock actions depth) es d).2.progress = .live next ∧
        Stands actions depth base root tags held next := by
  induction balanced generalizing d ctx tags held with
  | nil => exact .inr ⟨ctx, live, stands⟩
  | @other e rest starts ends after ih =>
    have later : ∀ f ∈ rest, f ≠ .startDocument :=
      fun f member => inner f (List.mem_cons_of_mem _ member)
    rcases stands_run live stands (inner e List.mem_cons_self) with
      finished | ⟨next, left, going, carries, still⟩
    · exact .inl (over_feed finished later)
    · cases e with
      | start name attrs => exact absurd rfl (starts name attrs)
      | finish name => exact absurd rfl (ends name)
      | startDocument | declare | text | endDocument | setRoot | takeRoot | abort =>
        obtain rfl : left = held := carries
        exact ih later going still
  | @element name attrs within ended rest inside after ih more =>
    have first : ∀ f ∈ within, f ≠ .startDocument := fun f member => inner f (by simp [member])
    have later : ∀ f ∈ rest, f ≠ .startDocument := fun f member => inner f (by simp [member])
    have whole (c : Catalogue (Logged σ)) :
        (feed c (.start name attrs :: (within ++ .finish ended :: rest)) d).2 =
          (feed c rest (((Event.finish ended).run c).perform
            (feed c within (((Event.start name attrs).run c).perform d).2).2).2).2 := by
      rw [← List.cons_append, feed_append]
      rfl
    rw [whole]
    have closing : (Event.finish ended) ≠ .startDocument := by simp
    rcases stands_run live stands (inner _ List.mem_cons_self) with
      finished | ⟨_, top, going, opens, still⟩
    · exact .inl (over_feed (over_run (over_feed finished first) closing) later)
    rcases ih first going still with finished | ⟨_, going, still⟩
    · exact .inl (over_feed (over_run finished closing) later)
    rcases stands_run going still closing with finished | ⟨_, left, going, closes, still⟩
    · exact .inl (over_feed finished later)
    -- As many as were held before are held again, so they are the same.
    have size : left.length = held.length := by
      have same := congrArg List.length (still.kept.trans stands.kept.symm)
      rwa [List.length_map, List.length_map] at same
    obtain rfl : left = held :=
      (List.suffix_of_suffix_length_le closes opens (Nat.le_of_eq size)).eq_of_length size
    exact more later going still

theorem stands_startDocument (actions : ActionId → StockAction) (depth : Nat) (d : Dispatcher σ)
    (idle : d.state ≠ .documentStarted) :
    ((Event.startDocument.run (recordedStock actions depth)).perform d.logging).2.Over actions ∨
      ∃ next, ((Event.startDocument.run (recordedStock actions depth)).perform d.logging).2.progress =
          .live next ∧
        Stands actions depth d.fresh.work d.rules [] [] next := by
  have empty : Holding actions d.fresh.work [] d.logging.fresh.work := by
    rw [work_logging]
    exact ⟨.refl _, rfl, allProper_nil⟩
  let opening : ContextM (Logged σ) Unit := Context.perform (.lifecycle .startParse)
    ((recordedStock actions depth).start d.rules.actions)
  have follows (next : Context (Logged σ)) (ran : opening.perform d.logging.fresh = (.ok (), next)) :
      Follows (fun id => (actions id).nested?) depth d.rules [] next := by
    obtain ⟨work, called, rfl⟩ := perform_ok ran
    refine (follows_fresh _ depth d.logging).alike ⟨rfl, rfl, ?_⟩
    exact (nesting_recorded actions).quiet_start depth d.rules.actions _ _ _ _ _ rfl called
  have begun := (ends_perform (.lifecycle .startParse)
    ((idles_start actions depth d.rules.actions).ends empty)).also fun _ next ran => follows next ran
  rw [perform_startDocument _ (by rwa [Dispatcher.state_logging])]
  refine Dispatcher.ends_withContext rfl (begun.weaken fun _ next ended => ?_)
  obtain ⟨follows, work, rfl, holding⟩ := ended
  exact ⟨follows, holding, rfl⟩

theorem stands_document (actions : ActionId → StockAction) (depth : Nat) (d : Dispatcher σ)
    (idle : d.state ≠ .documentStarted) {es : List Event} (inner : ∀ e ∈ es, e ≠ .startDocument) :
    let last := (feed (recordedStock actions depth) (.startDocument :: es) d.logging).2
    last.Over actions ∨ ∃ next held, last.progress = .live next ∧
      Stands actions depth d.fresh.work d.rules (openTags es) held next := by
  intro last
  rcases stands_startDocument actions depth d idle with finished | ⟨_, going, stands⟩
  · exact .inl (over_feed finished inner)
  · exact (stands_feed inner going stands :)

theorem stands_element (document : d.Over actions ∨ ∃ ctx held, d.progress = .live ctx ∧
      Stands actions depth base root tags held ctx) {name ended : QName} {attrs : Attributes}
    {within : List Event} (balanced : Balanced within) (inner : ∀ e ∈ within, e ≠ .startDocument)
    (fine : (((Event.finish ended).run (recordedStock actions depth)).perform
      (feed (recordedStock actions depth) (.start name attrs :: within) d).2).1 = .ok ()) :
    ∃ ctx after, d.progress = .live ctx ∧
      (((Event.finish ended).run (recordedStock actions depth)).perform
        (feed (recordedStock actions depth) (.start name attrs :: within) d).2).2.progress =
          .live after ∧
      after.work.objects = ctx.work.objects ∧
        after.work.params.length = ctx.work.params.length := by
  have started := live_of_finish_ok fine
  have opening : ∀ e ∈ .start name attrs :: within, e ≠ .startDocument := by simpa using inner
  rcases document with finished | ⟨ctx, held, live, stands⟩
  · exact absurd started (over_run (over_feed finished opening) (by simp)).1
  have pair : Balanced (.start name attrs :: (within ++ [.finish ended])) :=
    .element name attrs ended balanced .nil
  have whole : ∀ e ∈ .start name attrs :: (within ++ [.finish ended]), e ≠ .startDocument := by
    intro e member
    rw [← List.cons_append] at member
    rcases List.mem_append.mp member with early | last
    · exact opening e early
    · rw [List.mem_singleton.mp last]
      simp
  have outcome := stands_balanced pair whole live stands
  rw [← List.cons_append, feed_append] at outcome
  rcases outcome with finished | ⟨after, going, again⟩
  · exact absurd started finished.1
  · exact ⟨ctx, after, live, going, stands.holding.piled.same again.holding.piled⟩

theorem stock_element (document : d.Over actions ∨ ∃ ctx held, d.progress = .live ctx ∧
      Stands actions depth base root tags held ctx) {name ended : QName} {attrs : Attributes}
    {within : List Event} (balanced : Balanced within) (inner : ∀ e ∈ within, e ≠ .startDocument)
    (fine : (((Event.finish ended).run (stock actions depth)).perform
      (feed (stock actions depth) (.start name attrs :: within) d.plain).2).1 = .ok ()) :
    ∃ ctx after, d.plain.progress = .live ctx ∧
      (((Event.finish ended).run (stock actions depth)).perform
        (feed (stock actions depth) (.start name attrs :: within) d.plain).2).2.progress =
          .live after ∧
      after.work.objects = ctx.work.objects ∧
        after.work.params.length = ctx.work.params.length := by
  rw [feed_stock, perform_stock] at fine ⊢
  obtain ⟨ctx, after, live, going, same⟩ := stands_element document balanced inner fine
  exact ⟨ctx.plain, after.plain, congrArg Progress.plain live, congrArg Progress.plain going, same⟩

-- Every element that ends well leaves the object stack with the objects it has found there, and as
-- many frames of parameters. Whether the document goes well or not, each object and each frame that
-- an action takes off is the one that it has put there itself at the beginning of the element, and
-- a call always has a frame for the body text.
theorem element_leaves_stacks (actions : ActionId → StockAction) (depth : Nat) (d : Dispatcher σ)
    (idle : d.state ≠ .documentStarted) (es : List Event) (inner : ∀ e ∈ es, e ≠ .startDocument) :
    (∀ name attrs within ended, Balanced within → (∀ e ∈ within, e ≠ .startDocument) →
      let before := (feed (stock actions depth) (.startDocument :: es) d).2
      let inside := (feed (stock actions depth) (.start name attrs :: within) before).2
      let closed := ((Event.finish ended).run (stock actions depth)).perform inside
      closed.1 = .ok () → ∃ ctx after, before.progress = .live ctx ∧ closed.2.progress = .live after ∧
        after.work.objects = ctx.work.objects ∧
          after.work.params.length = ctx.work.params.length) ∧
    ∀ before call later, leafCalls actions depth (.startDocument :: es) d = before ++ call :: later →
      call.Proper actions (unended actions before) := by
  have document := stands_document actions depth d idle inner
  have told := feed_stock actions depth (.startDocument :: es) d.logging
  rw [Dispatcher.plain_logging] at told
  refine ⟨?_, ?_⟩
  · rw [told]
    intro name attrs within ended balanced first before inside closed fine
    exact stock_element document balanced first fine
  · intro before call later shape
    rcases document with ⟨_, proper⟩ | ⟨next, held, live, stands⟩
    · exact proper before call later shape
    · have recorded := stands.holding.proper
      unfold leafCalls at shape
      rw [live] at shape
      exact recorded before call later shape

-- One action nests rules twice on the outer element, each time with an object and a call. An inner
-- element adds an object of its own, and then another one does.
theorem element_leaves_stacks_of_doubled_rules :
    let actions : ActionId → StockAction := fun id => match id.index with
      | 0 => .nested (.single [.rule "r" ⟨1⟩, .rule "r" ⟨2⟩, .rule "x" ⟨1⟩])
      | 2 => .call { arity := 0, target := .node, invoke := fun o _ => (o, .ok ()) }
      | _ => .create { type := "t" }
    let table : RuleTable := ((RuleTable.registerAll [.rule "r" ⟨0⟩, .rule "r" ⟨0⟩]).perform {}).2
    let d : Dispatcher Unit :=
      .new (.base table) (({} : Factory).register "t" Constructor.blank) true ()
    let x : QName := ⟨"", "x"⟩
    let es : List Event := [.start ⟨"", "r"⟩ {}, .start x {}, .text "one", .finish x]
    (∃ ctx after, (feed (stock actions 2) (.startDocument :: es) d).2.progress = .live ctx ∧
      (((Event.finish x).run (stock actions 2)).perform
        (feed (stock actions 2) [.start x {}, .text "two"]
          (feed (stock actions 2) (.startDocument :: es) d).2).2).2.progress = .live after ∧
      ctx.work.objects = [⟨1⟩, ⟨0⟩] ∧ after.work.objects = [⟨1⟩, ⟨0⟩] ∧
        ctx.work.params.length = 2 ∧ after.work.params.length = 2) ∧
    ∃ earlier call later, leafCalls actions 2 (.startDocument :: es) d = earlier ++ call :: later ∧
      call.occasion.phase = .ending ∧ call.Proper actions (unended actions earlier) := by
  intro actions table d x es
  have idle : d.state ≠ .documentStarted := by decide
  have inner : ∀ e ∈ es, e ≠ .startDocument := by simp [es]
  have balanced : Balanced [.text "two"] := .other (by simp) (by simp) .nil
  obtain ⟨kept, proper⟩ := element_leaves_stacks actions 2 d idle es inner
  refine ⟨?_, ?_⟩
  · obtain ⟨ctx, after, live, going, objects, params⟩ :=
      kept x {} [.text "two"] x balanced (by simp) (by decide +kernel)
    have found : ((feed (stock actions 2) (.startDocument :: es) d).2.context?.map fun ctx =>
        (ctx.work.objects, ctx.work.params.length)) = some ([⟨1⟩, ⟨0⟩], 2) := by decide +kernel
    rw [Dispatcher.context?_of_live live] at found
    obtain ⟨there, size⟩ := Prod.mk.inj (Option.some.inj found)
    exact ⟨ctx, after, live, going, there, objects.trans there, size, params.trans size⟩
  · have some_ending : (leafCalls actions 2 (.startDocument :: es) d).any
        (fun call => call.occasion.phase = .ending) := by decide +kernel
    obtain ⟨call, member, ends⟩ := List.any_eq_true.mp some_ending
    obtain ⟨earlier, later, shape⟩ := List.append_of_mem member
    exact ⟨earlier, call, later, shape, of_decide_eq_true ends, proper earlier call later shape⟩

-- A call needs an object, whoever has put it there: without one it finds the stack empty.
theorem empty_stack_at_call :
    let actions : ActionId → StockAction := fun _ =>
      .call { arity := 0, target := .node, invoke := fun o _ => (o, .ok ()) }
    let table : RuleTable := ((RuleTable.registerAll [.rule "a" ⟨0⟩]).perform {}).2
    let d : Dispatcher Unit := .new (.base table) {} false ()
    ∃ call ∈ leafCalls actions 1 [.startDocument, .start ⟨"", "a"⟩ {}, .finish ⟨"", "a"⟩] d,
      call.occasion.phase = .ending ∧ call.result = .error (.emptyStack "objects") := by
  intro actions table d
  have found : (leafCalls actions 1 [.startDocument, .start ⟨"", "a"⟩ {}, .finish ⟨"", "a"⟩] d).any
      (fun call => call.occasion.phase = .ending ∧ call.result = .error (.emptyStack "objects")) := by
    decide +kernel
  obtain ⟨call, member, empty⟩ := List.any_eq_true.mp found
  exact ⟨call, member, of_decide_eq_true empty⟩

end Event
end XmlRules
