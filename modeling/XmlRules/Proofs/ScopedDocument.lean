import Mathlib.Data.List.TakeWhile
import XmlRules.Proofs.OpenElements
import XmlRules.Proofs.StockScopes
namespace XmlRules

def Frame.matched (f : Frame) : QName × List ActionId := (f.name, f.actions)
def Level.matched (l : Level) : QName × List ActionId := (l.name, l.actions)

namespace Context
variable {σ : Type} {c : Catalogue σ} {ctx after : Context σ}

theorem perform_ok {wrap : ActionError → DispatchError} {step : Step σ Unit}
    (ran : (perform wrap step).perform ctx = (.ok (), after)) :
    ∃ work, Step.perform step ctx.site ctx.work = (.ok (), work) ∧ after = { ctx with work } := by
  unfold perform at ran
  rw [Attempt.perform_bind, Attempt.perform_get] at ran
  dsimp only at ran
  cases run : Step.perform step ctx.site ctx.work with
  | mk result work =>
    rw [run] at ran
    cases result with
    | ok value =>
      cases ran
      exact ⟨work, rfl, rfl⟩
    | error e => cases ran

theorem performAll_ok {phase : Phase} {path : String} {callback : Behaviour σ → Step σ Unit}
    {ids : List ActionId}
    (ran : (performAll c phase path callback ids).perform ctx = (.ok (), after)) :
    ∃ work, Step.perform (ids.forM fun id => callback (c id)) ctx.site ctx.work = (.ok (), work) ∧
      after = { ctx with work } := by
  induction ids generalizing ctx with
  | nil =>
    cases ran
    exact ⟨_, rfl, rfl⟩
  | cons id ids ih =>
    obtain ⟨_, middle, first, rest⟩ := Attempt.ok_of_bind ran
    obtain ⟨work, called, rfl⟩ := perform_ok first
    obtain ⟨last, others, rfl⟩ := ih rest
    exact ⟨last, (Attempt.perform_bind_ok called _).trans others, rfl⟩

structure Alike (ctx after : Context σ) : Prop where
  site : after.site = ctx.site
  frames : after.frames.map Frame.matched = ctx.frames.map Frame.matched
  scopes : after.work.scopes = ctx.work.scopes

theorem Alike.trans {before : Context σ} (first : Alike before ctx) (second : Alike ctx after) :
    Alike before after :=
  ⟨second.site.trans first.site, second.frames.trans first.frames, second.scopes.trans first.scopes⟩

theorem alike_performAll {phase : Phase} {path : String} {callback : Behaviour σ → Step σ Unit}
    {ids : List ActionId} (quiet : ∀ id, (callback (c id)).Quiet)
    (ran : (performAll c phase path callback ids).perform ctx = (.ok (), after)) :
    Alike ctx after := by
  obtain ⟨work, called, rfl⟩ := performAll_ok ran
  exact ⟨rfl, rfl, Step.quiet_forM ids (fun id _ => quiet id) _ _ _ _ _ rfl called⟩

theorem alike_addText (text : String) : Alike ctx (ctx.addText text) := by
  cases ctx with
  | mk site frames work => cases frames <;> exact ⟨rfl, rfl, rfl⟩

theorem flush_ok (ran : (flush c).perform ctx = (.ok (), after)) :
    after = ctx ∨ ∃ frame frames work, ctx.frames = frame :: frames ∧
      Step.perform (frame.actions.forM fun id => (c id).onSegment frame.name frame.segment)
        ctx.site ctx.work = (.ok (), work) ∧
      after = ⟨ctx.site, { frame with segment := "" } :: frames, work⟩ := by
  unfold flush at ran
  rw [Attempt.perform_bind, Attempt.perform_get] at ran
  dsimp only at ran
  split at ran
  · cases ran
    exact .inl rfl
  · rename_i frame frames shape
    split at ran
    · cases ran
      exact .inl rfl
    · obtain ⟨_, middle, emptied, rest⟩ := Attempt.ok_of_bind ran
      cases emptied
      obtain ⟨work, called, rfl⟩ := performAll_ok rest
      exact .inr ⟨frame, frames, work, shape, called, rfl⟩

theorem alike_flush (quiet : ∀ id name text, ((c id).onSegment name text).Quiet)
    (ran : (flush c).perform ctx = (.ok (), after)) : Alike ctx after := by
  obtain rfl | ⟨frame, frames, work, shape, called, rfl⟩ := flush_ok ran
  · exact ⟨rfl, rfl, rfl⟩
  · refine ⟨rfl, by rw [shape]; rfl, ?_⟩
    exact Step.quiet_forM frame.actions (fun id _ => quiet id _ _) _ _ _ _ _ rfl called

-- A document in progress with these elements open.
structure Follows (nested : ActionId → Option NestedRules) (depth : Nat) (base : Registry)
    (tags : List OpenTag) (ctx : Context σ) : Prop where
  rules : ctx.site.rules = base
  trail : ctx.site.trail = trailOf tags
  frames : ctx.frames.map Frame.matched =
    (levels nested depth base tags).map Level.matched
  scopes : ctx.work.scopes = (levels nested depth base tags).flatMap Level.scopes
  fits : ∀ level ∈ levels nested depth base tags, ∀ id ∈ level.actions,
    Fits nested level.mount depth id

variable {nested : ActionId → Option NestedRules} {depth : Nat} {base : Registry}
  {tags : List OpenTag}

theorem Follows.alike (follows : Follows nested depth base tags ctx) (alike : Alike ctx after) :
    Follows nested depth base tags after := by
  refine ⟨?_, ?_, ?_, ?_, follows.fits⟩
  · rw [alike.site, follows.rules]
  · rw [alike.site, follows.trail]
  · rw [alike.frames, follows.frames]
  · rw [alike.scopes, follows.scopes]

theorem Follows.active_eq (follows : Follows nested depth base tags ctx) :
    ctx.site.active ctx.work = nearest base (levels nested depth base tags) := by
  rw [nearest_eq, ← follows.scopes, ← follows.rules]
  unfold Site.active
  cases ctx.work.scopes <;> rfl

theorem Follows.trail_enter (follows : Follows nested depth base tags ctx) (tag : OpenTag)
    (declared : List (String × String)) :
    (ctx.site.enter tag.1 declared).trail = trailOf (tag :: tags) := by
  change ctx.site.trail.enter tag.1 = _
  rw [follows.trail, trailOf_cons]

theorem Follows.mount_enter (follows : Follows nested depth base tags ctx) (tag : OpenTag)
    (declared : List (String × String)) : (ctx.site.enter tag.1 declared).mount tag.2 =
      (Level.within nested depth base (levels nested depth base tags) tags tag).mount := by
  rw [Site.mount, follows.trail_enter, depth_trailOf]
  rfl

theorem Follows.matching_enter (follows : Follows nested depth base tags ctx) (tag : OpenTag)
    (declared : List (String × String)) :
    (ctx.site.active ctx.work).matching (ctx.site.enter tag.1 declared).trail.path =
      (Level.within nested depth base (levels nested depth base tags) tags tag).actions := by
  rw [follows.active_eq, follows.trail_enter]
  rfl

variable {definitions : ActionId → Definition σ}

theorem Follows.beginElement (nesting : Nesting definitions nested)
    (follows : Follows nested depth base tags ctx) {name : QName} {attrs : Attributes}
    {declared : List (String × String)}
    (ran : (beginElement (Catalogue.tie definitions depth) name attrs declared).perform ctx =
      (.ok (), after)) :
    Follows nested depth base ((name, attrs) :: tags) after := by
  let level := Level.within nested depth base (levels nested depth base tags)
    tags (name, attrs)
  have trail : (ctx.site.enter name declared).trail = trailOf ((name, attrs) :: tags) :=
    follows.trail_enter (name, attrs) declared
  have mount : (ctx.enter name declared).site.mount attrs = level.mount :=
    follows.mount_enter (name, attrs) declared
  have actions : (ctx.site.active ctx.work).matching (ctx.site.enter name declared).trail.path =
      level.actions := follows.matching_enter (name, attrs) declared
  have begun : (performAll (Catalogue.tie definitions depth) .begin
      (ctx.site.enter name declared).trail.path (·.onBegin name attrs)
      ((ctx.site.active ctx.work).matching (ctx.site.enter name declared).trail.path)).perform
        (ctx.enter name declared) = (.ok (), after) := ran
  rw [actions] at begun
  obtain ⟨work, called, rfl⟩ := performAll_ok begun
  obtain ⟨fit, opened⟩ := Step.yields_stacked (nesting.yields_begin depth name attrs) level.actions
    ctx.work.scopes ctx.work () work rfl called
  rw [mount] at fit opened
  rw [show (ctx.enter name declared).site.rules = base from follows.rules] at opened
  refine ⟨follows.rules, trail, ?_, ?_, ?_⟩
  · change (name, (ctx.site.active ctx.work).matching (ctx.site.enter name declared).trail.path) ::
      ctx.frames.map Frame.matched = level.matched :: (levels nested depth base tags).map _
    rw [actions, follows.frames]
    rfl
  · change work.scopes = level.scopes ++ (levels nested depth base tags).flatMap Level.scopes
    have above := stacked_append (XmlRules.opened nested level.mount depth) base
      level.actions [] ctx.work.scopes
    rw [List.nil_append, follows.scopes, ← nearest_eq, ← follows.scopes] at above
    rw [← follows.scopes]
    exact opened.trans above
  · intro other member
    rcases List.mem_cons.mp member with rfl | further
    · exact fit
    · exact follows.fits other further

theorem Follows.openElement (nesting : Nesting definitions nested)
    (follows : Follows nested depth base tags ctx) {name : QName} {attrs : Attributes}
    {declared : List (String × String)}
    (ran : (openElement (Catalogue.tie definitions depth) name attrs declared).perform ctx =
      (.ok (), after)) :
    Follows nested depth base ((name, attrs) :: tags) after := by
  rw [perform_openElement] at ran
  obtain ⟨_, middle, flushed, begun⟩ := Attempt.ok_of_bind ran
  have alike := alike_flush
    (fun id name text => nesting.quiet_aside (.segment name text) rfl depth id) flushed
  exact (follows.alike alike).beginElement nesting begun

theorem Follows.performAll_end (nesting : Nesting definitions nested) {tag : OpenTag}
    (follows : Follows nested depth base (tag :: tags) ctx) {path : String} {name : QName}
    {frame : Frame} {frames : List (QName × List ActionId)}
    (innermost : ctx.frames.map Frame.matched = frame.matched :: frames)
    (ran : (performAll (Catalogue.tie definitions depth) .ending path (·.onEnd name)
      frame.actions.reverse).perform ctx = (.ok (), after)) :
    after.site = ctx.site ∧ after.frames = ctx.frames ∧
      after.work.scopes = (levels nested depth base tags).flatMap Level.scopes := by
  have shape := follows.frames
  rw [innermost, levels, List.map_cons] at shape
  have actions := congrArg Prod.snd (List.cons.inj shape).1
  have here : (Level.within nested depth base (levels nested depth base tags)
      tags tag).mount.depth = ctx.site.trail.depth := by
    rw [follows.trail, depth_trailOf]
    rfl
  have scopes := follows.scopes
  rw [levels, List.flatMap_cons, Level.scopes_within] at scopes
  obtain ⟨work, called, rfl⟩ := performAll_ok ran
  refine ⟨rfl, rfl, ?_⟩
  change frame.actions = Level.actions _ at actions
  rw [actions] at called
  exact Step.yields_unstacked
    (fun id active below fits => nesting.yields_end here depth name id active below fits) _
    (follows.fits _ List.mem_cons_self) [] _ ctx.work () work scopes called

theorem leave_follows (tag : OpenTag) (rules : ctx.site.rules = base) (trail : ctx.site.trail = trailOf (tag :: tags))
    (frames : ctx.frames.map Frame.matched =
      (levels nested depth base (tag :: tags)).map Level.matched)
    (scopes : ctx.work.scopes = (levels nested depth base tags).flatMap Level.scopes)
    (fits : ∀ level ∈ levels nested depth base tags, ∀ id ∈ level.actions,
      Fits nested level.mount depth id) :
    Follows nested depth base tags ctx.leave := by
  have depth_eq : ctx.depth = tags.length + 1 := by
    rw [Context.depth, trail, depth_trailOf, List.length_cons]
  -- All scopes that are left stand on elements further out.
  have kept : (ctx.work.closeScopesFrom ctx.depth).scopes = ctx.work.scopes := by
    change ctx.work.scopes.dropWhile _ = _
    rw [scopes, List.dropWhile_eq_self_iff]
    intro some_left
    have bounded := mountDepth_le (List.getElem_mem some_left)
    simp only [decide_eq_true_eq]
    omega
  refine ⟨rules, ?_, ?_, kept.trans scopes, fits⟩
  · change ctx.site.trail.leave?.getD ctx.site.trail = _
    rw [trail, trailOf_cons, Trail.leave?_enter]
    rfl
  · change ctx.frames.tail.map Frame.matched = _
    rw [List.map_tail, frames]
    rfl

theorem Follows.closeElement (nesting : Nesting definitions nested)
    (follows : Follows nested depth base tags ctx) {trims : Bool} {name : QName}
    (ran : (closeElement (Catalogue.tie definitions depth) trims name).perform ctx =
      (.ok (), after)) :
    Follows nested depth base tags.tail after := by
  unfold Context.closeElement at ran
  rw [Attempt.perform_bind, Attempt.perform_get] at ran
  dsimp only at ran
  split at ran
  · cases ran
  · rename_i frame frames shape
    split at ran
    · cases ran
    · have innermost : ctx.frames.map Frame.matched = frame.matched :: frames.map Frame.matched := by
        rw [shape, List.map_cons]
      obtain ⟨_, flushed, first, ran⟩ := Attempt.ok_of_bind ran
      obtain ⟨_, told, second, ran⟩ := Attempt.ok_of_bind ran
      obtain ⟨_, ended, third, ran⟩ := Attempt.ok_of_bind ran
      cases ran
      have alike := (alike_flush
        (fun id name text => nesting.quiet_aside (.segment name text) rfl depth id) first).trans
        (alike_performAll (fun id => nesting.quiet_aside (.body name _) rfl depth id) second)
      cases tags with
      | nil =>
        rw [follows.frames] at innermost
        cases innermost
      | cons tag tags =>
        have before := follows.alike alike
        obtain ⟨site, kept, closed⟩ :=
          before.performAll_end nesting (alike.frames.trans innermost) third
        apply leave_follows tag
        · rw [site, before.rules]
        · rw [site, before.trail]
          rfl
        · rw [kept, before.frames]
          rfl
        · exact closed
        · exact fun level member => before.fits level (List.mem_cons_of_mem _ member)

end Context

namespace Dispatcher
variable {σ : Type} {d next : Dispatcher σ}

theorem withContext_ok {step : ContextM σ Unit}
    (ran : (withContext step).perform d = (.ok (), next)) :
    ∃ ctx after, d.progress = .live ctx ∧ step.perform ctx = (.ok (), after) ∧
      next = { d with progress := .live after } := by
  by_cases started : d.state = .documentStarted
  · obtain ⟨ctx, live⟩ := live_of_started started
    rw [perform_withContext live] at ran
    cases run : step.perform ctx with
    | mk result after =>
      rw [run] at ran
      cases result with
      | ok value =>
        cases ran
        exact ⟨ctx, after, live, run, rfl⟩
      | error e => cases ran
  · obtain ⟨misuse, refused⟩ := perform_withContext_idle started step
    cases refused.symm.trans ran

end Dispatcher

namespace Event
open Context
variable {σ : Type} {definitions : ActionId → Definition σ}
  {nested : ActionId → Option NestedRules} {depth : Nat} {d : Dispatcher σ}

theorem live_run (nesting : Nesting definitions nested) {e : Event} (inner : e ≠ .startDocument)
    {next : Dispatcher σ} (ran : (e.run (Catalogue.tie definitions depth)).perform d = (.ok (), next))
    {after : Context σ} (live : next.progress = .live after) :
    ∃ ctx, d.progress = .live ctx ∧ ∀ base tags,
      Follows nested depth base tags ctx → Follows nested depth base (track tags e) after := by
  cases e with
  | startDocument => exact absurd rfl inner
  | declare label uri =>
    cases ran
    exact ⟨after, live, fun _ _ follows => follows⟩
  | start name attrs =>
    rw [perform_start] at ran
    obtain ⟨ctx, last, started, made, rfl⟩ := Dispatcher.withContext_ok ran
    cases live
    exact ⟨ctx, started, fun _ _ follows => follows.openElement nesting made⟩
  | text content =>
    change (Dispatcher.withContext (modify (·.addText content))).perform d = _ at ran
    obtain ⟨ctx, last, started, made, rfl⟩ := Dispatcher.withContext_ok ran
    cases live
    cases made
    exact ⟨ctx, started, fun _ _ follows => follows.alike (alike_addText content)⟩
  | finish name =>
    rw [perform_finish] at ran
    obtain ⟨ctx, last, started, made, rfl⟩ := Dispatcher.withContext_ok ran
    cases live
    exact ⟨ctx, started, fun _ _ follows => follows.closeElement nesting made⟩
  | endDocument =>
    obtain ⟨_, middle, first, second⟩ := Attempt.ok_of_bind ran
    obtain ⟨ctx, last, started, made, rfl⟩ := Dispatcher.withContext_ok first
    cases second
    cases live
  | setRoot object =>
    cases ran
    exact ⟨after, live, fun _ _ follows => follows⟩
  | takeRoot =>
    cases ran
    cases d with
    | mk rules factory trims pending initialRoot progress =>
      cases progress with
      | live ctx =>
        cases live
        exact ⟨after, rfl, fun _ _ follows => follows⟩
      | idle journal => cases live
      | ended root store journal => cases live
      | aborted store journal => cases live
  | abort =>
    cases ran
    cases d with
    | mk rules factory trims pending initialRoot progress => cases progress <;> cases live

theorem live_feed (nesting : Nesting definitions nested) {es : List Event}
    (inner : ∀ e ∈ es, e ≠ .startDocument)
    (unfailing : ∀ answer ∈ (feed (Catalogue.tie definitions depth) es d).1, answer = .ok ())
    {after : Context σ} (live : (feed (Catalogue.tie definitions depth) es d).2.progress = .live after) :
    ∃ ctx, d.progress = .live ctx ∧ ∀ base tags,
      Follows nested depth base tags ctx → Follows nested depth base (es.foldl track tags) after := by
  induction es generalizing d with
  | nil => exact ⟨after, live, fun _ _ follows => follows⟩
  | cons e es ih =>
    simp only [feed] at unfailing live
    cases ran : (e.run (Catalogue.tie definitions depth)).perform d with
    | mk answer next =>
      rw [ran] at unfailing live
      obtain ⟨middle, going, later⟩ := ih (fun f member => inner f (List.mem_cons_of_mem _ member))
        (fun other member => unfailing other (List.mem_cons_of_mem _ member)) live
      rw [unfailing answer List.mem_cons_self] at ran
      obtain ⟨ctx, before, first⟩ := live_run nesting (inner e List.mem_cons_self) ran going
      exact ⟨ctx, before, fun base tags follows => later base _ (first base tags follows)⟩

theorem follows_fresh (nested : ActionId → Option NestedRules) (depth : Nat) (d : Dispatcher σ) :
    Follows nested depth d.rules [] d.fresh := by
  refine ⟨rfl, rfl, rfl, ?_, by simp [levels]⟩
  change (Dispatcher.freshWork d.initialRoot d.progress.journal).scopes = []
  cases d.initialRoot <;> rfl

-- As long as nothing fails, what is open follows from the tags.
theorem follows_document (nesting : Nesting definitions nested) (idle : d.state ≠ .documentStarted)
    {es : List Event} (inner : ∀ e ∈ es, e ≠ .startDocument)
    (unfailing : ∀ answer ∈ (feed (Catalogue.tie definitions depth) (.startDocument :: es) d).1,
      answer = .ok ())
    {ctx : Context σ}
    (live : (feed (Catalogue.tie definitions depth) (.startDocument :: es) d).2.progress = .live ctx) :
    Follows nested depth d.rules (openTags es) ctx := by
  simp only [feed] at unfailing live
  cases ran : (Event.startDocument.run (Catalogue.tie definitions depth)).perform d with
  | mk answer next =>
    rw [ran] at unfailing live
    rw [perform_startDocument d idle, unfailing answer List.mem_cons_self] at ran
    obtain ⟨fresh, last, started, made, rfl⟩ := Dispatcher.withContext_ok ran
    cases started
    obtain ⟨work, called, rfl⟩ := perform_ok made
    obtain ⟨first, going, later⟩ := live_feed nesting inner
      (fun other member => unfailing other (List.mem_cons_of_mem _ member)) live
    cases going
    apply later
    refine (follows_fresh nested depth d).alike ⟨rfl, rfl, ?_⟩
    exact nesting.quiet_start depth d.rules.actions _ _ _ _ _ rfl called

theorem makes_element (c : Catalogue σ) (trims : Bool) (tag : Tag) (content : Content) :
    Makes c trims (tag.element content) (do
      (do Context.openElement c tag.name tag.attributes tag.declared; content.play c trims)
      Context.closeElement c trims tag.name) :=
  ((makes_tag tag).append (makes_content trims content)).append (makes_finish tag.name)

theorem live_of_finish {c : Catalogue σ} {es : List Event} {name : QName}
    (unfailing : ∀ answer ∈ (feed c (es ++ [.finish name]) d).1, answer = .ok ()) :
    ∃ after, (feed c (es ++ [.finish name]) d).2.progress = .live after := by
  rw [feed_append] at unfailing ⊢
  cases ran : ((Event.finish name).run c).perform (feed c es d).2 with
  | mk answer next =>
    simp only [feed, ran] at unfailing ⊢
    rw [unfailing answer (by simp), perform_finish] at ran
    obtain ⟨_, after, _, _, rfl⟩ := Dispatcher.withContext_ok ran
    exact ⟨after, rfl⟩

-- While nothing fails, the document is at all times as its open tags say: every element has been
-- matched against the registry opened last on the nearest element around it that has one open, and
-- where there is one, the rules are those of a set that is mounted there and no others. Each scope
-- knows the registry beneath it. Any element leaves the scopes as it has found them.
theorem scopes_document (nesting : Nesting definitions nested) (depth : Nat) (d : Dispatcher σ)
    (idle : d.state ≠ .documentStarted) (es : List Event) (inner : ∀ e ∈ es, e ≠ .startDocument)
    (unfailing : ∀ answer ∈ (feed (Catalogue.tie definitions depth) (.startDocument :: es) d).1,
      answer = .ok ())
    (ctx : Context σ)
    (live : (feed (Catalogue.tie definitions depth) (.startDocument :: es) d).2.progress = .live ctx) :
    let elements := levels nested depth d.rules (openTags es)
    ctx.site.trail = trailOf (openTags es) ∧
    ctx.frames.map Frame.matched = elements.map Level.matched ∧
    ctx.work.scopes = elements.flatMap Level.scopes ∧
    (∀ inside level around, elements = inside ++ level :: around →
      level.actions = (nearest d.rules around).matching level.mount.path ∧
      ∀ between host outside, around = between ++ host :: outside → host.scopes ≠ [] →
        ∃ nearer ∈ between ++ [host], ∃ scope ∈ nearer.scopes,
          Installed nested nearer.mount scope ∧
            level.actions = scope.rules.table.matching level.mount.path) ∧
    (∀ level ∈ elements, ∀ scope ∈ level.scopes, Installed nested level.mount scope) ∧
    Chained d.rules ctx.work.scopes ∧
    ∀ (tag : Tag) (content : Content),
      let whole := .startDocument :: (es ++ tag.element content)
      (∀ answer ∈ (feed (Catalogue.tie definitions depth) whole d).1, answer = .ok ()) →
        ∃ after, (feed (Catalogue.tie definitions depth) whole d).2.progress = .live after ∧
          after.work.scopes = ctx.work.scopes ∧
            after.site.active after.work = ctx.site.active ctx.work := by
  intro elements
  have follows := follows_document nesting idle inner unfailing live
  refine ⟨follows.trail, follows.frames, follows.scopes, ?_, ?_, ?_, ?_⟩
  · intro inside level around shape
    have actions := actions_of_mem_levels shape
    refine ⟨actions, ?_⟩
    intro between host outside split mounted
    subst split
    obtain ⟨nearer, known, scope, on, same⟩ :=
      nearest_of_host d.rules mounted between outside
    have member : nearer ∈ elements := by
      rw [shape]
      rcases List.mem_append.mp known with further | own
      · simp [further]
      · simp [List.mem_singleton.mp own]
    refine ⟨nearer, known, scope, on, installed_of_mem_levels member on, ?_⟩
    rw [actions, same]
    rfl
  · exact fun level member scope on => installed_of_mem_levels member on
  · rw [follows.scopes]
    exact chained_levels _
  -- The tags that are open behind an element are those that were open before it.
  · intro tag content whole unfailing
    have ends : whole = (.startDocument :: (es ++ (tag.events ++ content.events))) ++
        [.finish tag.name] := by
      simp [whole, Tag.element]
    obtain ⟨after, going⟩ := live_of_finish (ends ▸ unfailing)
    rw [← ends] at going
    have started : ∀ e ∈ es ++ tag.element content, e ≠ .startDocument := by
      intro e member
      rcases List.mem_append.mp member with early | late
      · exact inner e early
      · exact (makes_element (Catalogue.tie definitions depth) d.trims tag content).1 e late
    have again := follows_document nesting idle started unfailing going
    have closed : openTags (es ++ tag.element content) = openTags es := by
      rw [openTags, List.foldl_append, tag.track_element]
      rfl
    rw [closed] at again
    refine ⟨after, going, ?_, ?_⟩
    · rw [again.scopes, follows.scopes]
    · rw [again.active_eq, follows.active_eq]

theorem scopes_document_of_three_owners :
    let actions : ActionId → StockAction := fun id => match id.index with
      | 0 => .nested (.single [.rule "r" ⟨2⟩, .rule "x" ⟨5⟩])
      | 1 => .nested {
          sets := ({} : Std.TreeMap String (List Registration)).insert "k" [.rule "x" ⟨7⟩, .fallback ⟨8⟩]
          selector := some "kind" }
      | 2 => .nested (.single [.rule "x" ⟨6⟩, .mandatory ⟨9⟩])
      | _ => .create { type := "t" }
    let table : RuleTable :=
      ((RuleTable.registerAll [.rule "r" ⟨0⟩, .rule "r" ⟨1⟩, .fallback ⟨4⟩]).perform {}).2
    let d : Dispatcher Unit :=
      .new (.base table) (({} : Factory).register "t" Constructor.blank) true ()
    let es : List Event := [.start ⟨"", "r"⟩ ⟨[{ name := "kind", value := "k" }]⟩, .start ⟨"", "x"⟩ {}]
    let definitions : ActionId → Definition Unit := fun id => (actions id).definition id
    (∀ answer ∈ (feed (Catalogue.tie definitions 3) (.startDocument :: es) d).1, answer = .ok ()) ∧
      ∃ ctx, (feed (Catalogue.tie definitions 3) (.startDocument :: es) d).2.progress = .live ctx ∧
      ctx.frames.map Frame.matched = [(⟨"", "x"⟩, [⟨7⟩]), (⟨"", "r"⟩, [⟨0⟩, ⟨1⟩])] ∧
      ctx.work.scopes.map Scope.owner =
        [some (.nested ⟨1⟩), some (.nested ⟨2⟩), some (.nested ⟨0⟩)] ∧
      Chained (.base table) ctx.work.scopes := by
  intro actions table d es definitions
  have idle : d.state ≠ .documentStarted := by decide
  have inner : ∀ e ∈ es, e ≠ .startDocument := by simp [es]
  have nesting : Nesting definitions fun id => (actions id).nested? := StockAction.nesting actions
  have unfailing : ∀ answer ∈ (feed (Catalogue.tie definitions 3) (.startDocument :: es) d).1,
      answer = .ok () := by decide +kernel
  have started : (feed (Catalogue.tie definitions 3) (.startDocument :: es) d).2.state =
      .documentStarted := by decide +kernel
  obtain ⟨ctx, live⟩ := Dispatcher.live_of_started started
  obtain ⟨_, frames, scopes, _, _, chained, _⟩ :=
    scopes_document nesting 3 d idle es inner unfailing ctx live
  refine ⟨unfailing, ctx, live, ?_, ?_, chained⟩
  · exact frames.trans (by decide +kernel)
  · rw [scopes]
    decide +kernel

end Event
end XmlRules
