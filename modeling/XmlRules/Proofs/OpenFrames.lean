import XmlRules.Proofs.FailedCalls
import XmlRules.Proofs.ScopeDepths
import XmlRules.Proofs.SeparateParts
namespace XmlRules

def Site.leave (site : Site) : Site :=
  { site with bindings := site.bindings.leave, trail := site.trail.leave?.getD site.trail }

@[simp] theorem Site.leave_enter (site : Site) (name : QName) (declared : List (String × String)) :
    (site.enter name declared).leave = site := by
  simp [leave, enter, Trail.leave?_enter]

theorem Trail.path_eq_join (names : List QName) :
    (along names).path = String.join (names.map fun name => "/" ++ name.text) := by
  induction names using List.reverseRecOn with
  | nil => rfl
  | append_singleton outer name ih =>
    simp [along_append, enter, ih, String.join_append, String.append_assoc]

section Frames
variable {σ : Type} {c : Catalogue σ} {d : Dispatcher σ} {ctx after : Context σ} {e : Event}

-- The frames, the trail and the bindings each have one entry for each open element.
structure Context.Framed (ctx : Context σ) : Prop where
  trail : ctx.site.trail = .along (ctx.frames.map Frame.name).reverse
  bindings : ctx.site.bindings.depth = ctx.frames.length

theorem Context.Framed.depth (framed : ctx.Framed) : ctx.depth = ctx.frames.length := by
  simp [Context.depth, framed.trail, Trail.depth_along]

theorem Context.Framed.path (framed : ctx.Framed) :
    ctx.path = String.join (ctx.frames.reverse.map fun frame => "/" ++ frame.name.text) := by
  simp [Context.path, framed.trail, Trail.path_eq_join, Function.comp_def]

theorem Context.names_addText (ctx : Context σ) (content : String) :
    (ctx.addText content).frames.map Frame.name = ctx.frames.map Frame.name := by
  obtain ⟨site, frames, work⟩ := ctx
  cases frames <;> rfl

namespace Event

-- What an event does to a document that goes on, and what it asks for there.
inductive Passes (c : Catalogue σ) (d : Dispatcher σ) (ctx after : Context σ) :
    Event → List Duty → Prop where
  | aside {e : Event} (aside : e.aside) (same : after = ctx) : Passes c d ctx after e []
  | start (name : QName) (attrs : Attributes) (site : after.site = ctx.site.enter name d.pending)
      (frames : after.frames =
        ⟨name, matched c (.start name attrs) d, "", ""⟩ :: Context.delivered ctx.frames) :
      Passes c d ctx after (.start name attrs) (Context.waiting ctx.site ctx.frames ++
        (matched c (.start name attrs) d).map
          (⟨·, .begin name attrs, ctx.site.enter name d.pending⟩))
  | text (content : String) (site : after.site = ctx.site)
      (frames : after.frames = (ctx.addText content).frames) :
      Passes c d ctx after (.text content) []
  | finish {frame : Frame} {frames : List Frame} (innermost : ctx.frames = frame :: frames)
      (site : after.site = ctx.site.leave) (left : after.frames = frames) :
      Passes c d ctx after (.finish frame.name) (Context.waiting ctx.site ctx.frames ++
        (frame.actions.map (⟨·, .body frame.name
            (if d.trims then Text.trimmed frame.body else frame.body), ctx.site⟩) ++
          frame.actions.reverse.map (⟨·, .ending frame.name, ctx.site⟩)))

theorem passes_run (live : d.progress = .live ctx)
    (lives : ((e.run c).perform d).2.progress = .live after) :
    ∃ due, (callbacks c [e] d).map Callback.duty = due ∧ Passes c d ctx after e due := by
  cases outcome c e d with
  | silent none same =>
    obtain ⟨was, aside⟩ := same after lives
    cases live.symm.trans was
    exact ⟨[], congrArg _ none, .aside aside rfl⟩
  | @asked _ due _ _ asks chain verdict part well badly =>
    by_cases ok : ((e.run c).perform d).1 = .ok ()
    · obtain ⟨all, settles⟩ := well ok
      have settled := settles.symm.trans lives
      refine ⟨due, all, ?_⟩
      cases asks with
      | startDocument idle => exact absurd (Dispatcher.state_of_live live) idle
      | start same name attrs =>
        cases live.symm.trans same
        cases settled
        exact .start name attrs rfl rfl
      | text same content =>
        cases live.symm.trans same
        cases settled
        exact .text content (by cases ctx with | mk site frames work => cases frames <;> rfl) rfl
      | finish same innermost =>
        cases live.symm.trans same
        cases settled
        refine .finish innermost rfl ?_
        change (Context.delivered ctx.frames).tail = _
        rw [innermost]
        rfl
      | endDocument same closed => cases settled
    · cases (badly ok).symm.trans lives

theorem Passes.framed {due : List Duty} (passes : Passes c d ctx after e due) (framed : ctx.Framed) :
    after.Framed := by
  cases passes with
  | aside aside same => exact same ▸ framed
  | start name attrs site frames =>
    refine ⟨?_, ?_⟩
    · rw [site, frames, List.map_cons, Course.names_delivered, List.reverse_cons, Trail.along_append,
        ← framed.trail]
      rfl
    · rw [site, frames, List.length_cons, Context.length_delivered, ← framed.bindings]
      rfl
  | text content site frames =>
    have names := ctx.names_addText content
    refine ⟨by rw [site, frames, names, framed.trail], ?_⟩
    have size := congrArg List.length names
    simp only [List.length_map] at size
    rw [site, frames, size, framed.bindings]
  | finish innermost site left =>
    obtain ⟨trail, bindings⟩ := framed
    rw [innermost] at trail bindings
    refine ⟨?_, ?_⟩
    · rw [site, left, Site.leave, trail, List.map_cons, List.reverse_cons, Trail.along_append,
        Trail.leave?_enter]
      rfl
    · rw [site, left]
      have size : ctx.site.leave.bindings.depth = ctx.site.bindings.depth - 1 := by
        simp [Site.leave, Bindings.leave, Bindings.depth]
      rw [size, bindings]
      rfl

theorem live_or_fresh (lives : ((e.run c).perform d).2.progress = .live after) :
    (∃ ctx, d.progress = .live ctx) ∨ after.site = d.fresh.site ∧ after.frames = [] := by
  cases outcome c e d with
  | silent none same => exact .inl ⟨after, (same after lives).1⟩
  | asked asks chain verdict part well badly =>
    by_cases ok : ((e.run c).perform d).1 = .ok ()
    · have settled := (well ok).2.symm.trans lives
      cases asks with
      | startDocument idle =>
        cases settled
        exact .inr ⟨rfl, rfl⟩
      | start live | text live | finish live | endDocument live => exact .inl ⟨_, live⟩
    · cases (badly ok).symm.trans lives

theorem framed_feed (idle : d.state ≠ .documentStarted) (es : List Event)
    (lives : (feed c es d).2.progress = .live ctx) : ctx.Framed := by
  induction es using List.reverseRecOn generalizing ctx with
  | nil => exact absurd (Dispatcher.state_of_live lives) idle
  | append_singleton es e ih =>
    rw [feed_snoc] at lives
    rcases live_or_fresh lives with ⟨before, live⟩ | ⟨site, frames⟩
    · obtain ⟨_, _, passes⟩ := passes_run live lives
      exact passes.framed (ih live)
    · exact ⟨by rw [site, frames]; rfl, by rw [site, frames]; rfl⟩

-- What is told while an element is open, from the first event of all: its start, then what passes by
-- and whole elements within it, as long as the document goes on.
inductive Inside (c : Catalogue σ) (d : Dispatcher σ) :
    List Event → QName → Attributes → List Event → Prop where
  | opened {past : List Event} {name : QName} {attrs : Attributes}
      (before : (feed c past d).2.state = .documentStarted)
      (lives : (feed c (past ++ [.start name attrs]) d).2.state = .documentStarted) :
      Inside c d past name attrs (past ++ [.start name attrs])
  | passed {past : List Event} {name : QName} {attrs : Attributes} {es : List Event} {e : Event}
      (inside : Inside c d past name attrs es) (starts : ∀ label others, e ≠ .start label others)
      (ends : ∀ label, e ≠ .finish label)
      (lives : (feed c (es ++ [e]) d).2.state = .documentStarted) :
      Inside c d past name attrs (es ++ [e])
  | element {past : List Event} {name : QName} {attrs : Attributes} {es : List Event} {label : QName}
      {others : Attributes} {inner : List Event} (inside : Inside c d past name attrs es)
      (child : Inside c d es label others inner) (ended : QName)
      (lives : (feed c (inner ++ [.finish ended]) d).2.state = .documentStarted) :
      Inside c d past name attrs (inner ++ [.finish ended])

structure Entered (before now : Context σ) (name : QName) : Prop where
  site : ∃ declared, now.site = before.site.enter name declared
  frames : ∃ frame, frame.name = name ∧ now.frames = frame :: Context.delivered before.frames

theorem Entered.depth {before now : Context σ} {name : QName} (entered : Entered before now name) :
    now.depth = before.depth + 1 := by
  obtain ⟨declared, site⟩ := entered.site
  simp [Context.depth, site, Site.enter, Trail.enter, Trail.depth]

theorem Entered.leave {before now : Context σ} {name : QName} (entered : Entered before now name) :
    now.site.leave = before.site := by
  obtain ⟨declared, site⟩ := entered.site
  rw [site, Site.leave_enter]

theorem Passes.left {before : Context σ} {name label : QName} {due : List Duty}
    (passes : Passes c d ctx after (.finish label) due) (entered : Entered before ctx name) :
    label = name ∧ after.site = before.site ∧ after.frames = Context.delivered before.frames := by
  obtain ⟨frame, named, frames⟩ := entered.frames
  cases passes with
  | aside aside => cases aside
  | finish innermost site left =>
    obtain ⟨rfl, rfl⟩ := List.cons.inj (innermost.symm.trans frames)
    exact ⟨named, site.trans entered.leave, left⟩

theorem Inside.starts {past es : List Event} {name : QName} {attrs : Attributes}
    (inside : Inside c d past name attrs es) : past ++ [.start name attrs] <+: es := by
  induction inside with
  | opened before lives => exact List.prefix_refl _
  | passed inside starts ends lives ih => exact ih.trans (List.prefix_append _ _)
  | element inside child ended lives ih within =>
    exact ih.trans (((List.prefix_append _ _).trans within).trans (List.prefix_append _ _))

theorem Inside.entered {past es : List Event} {name : QName} {attrs : Attributes}
    (inside : Inside c d past name attrs es) : ∃ before now,
      (feed c past d).2.progress = .live before ∧ (feed c es d).2.progress = .live now ∧
        Entered before now name := by
  induction inside with
  | @opened past name attrs started lives =>
    obtain ⟨before, live⟩ := Dispatcher.live_of_started started
    obtain ⟨now, going⟩ := Dispatcher.live_of_started lives
    refine ⟨before, now, live, going, ?_⟩
    rw [feed_snoc] at going
    obtain ⟨_, _, passes⟩ := passes_run live going
    cases passes with
    | aside aside => cases aside
    | start name attrs site frames => exact ⟨⟨_, site⟩, _, rfl, frames⟩
  | @passed past name attrs es e inside starts ends lives ih =>
    obtain ⟨before, now, live, going, entered⟩ := ih
    obtain ⟨next, lasts⟩ := Dispatcher.live_of_started lives
    refine ⟨before, next, live, lasts, ?_⟩
    rw [feed_snoc] at lasts
    obtain ⟨_, _, passes⟩ := passes_run going lasts
    cases passes with
    | aside aside same => exact same ▸ entered
    | start label others => exact absurd rfl (starts label others)
    | finish => exact absurd rfl (ends _)
    | text content site frames =>
      obtain ⟨frame, named, shape⟩ := entered.frames
      refine ⟨?_, { frame with body := frame.body ++ content, segment := frame.segment ++ content },
        named, ?_⟩
      · rw [site]
        exact entered.site
      · rw [frames, Context.addText, shape]
  | @element past name attrs es label others inner inside child ended lives ih within =>
    obtain ⟨before, now, live, going, entered⟩ := ih
    obtain ⟨outer, innermost, there, deep, nested⟩ := within
    cases going.symm.trans there
    obtain ⟨next, lasts⟩ := Dispatcher.live_of_started lives
    refine ⟨before, next, live, lasts, ?_⟩
    rw [feed_snoc] at lasts
    obtain ⟨_, _, passes⟩ := passes_run deep lasts
    obtain ⟨rfl, site, frames⟩ := passes.left nested
    obtain ⟨frame, named, shape⟩ := entered.frames
    refine ⟨?_, { frame with segment := "" }, named, ?_⟩
    · rw [site]
      exact entered.site
    · rw [frames, shape, Context.delivered]

theorem Inside.deeper {past es : List Event} {name : QName} {attrs : Attributes} {before : Context σ}
    (inside : Inside c d past name attrs es) (live : (feed c past d).2.progress = .live before)
    {soon : List Event} (since : past ++ [.start name attrs] <+: soon) (part : soon <+: es) :
    before.depth < (feed c soon d).2.depth := by
  have last {past es : List Event} {name : QName} {attrs : Attributes} {before : Context σ}
      (inside : Inside c d past name attrs es) (live : (feed c past d).2.progress = .live before) :
      before.depth < (feed c es d).2.depth := by
    obtain ⟨outer, now, there, going, entered⟩ := inside.entered
    cases live.symm.trans there
    rw [Dispatcher.depth_of_live going, entered.depth]
    exact Nat.lt_succ_self _
  induction inside generalizing before with
  | opened started lives =>
    rw [part.eq_of_length_le since.length_le]
    exact last (.opened started lives) live
  | passed inside starts ends lives ih =>
    rcases List.prefix_concat_iff.mp part with rfl | early
    · exact last (.passed inside starts ends lives) live
    · exact ih live since early
  | @element past name attrs es label others inner inside child ended lives ih within =>
    rcases List.prefix_concat_iff.mp part with rfl | early
    · exact last (.element inside child ended lives) live
    · obtain ⟨_, now, there, going, entered⟩ := inside.entered
      cases live.symm.trans there
      -- Until the element within starts, the one around it is the innermost.
      have reached : soon <+: es ∨ es ++ [.start label others] <+: soon := by
        rcases List.prefix_or_prefix_of_prefix early child.starts with short | long
        · rcases List.prefix_concat_iff.mp short with rfl | shorter
          · exact .inr (List.prefix_refl _)
          · exact .inl shorter
        · exact .inr long
      rcases reached with short | long
      · exact ih live since short
      · have deep := within going long early
        have := entered.depth
        omega

-- The innermost open element has been started some time, and it has been open since.
theorem inside_of_live (idle : d.state ≠ .documentStarted) (es : List Event)
    (lives : (feed c es d).2.progress = .live ctx) (some : ctx.frames ≠ []) :
    ∃ past name attrs, Inside c d past name attrs es := by
  induction size : es.length using Nat.strong_induction_on generalizing es ctx with
  | _ n ih =>
    rcases List.eq_nil_or_concat es with rfl | ⟨es, e, rfl⟩
    · exact absurd (Dispatcher.state_of_live lives) idle
    rw [List.concat_eq_append] at lives ⊢
    have started := Dispatcher.state_of_live lives
    have shorter : es.length < n := by simp [← size]
    have run := lives
    rw [feed_snoc] at run
    rcases live_or_fresh run with ⟨before, live⟩ | ⟨_, none⟩
    · obtain ⟨_, _, passes⟩ := passes_run live run
      cases passes with
      | aside aside same =>
        obtain ⟨past, name, attrs, inside⟩ := ih _ shorter es live (same ▸ some) rfl
        exact ⟨past, name, attrs, .passed inside (by rintro _ _ rfl; cases aside)
          (by rintro _ rfl; cases aside) started⟩
      | start name attrs => exact ⟨es, name, attrs, .opened (Dispatcher.state_of_live live) started⟩
      | text content site frames =>
        have open_ : before.frames ≠ [] := by
          intro none
          rw [frames, Context.addText, none] at some
          exact some none
        obtain ⟨past, name, attrs, inside⟩ := ih _ shorter es live open_ rfl
        exact ⟨past, name, attrs, .passed inside (by simp) (by simp) started⟩
      | @finish frame frames innermost site left =>
        obtain ⟨past, name, attrs, child⟩ := ih _ shorter es live (by simp [innermost]) rfl
        obtain ⟨outer, now, there, going, entered⟩ := child.entered
        cases live.symm.trans going
        obtain ⟨own, _, shape⟩ := entered.frames
        have around : outer.frames ≠ [] := by
          intro none
          rw [innermost, none] at shape
          exact some (left.trans (List.cons.inj shape).2)
        have earlier : past.length < n := by
          have := child.starts.length_le
          simp only [List.length_append, List.length_singleton] at this
          omega
        obtain ⟨first, outside, others, inside⟩ := ih _ earlier past there around rfl
        exact ⟨first, outside, others, .element inside child frame.name started⟩
    · exact absurd none some

theorem inside_of_finish (idle : d.state ≠ .documentStarted) {es : List Event} {name : QName}
    (fine : (((Event.finish name).run c).perform (feed c es d).2).1 = .ok ()) :
    ∃ past attrs before now after due, Inside c d past name attrs es ∧
      (feed c past d).2.progress = .live before ∧ (feed c es d).2.progress = .live now ∧
      (((Event.finish name).run c).perform (feed c es d).2).2.progress = .live after ∧
      Entered before now name ∧
      (callbacks c [.finish name] (feed c es d).2).map Callback.duty = due ∧
      Passes c (feed c es d).2 now after (.finish name) due := by
  obtain ⟨after, lasts⟩ := Dispatcher.live_of_started (live_of_finish_ok fine)
  have within : Within c [.finish name] (feed c es d).2 := ⟨by simp, trivial⟩
  obtain ⟨now, live⟩ := live_before within lasts
  obtain ⟨due, calls, passes⟩ := passes_run live lasts
  have some : now.frames ≠ [] := by
    cases passes with
    | aside aside => cases aside
    | finish innermost => simp [innermost]
  obtain ⟨past, opened, attrs, inside⟩ := inside_of_live idle es live some
  obtain ⟨before, _, there, going, entered⟩ := inside.entered
  cases live.symm.trans going
  obtain ⟨rfl, _, _⟩ := passes.left entered
  exact ⟨past, attrs, before, now, after, due, inside, there, live, lasts, entered, calls, passes⟩

-- There is a document exactly while the state says so, even where nothing but the steps themselves
-- keeps the two together, and so none is ever missed. Between the events of a document the path, the
-- frames and the bindings go as deep as each other, with the same names, and an element that ends
-- gives back all three as its start has found them; the text before it has been delivered meanwhile.
theorem frames_in_step (c : Catalogue σ) (d : Dispatcher σ) (idle : d.state ≠ .documentStarted)
    (es : List Event) :
    let now := (feed c es d).2
    let apart := Loose.feed c es d.parts
    (apart.1 = (feed c es d).1.map Loose.said ∧ .error .noContext ∉ apart.1 ∧ apart.2.Shows now ∧
      (apart.2.context?.isSome ↔ apart.2.state = .documentStarted)) ∧
    ∀ ctx, now.progress = .live ctx →
      ctx.depth = ctx.frames.length ∧ ctx.site.bindings.depth = ctx.frames.length ∧
      ctx.path = String.join (ctx.frames.reverse.map fun frame => "/" ++ frame.name.text) ∧
      ∀ name, (((Event.finish name).run c).perform now).1 = .ok () →
        ∃ past attrs before after, (feed c past d).2.progress = .live before ∧
          past ++ [.start name attrs] <+: es ∧
          (∀ soon, past ++ [.start name attrs] <+: soon → soon <+: es →
            before.depth < (feed c soon d).2.depth) ∧
          (((Event.finish name).run c).perform now).2.progress = .live after ∧
          after.site = before.site ∧ after.frames = Context.delivered before.frames := by
  intro now apart
  obtain ⟨answers, shows⟩ := Loose.agrees_feed (c := c) (Loose.shows_parts d) es
  refine ⟨⟨answers, ?_, shows, shows.context_iff⟩, fun ctx live => ?_⟩
  · intro missed
    rw [show apart.1 = _ from answers] at missed
    obtain ⟨answer, _, same⟩ := List.mem_map.mp missed
    exact Loose.said_ne_noContext answer same
  · have framed := framed_feed idle es live
    refine ⟨framed.depth, framed.bindings, framed.path, fun name fine => ?_⟩
    obtain ⟨past, attrs, before, _, after, _, inside, there, going, lasts, entered, _, passes⟩ :=
      inside_of_finish idle fine
    cases live.symm.trans going
    obtain ⟨_, site, frames⟩ := passes.left entered
    exact ⟨past, attrs, before, after, there, inside.starts,
      fun soon since part => inside.deeper there since part, lasts, site, frames⟩

theorem frames_in_step_of_mixed_content :
    let table := ((RuleTable.registerAll [.rule "r" ⟨0⟩, .rule "x" ⟨0⟩]).perform {}).2
    let c : Catalogue (List String) := fun _ =>
      { name := "reader", onSegment := fun _ text => Step.note (text :: ·) }
    let d : Dispatcher (List String) := .new (.base table) {} false []
    let r : QName := ⟨"", "r"⟩
    let x : QName := ⟨"urn", "x"⟩
    let es : List Event := [.startDocument, .start r {}, .text "one", .declare "p" "urn", .start x {},
      .startDocument, .text "two", .start r {}, .finish r]
    d.state ≠ .documentStarted ∧ (((Event.finish x).run c).perform (feed c es d).2).1 = .ok () ∧
      ∃ past attrs before after, (feed c past d).2.progress = .live before ∧
        past ++ [.start x attrs] <+: es ∧
        (((Event.finish x).run c).perform (feed c es d).2).2.progress = .live after ∧
        after.site = before.site ∧ after.frames = Context.delivered before.frames := by
  intro table c d r x es
  have idle : d.state ≠ .documentStarted := by decide
  have fine : (((Event.finish x).run c).perform (feed c es d).2).1 = .ok () := by decide +kernel
  have started : (feed c es d).2.state = .documentStarted := by decide +kernel
  obtain ⟨ctx, live⟩ := Dispatcher.live_of_started started
  obtain ⟨_, _, _, closes⟩ := (frames_in_step c d idle es).2 ctx live
  obtain ⟨past, attrs, before, after, there, starts, _, ended⟩ := closes x fine
  exact ⟨idle, fine, past, attrs, before, after, there, starts, ended⟩

end Event
end Frames
end XmlRules
