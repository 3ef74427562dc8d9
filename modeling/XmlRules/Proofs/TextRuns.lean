import Mathlib.Logic.Relation
import XmlRules.Proofs.OpenFrames
namespace XmlRules

structure Response (σ : Type) where
  event : Event
  calls : List (Callback σ)
  answer : Except DispatchError Unit
  after : Dispatcher σ

def Event.isText : Event → Bool
  | .text _ => true
  | _ => false

namespace Event
variable {σ : Type} {c : Catalogue σ} {d : Dispatcher σ}

def history (c : Catalogue σ) : List Event → Dispatcher σ → List (Response σ)
  | [], _ => []
  | e :: es, d =>
    let (answer, after) := (e.run c).perform d
    ⟨e, callbacks c [e] d, answer, after⟩ :: history c es after

def responses (c : Catalogue σ) (es : List Event) (d : Dispatcher σ) : List (Response σ) :=
  (history c es d).filter fun response => !response.event.isText

theorem responses_append (es fs : List Event) (d : Dispatcher σ) :
    responses c (es ++ fs) d = responses c es d ++ responses c fs (feed c es d).2 := by
  induction es generalizing d with
  | nil => rfl
  | cons e es ih =>
    have rest := ih ((e.run c).perform d).2
    unfold responses at rest ⊢
    simp only [List.cons_append, history, feed, List.filter_cons, rest]
    split <;> rfl

-- The same text in other pieces: one piece cut in two, or an empty one put in.
inductive Recut : List Event → List Event → Prop where
  | split (before after : List Event) (s t : String) :
      Recut (before ++ .text (s ++ t) :: after) (before ++ .text s :: .text t :: after)
  | empty (before after : List Event) : Recut (before ++ after) (before ++ .text "" :: after)

structure Alike (c : Catalogue σ) (d : Dispatcher σ) (es fs : List Event) : Prop where
  responses : responses c es d = responses c fs d
  callbacks : callbacks c es d = callbacks c fs d
  after : (feed c es d).2 = (feed c fs d).2

theorem Alike.append {before es fs : List Event} (after : List Event)
    (alike : Alike c (feed c before d).2 es fs) :
    Alike c d (before ++ es ++ after) (before ++ fs ++ after) := by
  obtain ⟨responses, callbacks, after⟩ := alike
  constructor
  · simp only [responses_append, feed_append, responses, after]
  · simp only [callbacks_append, feed_append, callbacks, after]
  · simp only [feed_append, after]

theorem callbacks_text (d : Dispatcher σ) (content : String) : callbacks c [.text content] d = [] := by
  cases outcome c (.text content) d with
  | silent none same => exact none
  | asked asks chain verdict part =>
    cases asks
    simpa using part

end Event

theorem Context.addText_addText {σ : Type} (ctx : Context σ) (s t : String) :
    (ctx.addText s).addText t = ctx.addText (s ++ t) := by
  obtain ⟨site, frames, work⟩ := ctx
  cases frames <;> simp [addText, String.append_assoc]

theorem Context.addText_empty {σ : Type} (ctx : Context σ) : ctx.addText "" = ctx := by
  obtain ⟨site, frames, work⟩ := ctx
  cases frames <;> simp [addText]

namespace Event
variable {σ : Type} {c : Catalogue σ} {d : Dispatcher σ}

theorem after_text (content : String) (d : Dispatcher σ) :
    (feed c [.text content] d).2 = match d.progress with
      | .live ctx => { d with progress := .live (ctx.addText content) }
      | _ => d := by
  obtain ⟨rules, factory, trims, pending, initialRoot, progress⟩ := d
  cases progress <;> rfl

theorem alike_split (s t : String) : Alike c d [.text (s ++ t)] [.text s, .text t] := by
  refine ⟨rfl, ?_, ?_⟩
  · rw [show [Event.text s, .text t] = [.text s] ++ [.text t] from rfl, callbacks_append]
    simp only [callbacks_text, List.append_nil]
  · rw [show [Event.text s, .text t] = [.text s] ++ [.text t] from rfl, feed_append]
    simp only [after_text]
    obtain ⟨rules, factory, trims, pending, initialRoot, progress⟩ := d
    cases progress <;> simp [Context.addText_addText]

theorem alike_empty : Alike c d [] [.text ""] := by
  refine ⟨rfl, ?_, ?_⟩
  · rw [callbacks_text]
    exact d.calls_logging
  · rw [after_text]
    obtain ⟨rules, factory, trims, pending, initialRoot, progress⟩ := d
    cases progress <;> simp [Context.addText_empty, feed]

theorem Recut.alike {es fs : List Event} (recut : Recut es fs) (d : Dispatcher σ) :
    Alike c d es fs := by
  cases recut with
  | split before after s t => simpa using (alike_split s t).append after
  | empty before after => simpa using alike_empty.append after

theorem alike_of_recuts {es fs : List Event} (recuts : Relation.EqvGen Recut es fs)
    (d : Dispatcher σ) : Alike c d es fs := by
  induction recuts with
  | rel es fs recut => exact recut.alike d
  | refl es => exact ⟨rfl, rfl, rfl⟩
  | symm es fs _ ih => exact ⟨ih.responses.symm, ih.callbacks.symm, ih.after.symm⟩
  | trans es fs gs _ _ first second =>
    exact ⟨first.responses.trans second.responses, first.callbacks.trans second.callbacks,
      first.after.trans second.after⟩

end Event

def Frame.given (frame : Frame) (runs : List String) : List String :=
  if frame.segment = "" then runs else runs ++ [frame.segment]

def Frame.spoken (frame : Frame) (site : Site) (runs : List String) : List Duty :=
  runs.flatMap fun run => frame.actions.map (⟨·, .segment frame.name run, site⟩)

theorem Frame.spoken_given (frame : Frame) (outer : List Frame) (site : Site) (runs : List String) :
    frame.spoken site (frame.given runs) =
      frame.spoken site runs ++ Context.waiting site (frame :: outer) := by
  unfold given spoken
  by_cases empty : frame.segment = ""
  · simp [empty, Context.waiting]
  · simp [empty, Context.waiting]

section Voices
variable {σ : Type} {c : Catalogue σ} {d : Dispatcher σ} {before now : Context σ}

-- What has been heard of an element so far: of the text before it nothing but what had been waiting
-- at its start, and on its own level its beginnings and the runs of its text.
structure Heard (before now : Context σ) (attrs : Attributes) (duties : List Duty) (frame : Frame)
    (runs : List String) : Prop where
  innermost : now.frames.head? = some frame
  whole : ∀ run ∈ runs, run ≠ ""
  body : frame.body = String.join runs ++ frame.segment
  around : duties.filter (·.depth ≤ before.depth) = Context.waiting before.site before.frames
  own : duties.filter (·.depth = before.depth + 1) =
    frame.actions.map (⟨·, .begin frame.name attrs, now.site⟩) ++ frame.spoken now.site runs

theorem Frame.join_given {frame : Frame} {runs : List String}
    (body : frame.body = String.join runs ++ frame.segment) :
    String.join (frame.given runs) = frame.body := by
  unfold given
  by_cases empty : frame.segment = ""
  · simp [body, empty]
  · simp [body, empty, String.join_append]

theorem Frame.whole_given {frame : Frame} {runs : List String} (whole : ∀ run ∈ runs, run ≠ "") :
    ∀ run ∈ frame.given runs, run ≠ "" := by
  unfold given
  by_cases empty : frame.segment = ""
  · simpa [empty] using whole
  · simpa [empty, or_imp, forall_and] using whole

theorem filter_depth_eq {duties : List Duty} {k : Nat} (level : ∀ duty ∈ duties, duty.depth = k) :
    duties.filter (·.depth = k) = duties := by
  simpa [List.filter_eq_self] using level

theorem filter_depth_le {duties : List Duty} {k n : Nat} (level : ∀ duty ∈ duties, duty.depth = k)
    (deeper : n < k) : duties.filter (·.depth ≤ n) = [] := by
  simp only [List.filter_eq_nil_iff, decide_eq_true_eq]
  intro duty member
  have := level duty member
  omega

theorem filter_depth_ne {duties : List Duty} {k n : Nat} (level : ∀ duty ∈ duties, duty.depth = k)
    (other : k ≠ n) : duties.filter (·.depth = n) = [] := by
  simp only [List.filter_eq_nil_iff, decide_eq_true_eq]
  intro duty member
  have := level duty member
  omega

theorem Context.depth_waiting (ctx : Context σ) :
    ∀ duty ∈ waiting ctx.site ctx.frames, duty.depth = ctx.depth := by
  intro duty member
  rw [Duty.depth, (Context.mem_waiting member).1]
  rfl

theorem Heard.text {attrs : Attributes} {duties : List Duty} {frame : Frame} {runs : List String}
    (heard : Heard before now attrs duties frame runs) {after : Context σ} {content : String}
    (site : after.site = now.site) (frames : after.frames = (now.addText content).frames) :
    ∃ frame, Heard before after attrs duties frame runs := by
  obtain ⟨innermost, whole, body, around, own⟩ := heard
  obtain ⟨here, shown, work⟩ := now
  cases shown with
  | nil => cases innermost
  | cons first outer =>
    cases innermost
    refine ⟨{ frame with body := frame.body ++ content, segment := frame.segment ++ content }, ?_,
      whole, ?_, around, ?_⟩
    · rw [frames]
      rfl
    · simp [body, String.append_assoc]
    · rw [own, site]
      rfl

theorem filter_depth_within (duties : List Duty) (p : Duty → Bool) {n : Nat}
    (within : ∀ duty, p duty → duty.depth ≤ n) :
    duties.filter p = (duties.filter (·.depth ≤ n)).filter p := by
  rw [List.filter_filter]
  apply List.filter_congr
  intro duty _
  by_cases holds : p duty
  · simp [holds, within duty holds]
  · simp [holds]

theorem Heard.element {attrs others : Attributes} {duties more last : List Duty}
    {frame deeper : Frame} {runs others' : List String} {inner after : Context σ}
    (heard : Heard before now attrs duties frame runs) (depth : now.depth = before.depth + 1)
    (child : Heard now inner others more deeper others')
    (level : ∀ duty ∈ last, duty.depth = now.depth + 1) (site : after.site = now.site)
    (frames : after.frames = Context.delivered now.frames) :
    Heard before after attrs (duties ++ (more ++ last)) { frame with segment := "" }
      (frame.given runs) := by
  obtain ⟨outer, shape⟩ := List.head?_eq_some_iff.mp heard.innermost
  have waits := now.depth_waiting
  refine ⟨?_, Frame.whole_given heard.whole, ?_, ?_, ?_⟩
  · rw [frames, shape]
    rfl
  · simp [Frame.join_given heard.body]
  · have inside : more.filter (·.depth ≤ before.depth) = [] := by
      rw [filter_depth_within more _ (n := now.depth) (by simp; omega), child.around,
        filter_depth_le waits (by omega)]
    simp [heard.around, inside, filter_depth_le level (show before.depth < now.depth + 1 by omega)]
  · have inside : more.filter (·.depth = before.depth + 1) = Context.waiting now.site now.frames := by
      rw [filter_depth_within more _ (n := now.depth) (by simp; omega), child.around, ← depth,
        filter_depth_eq waits]
    have told := frame.spoken_given outer now.site runs
    rw [← shape] at told
    simp only [List.filter_append, heard.own, inside, site,
      filter_depth_ne level (show now.depth + 1 ≠ before.depth + 1 by omega), List.append_nil]
    rw [List.append_assoc, ← told]
    rfl

end Voices

namespace Event
variable {σ : Type} {c : Catalogue σ} {d : Dispatcher σ}

def duties (c : Catalogue σ) (es : List Event) (d : Dispatcher σ) : List Duty :=
  (callbacks c es d).map Callback.duty

theorem after_append (es fs : List Event) (d : Dispatcher σ) :
    (feed c (es ++ fs) d).2 = (feed c fs (feed c es d).2).2 := by
  rw [feed_append]

theorem duties_append (es fs : List Event) (d : Dispatcher σ) :
    duties c (es ++ fs) d = duties c es d ++ duties c fs (feed c es d).2 := by
  rw [duties, callbacks_append, List.map_append]
  rfl

theorem heard_start {before now : Context σ} {name : QName} {attrs : Attributes} {due : List Duty}
    (passes : Passes c d before now (.start name attrs) due) :
    Heard before now attrs due ⟨name, matched c (.start name attrs) d, "", ""⟩ [] := by
  cases passes with
  | aside aside => cases aside
  | start name attrs site frames =>
    have begins : ∀ duty ∈ (matched c (.start name attrs) d).map
        (⟨·, .begin name attrs, before.site.enter name d.pending⟩ : ActionId → Duty),
        duty.depth = before.depth + 1 := by
      intro duty member
      obtain ⟨id, _, rfl⟩ := List.mem_map.mp member
      rfl
    have waits := before.depth_waiting
    refine ⟨by rw [frames]; rfl, by simp, rfl, ?_, ?_⟩
    · rw [List.filter_append, filter_depth_le begins (Nat.lt_succ_self _), List.append_nil,
        List.filter_eq_self]
      intro duty member
      simpa using Nat.le_of_eq (waits duty member)
    · rw [List.filter_append, filter_depth_eq begins,
        filter_depth_ne waits (Nat.ne_of_lt (Nat.lt_succ_self _)), site]
      simp [Frame.spoken]

theorem level_finish {ctx after : Context σ} {name : QName} {due : List Duty}
    (passes : Passes c d ctx after (.finish name) due) : ∀ duty ∈ due, duty.depth = ctx.depth := by
  cases passes with
  | aside aside => cases aside
  | finish innermost site left =>
    intro duty member
    simp only [List.mem_append, List.mem_map] at member
    rcases member with early | ⟨id, _, rfl⟩ | ⟨id, _, rfl⟩
    · exact ctx.depth_waiting duty early
    · rfl
    · rfl

-- While an element is open, what is waiting of its text is all that has not been heard of it.
theorem Inside.heard {past es : List Event} {name : QName} {attrs : Attributes}
    (inside : Inside c d past name attrs es) : ∃ before now span frame runs,
      (feed c past d).2.progress = .live before ∧ (feed c es d).2.progress = .live now ∧
        es = past ++ span ∧ Heard before now attrs (duties c span (feed c past d).2) frame runs := by
  induction inside with
  | @opened past name attrs started lives =>
    obtain ⟨before, live⟩ := Dispatcher.live_of_started started
    obtain ⟨now, going⟩ := Dispatcher.live_of_started lives
    have run := going
    rw [feed_snoc] at run
    obtain ⟨due, calls, passes⟩ := passes_run live run
    exact ⟨before, now, [.start name attrs], _, [], live, going, rfl, calls ▸ heard_start passes⟩
  | @passed past name attrs es e inside starts ends lives ih =>
    obtain ⟨before, now, span, frame, runs, live, going, rfl, heard⟩ := ih
    obtain ⟨next, lasts⟩ := Dispatcher.live_of_started lives
    have run := lasts
    rw [feed_snoc] at run
    obtain ⟨due, calls, passes⟩ := passes_run going run
    have silent : due = [] := by
      cases passes with
      | aside | text => rfl
      | start => exact absurd rfl (starts _ _)
      | finish => exact absurd rfl (ends _)
    have same : duties c (span ++ [e]) (feed c past d).2 = duties c span (feed c past d).2 := by
      rw [duties_append, ← after_append, show duties c [e] _ = due from calls, silent,
        List.append_nil]
    suffices more : ∃ frame, Heard before next attrs (duties c span (feed c past d).2) frame runs by
      obtain ⟨frame, heard⟩ := more
      exact ⟨before, next, span ++ [e], frame, runs, live, lasts, List.append_assoc _ _ _,
        same.symm ▸ heard⟩
    cases passes with
    | aside aside still => exact ⟨frame, still ▸ heard⟩
    | text content site frames => exact heard.text site frames
    | start => exact absurd rfl (starts _ _)
    | finish => exact absurd rfl (ends _)
  | @element past name attrs es label others inner inside child ended lives ih within =>
    obtain ⟨before, now, span, frame, runs, live, going, rfl, heard⟩ := ih
    obtain ⟨_, deepest, more, deeper, further, there, deep, rfl, nested⟩ := within
    cases going.symm.trans there
    obtain ⟨outer, _, begun, lived, around⟩ := inside.entered
    cases live.symm.trans begun
    cases going.symm.trans lived
    obtain ⟨_, _, known, innermost, entered⟩ := child.entered
    cases going.symm.trans known
    cases deep.symm.trans innermost
    obtain ⟨next, lasts⟩ := Dispatcher.live_of_started lives
    have run := lasts
    rw [feed_snoc] at run
    obtain ⟨due, calls, passes⟩ := passes_run deep run
    obtain ⟨_, site, frames⟩ := passes.left entered
    have level := level_finish passes
    rw [entered.depth] at level
    refine ⟨before, next, span ++ (more ++ [.finish ended]), { frame with segment := "" },
      frame.given runs, live, lasts, ?_, ?_⟩
    · simp
    · have split : duties c (span ++ (more ++ [.finish ended])) (feed c past d).2 =
          duties c span (feed c past d).2 ++
            (duties c more (feed c (past ++ span) d).2 ++ due) := by
        rw [duties_append, duties_append, ← calls, after_append (past ++ span), after_append past]
        rfl
      rw [split]
      exact heard.element around.depth nested level site frames

theorem heard_finish {before now after : Context σ} {attrs : Attributes} {duties due : List Duty}
    {frame : Frame} {outer : List Frame} {runs : List String}
    (heard : Heard before now attrs duties frame runs) (shape : now.frames = frame :: outer)
    (depth : now.depth = before.depth + 1) (passes : Passes c d now after (.finish frame.name) due) :
    (duties ++ due).filter (·.depth = before.depth + 1) =
      frame.actions.map (⟨·, .begin frame.name attrs, now.site⟩) ++
        frame.spoken now.site (frame.given runs) ++
        (frame.actions.map (⟨·, .body frame.name
            (if d.trims then Text.trimmed frame.body else frame.body), now.site⟩) ++
          frame.actions.reverse.map (⟨·, .ending frame.name, now.site⟩)) := by
  have level := level_finish passes
  rw [depth] at level
  rw [List.filter_append, heard.own, filter_depth_eq level, frame.spoken_given outer, ← shape]
  generalize named : Event.finish frame.name = e at passes
  cases passes with
  | aside aside =>
    subst named
    cases aside
  | start | text => cases named
  | finish innermost =>
    obtain ⟨rfl, rfl⟩ := List.cons.inj (innermost.symm.trans shape)
    simp only [List.append_assoc]

-- Nothing but the text events themselves depends on the pieces that text comes in. An element that
-- ends has been given its text in runs, none of them empty, which make up the whole text that its body
-- is taken from: on its own level nothing else has been asked for between its beginnings and its body.
theorem text_in_runs (c : Catalogue σ) (d : Dispatcher σ) :
    (∀ es fs, Relation.EqvGen Recut es fs → responses c es d = responses c fs d ∧
      callbacks c es d = callbacks c fs d ∧ (feed c es d).2 = (feed c fs d).2) ∧
    (d.state ≠ .documentStarted → ∀ es name,
      (((Event.finish name).run c).perform (feed c es d).2).1 = .ok () →
      ∃ past span attrs before now frame outer runs, es = past ++ span ∧
        (feed c past d).2.progress = .live before ∧ past ++ [.start name attrs] <+: es ∧
        (∀ soon, past ++ [.start name attrs] <+: soon → soon <+: es →
          before.depth < (feed c soon d).2.depth) ∧
        (feed c es d).2.progress = .live now ∧ now.frames = frame :: outer ∧
        (∀ run ∈ runs, run ≠ "") ∧ String.join runs = frame.body ∧
        ((callbacks c (span ++ [.finish name]) (feed c past d).2).filter
            (·.depth = before.depth + 1)).map Callback.duty =
          frame.actions.map (⟨·, .begin name attrs, now.site⟩) ++
            (runs.flatMap fun run => frame.actions.map (⟨·, .segment name run, now.site⟩)) ++
            (frame.actions.map (⟨·, .body name
                (if d.trims then Text.trimmed frame.body else frame.body), now.site⟩) ++
              frame.actions.reverse.map (⟨·, .ending name, now.site⟩))) := by
  refine ⟨fun es fs recuts => ?_, fun idle es name fine => ?_⟩
  · obtain ⟨responses, callbacks, after⟩ := alike_of_recuts (c := c) recuts d
    exact ⟨responses, callbacks, after⟩
  · obtain ⟨past, attrs, before, now, after, due, inside, there, live, _, entered, calls, passes⟩ :=
      inside_of_finish idle fine
    obtain ⟨_, _, span, frame, runs, begun, lived, rfl, heard⟩ := inside.heard
    cases there.symm.trans begun
    cases live.symm.trans lived
    obtain ⟨_, rfl, shape⟩ := entered.frames
    have innermost := heard.innermost
    rw [shape] at innermost
    cases innermost
    have ended := heard_finish heard shape entered.depth passes
    rw [(keeps_feed (past ++ span) d).trims, ← calls] at ended
    refine ⟨past, span, attrs, before, now, frame, _, frame.given runs, rfl, there, inside.starts,
      fun soon since part => inside.deeper there since part, live, shape,
      Frame.whole_given heard.whole, Frame.join_given heard.body, ?_⟩
    refine Eq.trans ?_ ended
    rw [after_append past, duties, ← List.map_append, ← callbacks_append, List.filter_map]
    rfl

-- Text in two pieces around an element, and an empty piece: three runs are told, and one of them is
-- that of the element within.
theorem text_in_runs_of_mixed_content :
    let table := ((RuleTable.registerAll [.rule "r" ⟨0⟩, .rule "x" ⟨0⟩]).perform {}).2
    let c : Catalogue (List String) := fun _ =>
      { name := "reader", onSegment := fun _ text => Step.note (text :: ·) }
    let d : Dispatcher (List String) := .new (.base table) {} true []
    let r : QName := ⟨"", "r"⟩
    let x : QName := ⟨"", "x"⟩
    let es (before : List Event) : List Event := [.startDocument, .start r {}] ++ before ++
      [.start x {}, .text "in", .finish x, .text "two "]
    let whole := es [.text (" one" ++ ",")]
    let pieces := es [.text " one", .text ",", .text ""]
    Relation.EqvGen Recut whole pieces ∧ responses c whole d = responses c pieces d ∧
      d.state ≠ .documentStarted ∧
      (((Event.finish r).run c).perform (feed c whole d).2).1 = .ok () ∧
      ((callbacks c (whole ++ [.finish r]) d).map fun call => (call.occasion.phase, call.depth)) =
        [(.startParse, 0), (.begin, 1), (.bodySegment, 1), (.begin, 2), (.bodySegment, 2), (.body, 2),
          (.ending, 2), (.bodySegment, 1), (.body, 1), (.ending, 1)] ∧
      ∃ now frame outer runs, (feed c whole d).2.progress = .live now ∧ now.frames = frame :: outer ∧
        now.work.journal = ["in", " one,"] ∧ frame.body = " one,two " ∧ frame.segment = "two " ∧
        (∀ run ∈ runs, run ≠ "") ∧ String.join runs = frame.body := by
  intro table c d r x es whole pieces
  have recuts : Relation.EqvGen Recut whole pieces := by
    let cut := es [.text " one", .text ","]
    have split : Recut whole cut := .split [.startDocument, .start r {}]
      [.start x {}, .text "in", .finish x, .text "two "] " one" ","
    have filled : Recut cut pieces := .empty [.startDocument, .start r {}, .text " one", .text ","]
      [.start x {}, .text "in", .finish x, .text "two "]
    exact .trans _ _ _ (.rel _ _ split) (.rel _ _ filled)
  have idle : d.state ≠ .documentStarted := by decide
  have fine : (((Event.finish r).run c).perform (feed c whole d).2).1 = .ok () := by decide +kernel
  obtain ⟨same, ends⟩ := text_in_runs c d
  obtain ⟨past, span, attrs, before, now, frame, outer, runs, _, _, _, _, live, shape, full, joined, _⟩ :=
    ends idle whole r fine
  have found : (feed c whole d).2.context?.map (fun now => (now.work.journal,
      now.frames.head?.map fun frame => (frame.body, frame.segment))) =
        some (["in", " one,"], some (" one,two ", "two ")) := by decide +kernel
  rw [Dispatcher.context?_of_live live] at found
  simp only [Option.map_some, Option.some.injEq, shape, List.head?_cons, Prod.mk.injEq] at found
  obtain ⟨journal, body, segment⟩ := found
  exact ⟨recuts, (same _ _ recuts).1, idle, fine, by decide +kernel, now, frame, outer, runs, live,
    shape, journal, body, segment, full, joined⟩

end Event
end XmlRules
