import XmlRules.Proofs.CallChain
import XmlRules.Proofs.FreshDocuments
import XmlRules.Proofs.OpenPath
namespace XmlRules

structure Turn where
  actor : ActionId
  occasion : Occasion
  path : String

def Duty.turn (duty : Duty) : Turn := ⟨duty.actor, duty.occasion, duty.site.trail.path⟩

def Callback.turn {σ : Type} (call : Callback σ) : Turn := call.duty.turn

-- A document as far as it has been read: the open elements with their actions and their text,
-- innermost first, and all calls that belong to what has been read, one after the other.
structure Course where
  frames : List Frame := []
  turns : List Turn := []

namespace Course

def path (t : Course) : String := (Trail.along (t.frames.map Frame.name).reverse).path

def call (t : Course) (occasion : Occasion) (ids : List ActionId) : Course :=
  { t with turns := t.turns ++ ids.map (⟨·, occasion, t.path⟩) }

def flush (t : Course) : Course :=
  match t.frames with
  | [] => t
  | frame :: _ =>
    if frame.segment = "" then t
    else { t.call (.segment frame.name frame.segment) frame.actions with
      frames := Context.delivered t.frames }

def addText (t : Course) (text : String) : Course :=
  match t.frames with
  | [] => t
  | frame :: frames =>
    { t with frames :=
        { frame with body := frame.body ++ text, segment := frame.segment ++ text } :: frames }

def visit (rules : Registry) (trims : Bool) (t : Course) : Event × List ActionId → Course
  | (.start name attrs, actions) =>
    let t := t.flush
    { t with frames := ⟨name, actions, "", ""⟩ :: t.frames }.call (.begin name attrs) actions
  | (.text content, _) => t.addText content
  | (.finish name, _) =>
    match t.frames with
    | [] => t
    | frame :: frames =>
      let text := if trims then Text.trimmed frame.body else frame.body
      let t := (t.flush.call (.body name text) frame.actions).call (.ending name) frame.actions.reverse
      { t with frames }
  | (.endDocument, _) => t.call .finish rules.actions
  | _ => t

structure Of {σ : Type} (t : Course) (rules : Registry) (ctx : Context σ) : Prop where
  frames : ctx.frames = t.frames
  trail : ctx.site.trail = .along (t.frames.map Frame.name).reverse
  rules : ctx.site.rules = rules

section Of
variable {σ : Type} {t : Course} {rules : Registry} {ctx : Context σ}

theorem Of.path_eq (on : t.Of rules ctx) : t.path = ctx.site.trail.path := by
  rw [path, on.trail]

theorem turns_call {site : Site} (path : t.path = site.trail.path) (occasion : Occasion)
    (ids : List ActionId) : (t.call occasion ids).turns = t.turns ++
      (ids.map (⟨·, occasion, site⟩ : ActionId → Duty)).map Duty.turn := by
  rw [call, List.map_map, path]
  rfl

theorem frames_flush (t : Course) : t.flush.frames = Context.delivered t.frames := by
  obtain ⟨frames, turns⟩ := t
  cases frames with
  | nil => rfl
  | cons frame frames =>
    obtain ⟨name, actions, body, segment⟩ := frame
    by_cases empty : segment = ""
    · simp [flush, empty, Context.delivered]
    · simp [flush, empty]

theorem Of.turns_flush (on : t.Of rules ctx) :
    t.flush.turns = t.turns ++ (Context.waiting ctx.site ctx.frames).map Duty.turn := by
  rw [on.frames, flush, Context.waiting.eq_def]
  cases t.frames with
  | nil => exact (List.append_nil _).symm
  | cons frame frames =>
    dsimp only
    split
    · exact (List.append_nil _).symm
    · exact turns_call on.path_eq _ _

theorem names_delivered (frames : List Frame) :
    (Context.delivered frames).map Frame.name = frames.map Frame.name := by
  cases frames <;> rfl

theorem path_flush (t : Course) : t.flush.path = t.path := by
  rw [path, path, frames_flush, names_delivered]

end Of

theorem visit_aside {e : Event} (aside : e.aside) (rules : Registry) (trims : Bool) (t : Course)
    (actions : List ActionId) : t.visit rules trims (e, actions) = t := by
  cases e with
  | startDocument | declare | setRoot | takeRoot => rfl
  | start | text | finish | endDocument | abort => cases aside

end Course

namespace Event
variable {σ : Type} {c : Catalogue σ} {d : Dispatcher σ} {e : Event} {ctx : Context σ}
  {due : List Duty} {settled : Workspace σ → Progress σ} {rules : Registry}

theorem Asks.visit (asks : Asks c d e ctx due settled) (inner : e ≠ .startDocument) {t : Course}
    (on : t.Of rules ctx) :
    (t.visit rules d.trims (e, matched c e d)).turns = t.turns ++ due.map Duty.turn ∧
      ∀ ws after, settled ws = .live after → (t.visit rules d.trims (e, matched c e d)).Of rules after := by
  cases asks with
  | startDocument idle => exact absurd rfl inner
  | start live name attrs =>
    let actions := matched c (.start name attrs) d
    let opened : Course := { t.flush with frames := ⟨name, actions, "", ""⟩ :: t.flush.frames }
    have names : opened.frames.map Frame.name = name :: t.frames.map Frame.name := by
      rw [List.map_cons, Course.frames_flush, Course.names_delivered]
    have trail : (ctx.site.enter name d.pending).trail =
        .along (opened.frames.map Frame.name).reverse := by
      rw [names, List.reverse_cons, Trail.along_append, ← on.trail]
      rfl
    refine ⟨?_, fun ws after live => ?_⟩
    · change (opened.call (.begin name attrs) actions).turns = _
      have here : opened.path = (ctx.site.enter name d.pending).trail.path := by
        rw [trail, Course.path]
      have begins : (opened.call (.begin name attrs) actions).turns = t.flush.turns ++ _ :=
        Course.turns_call here _ _
      rw [begins, on.turns_flush, List.map_append, List.append_assoc]
    · cases live
      refine ⟨?_, trail, on.rules⟩
      change _ :: Context.delivered ctx.frames = _ :: t.flush.frames
      rw [Course.frames_flush, on.frames]
  | text live content =>
    obtain ⟨_, turns⟩ := t
    obtain ⟨site, frames, work⟩ := ctx
    obtain ⟨rfl, trail, base⟩ := on
    refine ⟨?_, fun ws after live => ?_⟩
    · cases frames <;> exact (List.append_nil _).symm
    · cases live
      cases frames <;> exact ⟨rfl, trail, base⟩
  | @finish _ live frame frames innermost =>
    let text := if d.trims then Text.trimmed frame.body else frame.body
    obtain ⟨_, turns⟩ := t
    obtain rfl : frame :: frames = _ := innermost.symm.trans on.frames
    let told := Course.flush ⟨frame :: frames, turns⟩
    have path : told.path = ctx.site.trail.path := (Course.path_flush _).trans on.path_eq
    refine ⟨?_, fun ws after live => ?_⟩
    · let heard := told.call (.body frame.name text) frame.actions
      have bodies : heard.turns = _ := Course.turns_call path _ _
      have still : heard.path = ctx.site.trail.path := path
      have endings : (heard.call (.ending frame.name) frame.actions.reverse).turns = _ :=
        Course.turns_call still _ _
      change (heard.call (.ending frame.name) frame.actions.reverse).turns = _
      rw [endings, bodies, show told.turns = _ from on.turns_flush, List.map_append,
        List.map_append, List.append_assoc, List.append_assoc]
    · cases live
      refine ⟨?_, ?_, on.rules⟩
      · change (Context.delivered ctx.frames).tail = frames
        rw [innermost]
        rfl
      · change ctx.site.trail.leave?.getD ctx.site.trail = _
        rw [on.trail, List.map_cons, List.reverse_cons, Trail.along_append, Trail.leave?_enter]
        rfl
  | endDocument live closed =>
    refine ⟨?_, fun ws after live => nomatch live⟩
    rw [on.rules]
    exact Course.turns_call on.path_eq .finish rules.actions

def told (c : Catalogue σ) : List Event → Dispatcher σ → List (Event × List ActionId)
  | [], _ => []
  | e :: es, d => (e, matched c e d) :: told c es ((e.run c).perform d).2

def course (c : Catalogue σ) (d : Dispatcher σ) : List Event → Course
  | [] => {}
  | e :: es => (told c es ((e.run c).perform d).2).foldl (Course.visit d.rules d.trims)
      { turns := d.rules.actions.map (⟨·, .start, ""⟩) }

-- Events that start no other document: where one is told to start, another is in progress still.
def Within (c : Catalogue σ) : List Event → Dispatcher σ → Prop
  | [], _ => True
  | e :: es, d =>
    (e = .startDocument → d.state = .documentStarted) ∧ Within c es ((e.run c).perform d).2

theorem live_before {es : List Event} (within : Within c es d) {after : Context σ}
    (lives : (feed c es d).2.progress = .live after) : ∃ ctx, d.progress = .live ctx := by
  induction es generalizing d with
  | nil => exact ⟨after, lives⟩
  | cons e es ih =>
    obtain ⟨middle, going⟩ := ih within.2 lives
    cases outcome c e d with
    | silent none same => exact ⟨middle, (same middle going).1⟩
    | asked asks =>
      cases asks with
      | startDocument idle => exact absurd (within.1 rfl) idle
      | start live | text live | finish live | endDocument live => exact ⟨_, live⟩

theorem Asks.inner (asks : Asks c d e ctx due settled)
    (within : e = .startDocument → d.state = .documentStarted) : e ≠ .startDocument := by
  intro same
  cases asks with
  | startDocument idle => exact idle (within rfl)
  | start | text | finish | endDocument => cases same

theorem Asks.live (asks : Asks c d e ctx due settled) (inner : e ≠ .startDocument) :
    d.progress = .live ctx := by
  cases asks with
  | startDocument idle => exact absurd rfl inner
  | start live | text live | finish live | endDocument live => exact live

-- While the document goes on, its calls are those of its course.
theorem course_feed {es : List Event} {t : Course} (live : d.progress = .live ctx)
    (on : t.Of rules ctx) (within : Within c es d) {after : Context σ}
    (lives : (feed c es d).2.progress = .live after) :
    let last := (told c es d).foldl (Course.visit rules d.trims) t
    last.turns = t.turns ++ (callbacks c es d).map Callback.turn ∧ last.Of rules after := by
  induction es generalizing d ctx t with
  | nil =>
    cases live.symm.trans lives
    rw [callbacks, feed, Dispatcher.calls_logging]
    exact ⟨(List.append_nil _).symm, on⟩
  | cons e es ih =>
    obtain ⟨middle, going⟩ := live_before within.2 lives
    have next : (t.visit rules d.trims (e, matched c e d)).turns =
        t.turns ++ (callbacks c [e] d).map Callback.turn ∧
        (t.visit rules d.trims (e, matched c e d)).Of rules middle := by
      cases outcome c e d with
      | silent none same =>
        obtain ⟨lived, aside⟩ := same middle going
        cases live.symm.trans lived
        rw [none, Course.visit_aside aside]
        exact ⟨(List.append_nil _).symm, on⟩
      | asked asks chain verdict part well badly =>
        have inner := asks.inner within.1
        cases live.symm.trans (asks.live inner)
        by_cases ok : ((e.run c).perform d).1 = .ok ()
        · obtain ⟨all, settles⟩ := well ok
          obtain ⟨turns, follows⟩ := asks.visit inner on
          rw [turns, ← all, List.map_map]
          exact ⟨rfl, follows _ middle (settles.symm.trans going)⟩
        · rw [badly ok] at going
          cases going
    obtain ⟨heard, here⟩ := next
    have rest := ih going here within.2 lives
    rw [(keeps_run e d).trims] at rest
    rw [show e :: es = [e] ++ es from rfl, callbacks_append, List.map_append, ← List.append_assoc,
      ← heard]
    exact rest

theorem told_append (es fs : List Event) (d : Dispatcher σ) :
    told c (es ++ fs) d = told c es d ++ told c fs (feed c es d).2 := by
  induction es generalizing d with
  | nil => rfl
  | cons e es ih => exact congrArg (_ :: ·) (ih _)

theorem Within.append {es fs : List Event} (within : Within c (es ++ fs) d) :
    Within c es d ∧ Within c fs (feed c es d).2 := by
  induction es generalizing d with
  | nil => exact ⟨trivial, within⟩
  | cons e es ih =>
    obtain ⟨first, later⟩ := ih within.2
    exact ⟨⟨within.1, first⟩, later⟩

theorem course_start (idle : d.state ≠ .documentStarted)
    (live : (feed c [.startDocument] d).2.progress = .live ctx) :
    (callbacks c [.startDocument] d).map Callback.turn = (course c d [.startDocument]).turns ∧
      (course c d [.startDocument]).Of d.rules ctx := by
  cases outcome c .startDocument d with
  | silent none same => exact absurd (Dispatcher.state_of_live (same ctx live).1) idle
  | asked asks chain verdict part well badly =>
    by_cases ok : ((Event.startDocument.run c).perform d).1 = .ok ()
    · obtain ⟨all, settles⟩ := well ok
      cases asks with
      | startDocument idle =>
        cases settles.symm.trans live
        refine ⟨?_, rfl, rfl, rfl⟩
        have turns := congrArg (List.map Duty.turn) all
        rwa [List.map_map, List.map_map] at turns
    · cases (badly ok).symm.trans live

theorem exists_event_of_callbacks {es : List Event} {done later : List (Callback σ)}
    {call : Callback σ} (calls : callbacks c es d = done ++ call :: later) :
    ∃ past e rest before left, es = past ++ e :: rest ∧ done = callbacks c past d ++ before ∧
      callbacks c [e] (feed c past d).2 = before ++ call :: left ∧
      later = left ++ callbacks c rest (feed c (past ++ [e]) d).2 := by
  induction es generalizing d done with
  | nil =>
    rw [callbacks, feed, Dispatcher.calls_logging] at calls
    simp at calls
  | cons e es ih =>
    let next := (feed c [e] d).2
    have first : (∃ others, done = callbacks c [e] d ++ others ∧
        callbacks c es next = others ++ call :: later) ∨
        ∃ left, callbacks c [e] d = done ++ call :: left ∧ later = left ++ callbacks c es next := by
      rw [show e :: es = [e] ++ es from rfl, callbacks_append] at calls
      rcases List.append_eq_append_iff.mp calls with ⟨others, made, rest⟩ | ⟨others, made, rest⟩
      · exact .inl ⟨others, made, rest⟩
      · cases others with
        | nil => exact .inl ⟨[], by simpa using made.symm, rest.symm⟩
        | cons other left =>
          obtain ⟨rfl, remains⟩ := List.cons.inj rest
          exact .inr ⟨left, made, remains⟩
    rcases first with ⟨others, made, rest⟩ | ⟨left, made, remains⟩
    · obtain ⟨past, f, more, before, left, shape, split, here, remains⟩ := ih rest
      refine ⟨e :: past, f, more, before, left, congrArg (e :: ·) shape, ?_, here, remains⟩
      rw [made, split, ← List.append_assoc, ← callbacks_append]
      rfl
    · refine ⟨[], e, es, done, left, rfl, ?_, made, remains⟩
      rw [callbacks, feed, Dispatcher.calls_logging, List.nil_append]

theorem callbacks_aborted {store : Store} {journal : σ} (aborted : d.progress = .aborted store journal)
    {es : List Event} (inner : ∀ e ∈ es, e ≠ .startDocument) : callbacks c es d = [] := by
  induction es generalizing d with
  | nil => exact d.calls_logging
  | cons e es ih =>
    rw [show e :: es = [e] ++ es from rfl, callbacks_append]
    have later : callbacks c es (feed c [e] d).2 = [] :=
      ih (aborted_run aborted (inner e List.mem_cons_self))
        fun f member => inner f (List.mem_cons_of_mem _ member)
    rw [later, List.append_nil]
    cases outcome c e d with
    | silent none same => exact none
    | asked asks => cases aborted.symm.trans (asks.live (inner e List.mem_cons_self))

theorem within_aborted {store : Store} {journal : σ} (aborted : d.progress = .aborted store journal)
    {es : List Event} (within : Within c es d) : ∀ e ∈ es, e ≠ .startDocument := by
  induction es generalizing d with
  | nil => simp
  | cons e es ih =>
    have inner : e ≠ .startDocument := by
      intro same
      have started := within.1 same
      rw [Dispatcher.state, aborted] at started
      cases started
    intro f member
    rcases List.mem_cons.mp member with rfl | further
    · exact inner
    · exact ih (aborted_run aborted inner) within.2 f further

theorem Asks.course (idle : d.state ≠ .documentStarted) {es : List Event}
    (within : Within c es (feed c [.startDocument] d).2)
    (asks : Asks c (feed c (.startDocument :: es) d).2 e ctx due settled) (inner : e ≠ .startDocument) :
    (Event.course c d (.startDocument :: es ++ [e])).turns =
      (callbacks c (.startDocument :: es) d).map Callback.turn ++ due.map Duty.turn := by
  have live := asks.live inner
  obtain ⟨first, started⟩ := live_before within live
  obtain ⟨begun, on⟩ := course_start idle started
  obtain ⟨heard, here⟩ := course_feed started on within live
  have next := (asks.visit inner here).1
  rw [(keeps_feed [.startDocument] d).trims] at heard next
  rw [(keeps_feed (.startDocument :: es) d).trims, heard, ← begun, ← List.map_append,
    ← callbacks_append] at next
  rw [List.cons_append, Event.course, told_append, List.foldl_append]
  exact next

theorem event_of_failed (idle : d.state ≠ .documentStarted) {es : List Event}
    (within : Within c es (feed c [.startDocument] d).2) {done later : List (Callback σ)}
    {call : Callback σ} {cause : ActionError}
    (calls : callbacks c (.startDocument :: es) d = done ++ call :: later)
    (failed : call.result = .error cause) :
    later = [] ∧ ∃ past e rest before, .startDocument :: es = past ++ e :: rest ∧
      done = callbacks c past d ++ before ∧ callbacks c [e] (feed c past d).2 = before ++ [call] ∧
      (done ++ [call]).map Callback.turn <+: (course c d (past ++ [e])).turns ∧
      ((e.run c).perform (feed c past d).2).1 = .error (call.report c cause) ∧
      ∃ store journal, (feed c (past ++ [e]) d).2.progress = .aborted store journal := by
  obtain ⟨past, e, rest, before, left, shape, split, here, remains⟩ :=
    exists_event_of_callbacks calls
  have next : (feed c (past ++ [e]) d).2 = ((e.run c).perform (feed c past d).2).2 := by
    rw [feed_append]
    rfl
  cases outcome c e (feed c past d).2 with
  | silent none same => simp [none] at here
  | @asked ctx due settled ws asks chain verdict part fine badly =>
    rw [here] at verdict part
    obtain ⟨rfl, answer⟩ := verdict.of_failed failed
    have gone := badly (by rw [answer]; exact nofun)
    rw [← next] at gone
    have follows : Within c rest (feed c (past ++ [e]) d).2 ∧ (course c d (past ++ [e])).turns =
        (callbacks c past d).map Callback.turn ++ due.map Duty.turn := by
      cases past with
      | nil =>
        obtain ⟨rfl, rfl⟩ := List.cons.inj shape
        refine ⟨within, ?_⟩
        cases asks with
        | startDocument =>
          rw [List.map_map, callbacks, feed, Dispatcher.calls_logging]
          rfl
      | cons first inner =>
        obtain ⟨rfl, rfl⟩ := List.cons.inj shape
        obtain ⟨early, late⟩ := within.append
        rw [next]
        exact ⟨late.2, asks.course idle early (asks.inner late.1)⟩
    obtain ⟨ends, turns⟩ := follows
    refine ⟨?_, past, e, rest, before, shape, split, here, ?_, answer, _, _, gone⟩
    · rw [remains, callbacks_aborted gone (within_aborted gone ends), List.append_nil]
    · rw [turns, split, List.append_assoc, List.map_append]
      refine (List.prefix_append_right_inj _).mpr ?_
      have heard := part.map Duty.turn
      rwa [List.map_map] at heard

-- A call that fails ends the document: there is one such call at most, and it is the last. Up to it,
-- the calls are those of the course of the document; the event that has led to it answers with its
-- error, by its action, its phase and the path it was called at; and nobody is called any more, and
-- nothing is left of the document, until the next one starts.
theorem failed_call (d : Dispatcher σ) (idle : d.state ≠ .documentStarted) (es : List Event)
    (within : Within c es (feed c [.startDocument] d).2) {done later : List (Callback σ)}
    {call : Callback σ} {cause : ActionError}
    (calls : callbacks c (.startDocument :: es) d = done ++ call :: later)
    (failed : call.result = .error cause) :
    (∀ earlier ∈ done, earlier.result = .ok ()) ∧ later = [] ∧
    ∃ past e rest before, .startDocument :: es = past ++ e :: rest ∧
      done = callbacks c past d ++ before ∧ callbacks c [e] (feed c past d).2 = before ++ [call] ∧
      (done ++ [call]).map Callback.turn <+: (course c d (past ++ [e])).turns ∧
      ((e.run c).perform (feed c past d).2).1 = .error (call.report c cause) ∧
      ∀ more : List Event, (∀ f ∈ more, f ≠ .startDocument) →
        let after := (feed c more (feed c (past ++ [e]) d).2).2
        callbacks c more (feed c (past ++ [e]) d).2 = [] ∧ after.state = .aborted ∧
          after.context? = none ∧ after.root? = none ∧ after.rootObject? = none ∧ after.depth = 0 := by
  obtain ⟨none, past, e, rest, before, shape, split, here, turns, answer, store, journal, gone⟩ :=
    event_of_failed idle within calls failed
  refine ⟨fun earlier member => ?_, none, past, e, rest, before, shape, split, here, turns, answer, ?_⟩
  · cases result : earlier.result with
    | ok value => rfl
    | error other =>
      obtain ⟨front, behind, rfl⟩ := List.append_of_mem member
      rw [List.append_assoc, List.cons_append] at calls
      have last := (event_of_failed idle within calls result).1
      simp at last
  · intro more inner after
    have left : after.progress = .aborted store journal := aborted_feed gone inner
    refine ⟨callbacks_aborted gone inner, ?_⟩
    simp [Dispatcher.state, Dispatcher.context?, Dispatcher.root?, Dispatcher.rootObject?,
      Dispatcher.depth, left, Progress.state, Progress.context?]

-- A text between two tags is refused by one of its readers, when the next element is there already.
theorem failed_call_in_text :
    let table := ((RuleTable.registerAll [.rule "r" ⟨0⟩, .rule "r" ⟨1⟩, .rule "x" ⟨0⟩]).perform {}).2
    let c : Catalogue (List String) := fun id =>
      { name := "reader"
        onSegment := fun _ text => if id = ⟨1⟩ then throw (.failed text none) else Step.note (text :: ·) }
    let d : Dispatcher (List String) := .new (.base table) {} false []
    let es : List Event := [.start ⟨"", "r"⟩ {}, .text "t", .startDocument, .start ⟨"", "x"⟩ {},
      .finish ⟨"", "x"⟩, .finish ⟨"", "r"⟩, .endDocument]
    let calls := callbacks c (.startDocument :: es) d
    d.state ≠ .documentStarted ∧ Within c es (feed c [.startDocument] d).2 ∧
      (calls.map fun call => (call.actor.index, call.occasion.phase, call.site.trail.path)) =
        [(0, .startParse, ""), (1, .startParse, ""), (0, .begin, "/r"), (1, .begin, "/r"),
          (0, .bodySegment, "/r"), (1, .bodySegment, "/r")] ∧
      ((feed c (.startDocument :: es) d).1.take 5 = [.ok (), .ok (), .ok (),
        .error (.internal .alreadyStarted),
        .error (.action "reader" .bodySegment "/r" (.failed "t" none))]) ∧
      ∃ done call cause, calls = done ++ [call] ∧ call.result = .error cause ∧
        (∀ earlier ∈ done, earlier.result = .ok ()) ∧
        ∃ past e rest, .startDocument :: es = past ++ e :: rest ∧
          ((e.run c).perform (feed c past d).2).1 = .error (call.report c cause) := by
  intro table c d es calls
  have idle : d.state ≠ .documentStarted := by decide
  have within : Within c es (feed c [.startDocument] d).2 := by
    refine ⟨nofun, nofun, fun _ => ?_, nofun, nofun, nofun, nofun, trivial⟩
    decide +kernel
  have failing : ∃ call ∈ calls, call.result ≠ .ok () := by decide +kernel
  obtain ⟨call, member, bad⟩ := failing
  obtain ⟨done, later, made⟩ := List.append_of_mem member
  cases failed : call.result with
  | ok value => exact absurd failed bad
  | error cause =>
    obtain ⟨well, none, past, e, rest, _, shape, _, _, _, answer, _⟩ :=
      failed_call d idle es within made failed
    subst none
    exact ⟨idle, within, by decide +kernel, by decide +kernel, done, call, cause, made, failed, well,
      past, e, rest, shape, answer⟩

end Event
end XmlRules
