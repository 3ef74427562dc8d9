import XmlRules.Proofs.MountedCalls
import XmlRules.Proofs.ScopedDocument
namespace XmlRules
open Step Visit

def Content.runs : Content → List String
  | .last run => [String.join run]
  | .next run _ _ rest => String.join run :: rest.runs

def Visit.element {σ : Type} (c : Catalogue σ) (trims : Bool) (site : Site) (tag : Tag)
    (content : Content) : Visit σ Unit := do
  let actions ← lookUp site tag.name
  callAll c (site.enter tag.name tag.declared) (.begin tag.name tag.attributes) actions
  content.traverse c trims (site.enter tag.name tag.declared) ⟨tag.name, actions⟩
  conclude c trims (site.enter tag.name tag.declared) ⟨tag.name, actions⟩ content.text

theorem Content.traverse_next {σ : Type} (c : Catalogue σ) (trims : Bool) (site : Site) (host : Host)
    (run : List String) (tag : Tag) (inner rest : Content) :
    (Content.next run tag inner rest).traverse c trims site host = (do
      deliver c site host (String.join run)
      element c trims site tag inner
      rest.traverse c trims site host) := by
  simp only [traverse, element, bind_assoc]

section Growing
variable {σ : Type} (w : Watch σ) (depth : Nat)

theorem perform_act (wrap : ActionError → DispatchError) (step : Step (Logged σ) Unit) (site : Site)
    (ws : Workspace (Logged σ)) : (act wrap step site).perform ws =
      (((step site).perform ws).1.mapError wrap, ((step site).perform ws).2) := by
  unfold act
  rw [Attempt.perform_bind, Attempt.perform_get]
  dsimp only [Step.perform]
  cases (step site).perform ws with
  | mk result after => cases result <;> rfl

theorem grows_act (occasion : Occasion) (id : ActionId) (site : Site) :
    Grows (act (.action ((w.actions depth) id).name occasion.phase site.trail.path)
      (occasion.answer (w.actions depth id)) site) := by
  intro ws
  rw [perform_act]
  exact grows_actions w depth id occasion site ws

theorem grows_callAll (site : Site) (occasion : Occasion) (ids : List ActionId) :
    Grows (callAll (w.actions depth) site occasion ids) :=
  grows_forM ids fun id => grows_act w depth occasion id site

theorem grows_deliver (site : Site) (host : Host) (run : String) :
    Grows (deliver (w.actions depth) site host run) := by
  unfold deliver
  split
  · exact grows_pure ()
  · exact grows_callAll w depth site _ host.actions

theorem grows_conclude (trims : Bool) (site : Site) (host : Host) (text : String) :
    Grows (conclude (w.actions depth) trims site host text) :=
  (grows_callAll w depth site _ host.actions).bind fun _ =>
    (grows_callAll w depth site _ host.actions.reverse).bind fun _ _ =>
      ⟨[], (List.append_nil _).symm⟩

theorem grows_element {content : Content} (trims : Bool) (site : Site) (tag : Tag)
    (inside : ∀ site host, Grows (content.traverse (w.actions depth) trims site host)) :
    Grows (element (w.actions depth) trims site tag content) := by
  have looked : Grows (lookUp site tag.name : Visit (Logged σ) _) :=
    fun _ => ⟨[], (List.append_nil _).symm⟩
  exact looked.bind fun actions => (grows_callAll w depth _ _ actions).bind fun _ =>
    (inside _ _).bind fun _ => grows_conclude w depth trims _ _ _

theorem grows_traverse (trims : Bool) (content : Content) (site : Site) (host : Host) :
    Grows (content.traverse (w.actions depth) trims site host) := by
  induction content generalizing site host with
  | last run => exact grows_deliver w depth site host _
  | next run tag inner rest inside after =>
    rw [Content.traverse_next]
    refine (grows_deliver w depth site host _).bind fun _ => ?_
    exact (grows_element w depth trims site tag inside).bind fun _ => after site host

end Growing

namespace Watch
variable {σ : Type} {w : Watch σ} {ws : Workspace (Logged σ)}

theorem Goes.act {step : Step (Logged σ) Unit} {site : Site} {post : Unit → List Duty → List Scope → Prop}
    (goes : w.Goes (step site) ws post) (wrap : ActionError → DispatchError) :
    w.Goes (Visit.act wrap step site) ws post := by
  have ran := perform_act wrap step site ws
  refine goes.of_ended (by rw [ran]) fun value after run => ⟨value, ?_, fun _ holds => holds⟩
  rw [ran, run]
  rfl

theorem Goes.lookUp {site : Site} {name : QName} {β : Type} {next : List ActionId → Visit (Logged σ) β}
    {post : β → List Duty → List Scope → Prop}
    (goes : w.Goes (next ((site.active ws).matching (site.trail.enter name).path)) ws post) :
    w.Goes (Visit.lookUp site name >>= next) ws post := goes

-- Nothing is asked on the element, and nothing of it is taken away.
def Silent (w : Watch σ) {α : Type} (step : Visit (Logged σ) α) : Prop :=
  ∀ ws, w.Goes step ws fun _ duties scopes => duties = [] ∧ w.Spared [] ws.scopes scopes

theorem Silent.grows {α : Type} {step : Visit (Logged σ) α} (silent : w.Silent step) : Grows step := by
  intro ws
  obtain ⟨more, calls, _⟩ := silent ws
  exact ⟨more, calls⟩

theorem Silent.bind {α β : Type} {step : Visit (Logged σ) α} {next : α → Visit (Logged σ) β}
    (first : w.Silent step) (second : ∀ a, w.Silent (next a)) : w.Silent (step >>= next) := by
  intro ws
  refine (first ws).bind (fun a => (second a).grows) ?_
  rintro a _ t ⟨rfl, spared⟩
  exact (second a t).weaken fun _ _ _ next => ⟨next.1, spared.trans next.2⟩

theorem silent_pure {α : Type} (a : α) : w.Silent (pure a) := fun _ => goes_pure ⟨rfl, .of_eq rfl⟩

section Deeper
variable {site : Site} (deeper : w.level < site.trail.depth) (depth : Nat)
include deeper

theorem silent_callAll (occasion : Occasion) (ids : List ActionId) :
    w.Silent (callAll (w.actions (depth + 1)) site occasion ids) := by
  induction ids with
  | nil => exact silent_pure ()
  | cons id ids ih =>
    refine Silent.bind (fun ws => ?_) fun _ => ih
    refine Goes.act ((goes_elsewhere depth id occasion (by omega) ws).weaken ?_) _
    exact fun _ _ _ told => ⟨told.1, told.2 deeper⟩

theorem silent_deliver (host : Host) (run : String) :
    w.Silent (deliver (w.actions (depth + 1)) site host run) := by
  unfold deliver
  split
  · exact silent_pure ()
  · exact silent_callAll deeper depth _ host.actions

theorem silent_conclude (trims : Bool) (host : Host) (text : String) :
    w.Silent (conclude (w.actions (depth + 1)) trims site host text) := by
  refine (silent_callAll deeper depth _ host.actions).bind fun _ => ?_
  refine (silent_callAll deeper depth _ host.actions.reverse).bind fun _ ws => ?_
  exact ⟨[], (List.append_nil _).symm, fun _ => ⟨(), rfl, rfl, fun id _ _ => .left deeper⟩⟩

end Deeper

theorem silent_element {site : Site} (depth : Nat) {content : Content} (trims : Bool) (tag : Tag)
    (deeper : w.level < (site.enter tag.name tag.declared).trail.depth)
    (inside : ∀ (site : Site) (host : Host), w.level < site.trail.depth →
      w.Silent (content.traverse (w.actions (depth + 1)) trims site host)) :
    w.Silent (element (w.actions (depth + 1)) trims site tag content) := by
  intro ws
  refine Goes.lookUp ?_
  refine (silent_callAll deeper depth _ _).bind (fun _ => ?_) ws
  exact (inside _ _ deeper).bind fun _ => silent_conclude deeper depth trims _ _

-- What goes on further in is neither heard nor felt on the element.
theorem silent_traverse (depth : Nat) (trims : Bool) (content : Content) (site : Site) (host : Host)
    (deeper : w.level < site.trail.depth) :
    w.Silent (content.traverse (w.actions (depth + 1)) trims site host) := by
  induction content generalizing site host with
  | last run => exact silent_deliver deeper depth host _
  | next run tag inner rest inside after =>
    rw [Content.traverse_next]
    refine (silent_deliver deeper depth host _).bind fun _ => ?_
    refine (silent_element depth trims tag ?_ inside).bind fun _ => after site host deeper
    exact Nat.lt_succ_of_lt deeper

-- Actions of the element that find their rule sets, and of which none that nests rules is mounted
-- twice there.
structure Fitting (w : Watch σ) (depth : Nat) (ids : List ActionId) : Prop where
  fits : ∀ id ∈ ids, Fits w.nested w.mount depth id
  once : (ids.flatMap (w.nesters depth)).Nodup
  among : ∀ inner ∈ ids.flatMap (w.nesters depth), inner ∈ w.held

section Element
variable {depth : Nat} {ids : List ActionId} {name : QName}

def told (w : Watch σ) (depth : Nat) (ids : List ActionId) (name : QName) (runs : List String) :
    List Duty :=
  (runs.filter (· ≠ "")).flatMap fun run => ids.flatMap (w.asked (.segment name run) depth)

theorem Fitting.begins (fitting : w.Fitting depth ids) (ws : Workspace (Logged σ)) :
    w.Goes (callAll (w.actions (depth + 1)) w.site (.begin name w.attrs) ids) ws
      fun _ duties scopes => duties = ids.flatMap (w.asked (.begin name w.attrs) depth) ∧
        ∀ inner ∈ ids.flatMap (w.nesters depth), w.Stands scopes inner := by
  refine (goes_begins (fun id => grows_act w (depth + 1) (.begin name w.attrs) id w.site)
    (fun id member t => ?_) fitting.once fitting.among ws).weaken fun _ _ _ begun => ⟨begun.1, begun.2.2⟩
  exact (goes_begin depth id (fitting.fits id member) (nodup_of_flatMap fitting.once member)
    (List.forall_mem_flatMap.mp fitting.among id member) t).act _

theorem Fitting.speaks (fitting : w.Fitting depth ids) {occasion : Occasion} (spoken : occasion.spoken)
    (standing : ∀ inner ∈ ids.flatMap (w.nesters depth), w.Stands ws.scopes inner) :
    w.Goes (callAll (w.actions (depth + 1)) w.site occasion ids) ws fun _ duties scopes =>
      duties = ids.flatMap (w.asked occasion depth) ∧ w.Spared [] ws.scopes scopes := by
  refine goes_speaking (fun id => grows_act w (depth + 1) occasion id w.site)
    (fun id member t stands => ?_) fitting.among standing
  exact (goes_spoken spoken depth id (fitting.fits id member)
    (List.forall_mem_flatMap.mp fitting.among id member) t stands).act _

theorem Fitting.ends (fitting : w.Fitting depth ids)
    (standing : ∀ inner ∈ ids.flatMap (w.nesters depth), w.Stands ws.scopes inner) :
    w.Goes (callAll (w.actions (depth + 1)) w.site (.ending name) ids.reverse) ws
      fun _ duties _ => duties = ids.reverse.flatMap (w.asked (.ending name) depth) := by
  refine (goes_endings (fun id => grows_act w (depth + 1) (.ending name) id w.site)
    (fun id member t stands => ?_) fitting.once fitting.among standing).weaken fun _ _ _ ended => ended.1
  exact (goes_ending depth id (fitting.fits id member) (nodup_of_flatMap fitting.once member)
    (List.forall_mem_flatMap.mp fitting.among id member) t stands).act _

theorem Fitting.stay (fitting : w.Fitting depth ids) {before after : List Scope}
    (standing : ∀ inner ∈ ids.flatMap (w.nesters depth), w.Stands before inner)
    (spared : w.Spared [] before after) :
    ∀ inner ∈ ids.flatMap (w.nesters depth), w.Stands after inner :=
  fun inner member => (standing inner member).kept
    (spared inner (fitting.among inner member) (List.not_mem_nil))

theorem Fitting.delivers (fitting : w.Fitting depth ids) (run : String)
    (standing : ∀ inner ∈ ids.flatMap (w.nesters depth), w.Stands ws.scopes inner) :
    w.Goes (deliver (w.actions (depth + 1)) w.site ⟨name, ids⟩ run) ws fun _ duties scopes =>
      duties = w.told depth ids name [run] ∧ w.Spared [] ws.scopes scopes := by
  unfold deliver
  by_cases empty : run = ""
  · rw [if_pos empty]
    exact goes_pure ⟨by simp [told, empty], .of_eq rfl⟩
  · rw [if_neg empty]
    refine (fitting.speaks rfl standing).weaken fun _ _ _ spoken => ?_
    exact ⟨by simpa [told, empty] using spoken.1, spoken.2⟩

theorem Fitting.traverses (fitting : w.Fitting depth ids) (trims : Bool) (content : Content)
    (standing : ∀ inner ∈ ids.flatMap (w.nesters depth), w.Stands ws.scopes inner) :
    w.Goes (content.traverse (w.actions (depth + 1)) trims w.site ⟨name, ids⟩) ws fun _ duties scopes =>
      duties = w.told depth ids name content.runs ∧ w.Spared [] ws.scopes scopes := by
  induction content generalizing ws with
  | last run => exact fitting.delivers _ standing
  | next run tag inner rest _ after =>
    rw [Content.traverse_next]
    have child : w.Silent (element (w.actions (depth + 1)) trims w.site tag inner) :=
      silent_element depth trims tag (Nat.lt_succ_self _) (silent_traverse depth trims inner)
    have further := grows_traverse w (depth + 1) trims rest w.site ⟨name, ids⟩
    refine (fitting.delivers _ standing).bind (fun _ => child.grows.bind fun _ => further) ?_
    rintro _ _ t ⟨rfl, kept⟩
    refine (child t).bind (fun _ => further) ?_
    rintro _ _ u ⟨rfl, still⟩
    have spared := kept.trans still
    refine (after (fitting.stay standing spared)).weaken ?_
    rintro _ _ scopes ⟨rfl, left⟩
    refine ⟨?_, spared.trans left⟩
    rw [List.nil_append, told, told, told, ← List.flatMap_append, ← List.filter_append]
    rfl

theorem Fitting.element {site : Site} {tag : Tag} (trims : Bool) (content : Content)
    (here : w.site = site.enter tag.name tag.declared) (given : w.attrs = tag.attributes)
    (fitting : w.Fitting depth ((site.active ws).matching w.site.trail.path)) :
    let ids := (site.active ws).matching w.site.trail.path
    let text := if trims then Text.trimmed content.text else content.text
    w.Goes (Visit.element (w.actions (depth + 1)) trims site tag content) ws fun _ duties _ =>
      duties = ids.flatMap (w.asked (.begin tag.name tag.attributes) depth) ++
        w.told depth ids tag.name content.runs ++
        ids.flatMap (w.asked (.body tag.name text) depth) ++
        ids.reverse.flatMap (w.asked (.ending tag.name) depth) := by
  intro ids text
  have path : (site.trail.enter tag.name).path = w.site.trail.path := by
    rw [here]
    rfl
  refine Goes.lookUp ?_
  rw [path, ← here, ← given]
  refine (fitting.begins ws).bind (fun _ => ?_) ?_
  · exact (grows_traverse w (depth + 1) trims content w.site _).bind fun _ =>
      grows_conclude w (depth + 1) trims w.site _ _
  rintro _ _ t ⟨rfl, standing⟩
  refine (fitting.traverses trims content standing).bind
    (fun _ => grows_conclude w (depth + 1) trims w.site _ _) ?_
  rintro _ _ u ⟨rfl, spared⟩
  have still := fitting.stay standing spared
  refine (fitting.speaks rfl still).bind (fun _ => ?_) ?_
  · exact (grows_callAll w (depth + 1) w.site _ _).bind fun _ _ => ⟨[], (List.append_nil _).symm⟩
  rintro _ _ v ⟨rfl, left⟩
  refine (fitting.ends (fitting.stay still left)).bind (fun _ _ => ⟨[], (List.append_nil _).symm⟩) ?_
  rintro _ _ _ rfl
  exact ⟨[], (List.append_nil _).symm, fun _ => ⟨(), rfl, by simp [heard, ids, text]⟩⟩

end Element
end Watch

namespace Context
variable {σ : Type} {c : Catalogue σ}

theorem flush_listed {own : Catalogue σ} {nested : ActionId → Option NestedRules} {depth : Nat}
    {ctx ready : Context σ}
    (flushed : (flush (.mixed own nested depth)).perform ctx = (.ok (), ready)) :
    ∃ begun, (flush (.listed own nested depth)).perform { ctx with work := ctx.work.logged [] } =
        (.ok (), begun) ∧
      begun.viewed Logged.own = ready ∧ begun.site = ctx.site := by
  let root : Context (Logged σ) := { ctx with work := ctx.work.logged [] }
  have shown := shadows_flush (Catalogue.shadows_listed own nested depth) root
  change (flush (.mixed own nested depth)).perform ctx = _ at shown
  cases run : (flush (.listed own nested depth)).perform root with
  | mk result begun =>
    rw [run, flushed] at shown
    obtain ⟨rfl, same⟩ := Prod.mk.inj shown
    refine ⟨begun, rfl, same.symm, ?_⟩
    obtain rfl | ⟨_, _, _, _, _, rfl⟩ := flush_ok run <;> rfl

theorem mirrors_element (trims : Bool) (tag : Tag) (content : Content) (site : Site)
    (outer : List Frame) (ws : Workspace σ) :
    Mirrors (do
        beginElement c tag.name tag.attributes tag.declared
        content.play c trims
        closeElement c trims tag.name)
      (element c trims site tag content) (fun _ => (site, outer)) ⟨site, outer, ws⟩ := by
  have closed := fun actions left ws => mirrors_closeElement (c := c) trims site tag.declared
    tag.name actions content.text left outer ws
  have filled := fun actions ws => (mirrors_play (c := c) trims content
    (.element ⟨tag.name, actions⟩ outer) (site.enter tag.name tag.declared) "" ws).bind
      fun left ws => by
        rw [String.empty_append]
        exact closed actions left ws
  have begun := (mirrors_beginElement (c := c) site outer tag.name tag.attributes tag.declared ws).bind
    fun actions ws => filled actions ws
  refine begun.of_perform rfl ?_
  simp only [element, Content.traverse_eq_advance, bind_assoc, pure_bind]

end Context

namespace Event
open Context
variable {σ : Type} {d : Dispatcher σ}

theorem calls_flush (w : Watch σ) (depth : Nat) {ctx after : Context (Logged σ)}
    (outside : ctx.site.trail.depth ≠ w.level)
    (flushed : (flush (w.actions depth)).perform ctx = (.ok (), after)) :
    ∃ more : List (Callback σ), after.work.journal.calls = ctx.work.journal.calls ++ more ∧
      w.heard more = [] := by
  obtain rfl | ⟨frame, frames, work, shape, called, rfl⟩ := flush_ok flushed
  · exact ⟨[], by simp, rfl⟩
  · have moves : Step.Moves w.Beside (frame.actions.forM fun id =>
        (Occasion.segment frame.name frame.segment).answer (w.actions depth id)) :=
      lasting_beside.forM (fun id occasion (_ : True) => beside_actions depth id occasion) trivial _
    obtain ⟨more, calls, there, _⟩ := Moves.ran moves called
    exact ⟨more, calls, Watch.heard_elsewhere outside there⟩

theorem feed_element {c : Catalogue σ} {ctx ready : Context σ} (live : d.progress = .live ctx)
    (clear : d.pending = []) (flushed : (flush c).perform ctx = (.ok (), ready)) (tag : Tag)
    (content : Content) :
    let ran := (element c d.trims ready.site tag content).perform ready.work
    (feed c (tag.element content) d).2.progress.journal = ran.2.journal ∧
      (ran.1 = .ok () →
        (feed c (tag.element content) d).1 = (tag.element content).map fun _ => .ok ()) := by
  dsimp only
  have made := (makes_element c d.trims tag content).2 d ctx live clear rfl
  have played : Attempt.perform (do
      (do
        openElement c tag.name tag.attributes tag.declared
        content.play c d.trims)
      closeElement c d.trims tag.name) ctx = Attempt.perform (do
        beginElement c tag.name tag.attributes tag.declared
        content.play c d.trims
        closeElement c d.trims tag.name) ready := by
    rw [bind_assoc, Attempt.perform_bind, perform_openElement, Attempt.perform_bind_ok flushed,
      Attempt.perform_bind]
  have mirrored := (mirrors_element (c := c) d.trims tag content ready.site ready.frames
    ready.work).run
  rw [played] at made
  cases run : (element c d.trims ready.site tag content).perform ready.work with
  | mk result ws =>
    rw [run] at mirrored
    cases result with
    | ok value =>
      dsimp only at mirrored
      rw [mirrored] at made
      dsimp only at made
      rw [made]
      exact ⟨rfl, fun _ => rfl⟩
    | error e =>
      obtain ⟨after, failed, rfl⟩ := mirrored
      rw [failed] at made
      dsimp only at made
      rw [made]
      exact ⟨rfl, nofun⟩

-- All that is asked on an element while it goes through the dispatcher, if nobody is to blame for
-- anything else.
theorem heard_element (w : Watch σ) (depth : Nat) {ctx ready : Context (Logged σ)}
    {d : Dispatcher (Logged σ)} (live : d.progress = .live ctx) (clear : d.pending = [])
    (flushed : (flush (w.actions (depth + 1))).perform ctx = (.ok (), ready))
    {tag : Tag} (here : w.site = ready.site.enter tag.name tag.declared)
    (outside : ctx.site.trail.depth ≠ w.level) (given : w.attrs = tag.attributes) {ids : List ActionId}
    (matched : (ready.site.active ready.work).matching w.site.trail.path = ids)
    (fitting : w.Fitting depth ids) (content : Content) :
    let text := if d.trims then Text.trimmed content.text else content.text
    ∃ more : List (Callback σ),
      (feed (w.actions (depth + 1)) (tag.element content) d).2.progress.journal.calls =
        ctx.work.journal.calls ++ more ∧
      ((∀ call ∈ more, w.Harmless call) →
        (feed (w.actions (depth + 1)) (tag.element content) d).1 =
          ((tag.element content).map fun _ => .ok ()) ∧
        w.heard more = ids.flatMap (w.asked (.begin tag.name tag.attributes) depth) ++
          w.told depth ids tag.name content.runs ++
          ids.flatMap (w.asked (.body tag.name text) depth) ++
          ids.reverse.flatMap (w.asked (.ending tag.name) depth)) := by
  intro text
  subst matched
  obtain ⟨early, waited, quiet⟩ := calls_flush w (depth + 1) outside flushed
  obtain ⟨more, calls, ends⟩ := fitting.element d.trims content here given
  obtain ⟨journal, fine⟩ := feed_element live clear flushed tag content
  refine ⟨early ++ more, by rw [journal, calls, waited, List.append_assoc], fun harmless => ?_⟩
  obtain ⟨_, ok, heard⟩ := ends fun call member => harmless call (List.mem_append_right _ member)
  rw [Watch.heard_append, quiet, heard]
  exact ⟨fine ok, rfl⟩

-- What is called on an element is what its actions are asked, in their order where it begins, at each
-- run of its text and at its whole text, and in reverse where it ends. There an action that nests
-- rules is transparent: in its place in the list stand the actions that its rules match for the
-- element, looked up once and for all when it begins. Besides, each action of the rules is started
-- right before these begin and finished right after they have ended. Any of the actions may nest
-- rules itself, to any number of levels, as long as none comes to be mounted twice on the element;
-- `asked` tells what is called then in its place. The text and the elements inside are arbitrary, and
-- so is what other actions do, as long as none of their calls fails or takes the scope of one that
-- nests rules on the element. Nothing then fails at all.
theorem nesting_transparent (own : Catalogue σ) (nested : ActionId → Option NestedRules) (depth : Nat)
    (d : Dispatcher σ) (ctx ready : Context σ) (live : d.progress = .live ctx) (clear : d.pending = [])
    (flushed : (flush (.mixed own nested (depth + 1))).perform ctx = (.ok (), ready))
    (tag : Tag) (content : Content) :
    let site := ready.site.enter tag.name tag.declared
    let m := site.mount tag.attributes
    let ids := (ready.site.active ready.work).matching m.path
    let nesting := ids.flatMap (nesters nested m depth)
    let calls := everyCall own nested (depth + 1) (tag.element content) d
    let made := (calls.filter (Callback.counts nested m.depth)).map Callback.duty
    let text := if d.trims then Text.trimmed content.text else content.text
    let asks (occasion : Occasion) (ids : List ActionId) : List Duty :=
      ids.flatMap (asked nested site tag.attributes occasion depth)
    let begins := asks (.begin tag.name tag.attributes)
    let segments (ids : List ActionId) : List Duty :=
      (content.runs.filter (· ≠ "")).flatMap fun run => asks (.segment tag.name run) ids
    let bodies := asks (.body tag.name text)
    let ends := asks (.ending tag.name)
    (∀ id ∈ ids, Fits nested m depth id) → nesting.Nodup →
    (∀ call ∈ calls, nested call.actor = none ∨ call.site.trail.depth ≠ m.depth → call.result = .ok ()) →
    (∀ call ∈ calls, nested call.actor = none → m.depth ≤ call.site.trail.depth →
      ∀ id ∈ nesting, ScopeKept m.depth call.work.scopes (call.after own).scopes id) →
    (∀ answer ∈ (feed (.mixed own nested (depth + 1)) (tag.element content) d).1, answer = .ok ()) ∧
    made = begins ids ++ segments ids ++ bodies ids ++ ends ids.reverse ∧
    ∀ before self behind table, ids = before ++ self :: behind →
      mountedTable? nested m self = some table →
      let mounted := table.matching m.path
      made = begins before ++ table.actions.map (⟨·, .start, site⟩) ++ begins mounted ++
        begins behind ++ segments (before ++ mounted ++ behind) ++ bodies (before ++ mounted ++ behind) ++
        ends behind.reverse ++ ends mounted.reverse ++ table.actions.map (⟨·, .finish, site⟩) ++
        ends before.reverse := by
  intro site m ids nesting calls made text asks begins segments bodies ends fits once unfailing spared
  let w : Watch σ := ⟨own, nested, site, tag.attributes, nesting⟩
  have fitting : w.Fitting depth ids := ⟨fits, once, fun _ member => member⟩
  obtain ⟨begun, run, rfl, same⟩ := flush_listed flushed
  have outside : ctx.site.trail.depth ≠ w.level := by
    change _ ≠ begun.site.trail.depth + 1
    rw [same]
    exact Nat.ne_of_lt (Nat.lt_succ_self _)
  obtain ⟨more, grown, answers⟩ :=
    heard_element w depth (Dispatcher.logging_live live) clear run rfl outside rfl rfl fitting content
  have record : calls = more := grown
  have harmless : ∀ call ∈ more, w.Harmless call := fun call member =>
    ⟨unfailing call (record ▸ member), fun leaf deeper id held _ =>
      spared call (record ▸ member) leaf deeper id held⟩
  obtain ⟨fine, heard⟩ := answers harmless
  have all : made = begins ids ++ segments ids ++ bodies ids ++ ends ids.reverse :=
    (congrArg w.heard record).trans heard
  refine ⟨fun answer member => ?_, all, fun before self behind table shape found => ?_⟩
  · have told := feed_listed own nested (depth + 1) (tag.element content) d.logging
    rw [Dispatcher.plain_logging] at told
    have answered : answer ∈ (tag.element content).map fun _ => Except.ok () := by
      rw [← fine]
      exact (congrArg Prod.fst told) ▸ member
    exact (List.mem_map.mp answered).elim fun _ of => of.2.symm
  · intro mounted
    have nests := fits self (by simp [shape])
    have spoken : ∀ occasion : Occasion, occasion.spoken →
        asks occasion ids = asks occasion (before ++ mounted ++ behind) := fun _ speaks =>
      shape ▸ nests.splice_spoken found before behind speaks
    have runs : segments ids = segments (before ++ mounted ++ behind) :=
      List.flatMap_congr fun run _ => spoken (.segment tag.name run) rfl
    have opening : begins ids = _ :=
      shape ▸ nests.splice_begin found before behind tag.name tag.attributes
    have closing : ends ids.reverse = _ := shape ▸ nests.splice_ending found before behind tag.name
    rw [all, opening, runs, show bodies ids = _ from spoken _ rfl, closing]
    simp only [List.append_assoc]
    rfl

-- Behind a first action stands one whose rules match two more for the element, the second with rules
-- again, and one for an element inside; behind it stands another one with rules.
theorem nesting_transparent_of_three_owners :
    let own : Catalogue Unit := fun _ => { name := "idle" }
    let nested : ActionId → Option NestedRules := fun id => match id.index with
      | 1 => some (.single [.rule "a" ⟨3⟩, .rule "a" ⟨4⟩, .rule "b" ⟨6⟩])
      | 2 => some (.single [.rule "a" ⟨7⟩])
      | 4 => some (.single [.rule "a" ⟨5⟩])
      | _ => none
    let table : RuleTable :=
      ((RuleTable.registerAll [.rule "a" ⟨0⟩, .rule "a" ⟨1⟩, .rule "a" ⟨2⟩]).perform {}).2
    let d : Dispatcher Unit := (Dispatcher.new (.base table) {} true ()).opened
    let content : Content := .next ["x"] { name := ⟨"", "b"⟩ } (.last []) (.last ["y", "z"])
    let tag : Tag := { name := ⟨"", "a"⟩ }
    ((everyCall own nested 4 (tag.element content) d).filter (Callback.counts nested 1)).map
        (fun call => (call.actor.index, call.occasion.phase)) =
      [(0, .begin), (3, .startParse), (4, .startParse), (6, .startParse), (3, .begin),
        (5, .startParse), (5, .begin), (7, .startParse), (7, .begin),
        (0, .bodySegment), (3, .bodySegment), (5, .bodySegment), (7, .bodySegment),
        (0, .bodySegment), (3, .bodySegment), (5, .bodySegment), (7, .bodySegment),
        (0, .body), (3, .body), (5, .body), (7, .body),
        (7, .ending), (7, .finishParse), (5, .ending), (5, .finishParse), (3, .ending),
        (3, .finishParse), (4, .finishParse), (6, .finishParse), (0, .ending)] := by
  intro own nested table d content tag
  let m : Mount := (d.fresh.site.enter tag.name tag.declared).mount tag.attributes
  let ids := (d.fresh.site.active d.fresh.work).matching m.path
  have matched : ids = [⟨0⟩, ⟨1⟩, ⟨2⟩] := by decide +kernel
  have outer : (mountedTable? nested m ⟨1⟩).map (·.matching m.path) = some [⟨3⟩, ⟨4⟩] := by
    decide +kernel
  have inner : (mountedTable? nested m ⟨4⟩).map (·.matching m.path) = some [⟨5⟩] := by
    decide +kernel
  have other : (mountedTable? nested m ⟨2⟩).map (·.matching m.path) = some [⟨7⟩] := by
    decide +kernel
  have fits : ∀ id ∈ ids, Fits nested m 3 id := by
    have deep : Fits nested m 2 ⟨4⟩ := fits_of_mounted inner (by simp [fits_of_leaf, nested])
    have first : Fits nested m 3 ⟨1⟩ := fits_of_mounted outer (by simp [fits_of_leaf, nested, deep])
    have second : Fits nested m 3 ⟨2⟩ := fits_of_mounted other (by simp [fits_of_leaf, nested])
    simp [matched, fits_of_leaf, nested, first, second]
  obtain ⟨rules, found, mounts⟩ := Option.map_eq_some_iff.mp outer
  have once : (ids.flatMap (nesters nested m 3)).Nodup := by decide +kernel
  have unfailing : ∀ call ∈ everyCall own nested 4 (tag.element content) d, call.result = .ok () := by
    decide +kernel
  have idle : ∀ call : Callback Unit, call.after own = call.work := by
    intro call
    rw [Callback.after]
    cases call.occasion <;> rfl
  obtain ⟨_, _, told⟩ := nesting_transparent own nested 3 d d.fresh d.fresh rfl rfl rfl tag content fits
    once (fun call member _ => unfailing call member)
    (fun call _ _ _ id _ => .of_eq (by rw [idle]))
  have calls := congrArg (List.map fun duty => (duty.actor.index, duty.occasion.phase))
    (told [⟨0⟩] ⟨1⟩ [⟨2⟩] rules matched found)
  have listed : rules.actions = [⟨3⟩, ⟨4⟩, ⟨6⟩] := by
    have known : (mountedTable? nested m ⟨1⟩).map RuleTable.actions = some [⟨3⟩, ⟨4⟩, ⟨6⟩] := by
      decide +kernel
    rw [found] at known
    exact Option.some.inj known
  dsimp only at calls
  change rules.matching ((d.fresh.site.enter tag.name tag.declared).mount tag.attributes).path =
    _ at mounts
  rw [List.map_map, listed, mounts] at calls
  exact calls.trans (by decide +kernel)

end Event
end XmlRules
