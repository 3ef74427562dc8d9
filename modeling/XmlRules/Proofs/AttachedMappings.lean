import XmlRules.Proofs.BegunElements
import XmlRules.Proofs.OpenFrames
import XmlRules.Proofs.WatchedElement
namespace XmlRules
open Step NestedRules

structure OpenElement where
  name : QName
  mappings : List (String × String)
deriving DecidableEq, Repr

-- What a sequence of events says without a dispatcher: the open elements, innermost first, and the
-- mappings that wait for the next element to start.
structure Outline where
  opened : List OpenElement := []
  awaiting : List (String × String) := []
deriving DecidableEq, Repr

namespace Outline

def after (o : Outline) : Event → Outline
  | .declare label uri => { o with awaiting := o.awaiting ++ [(label, uri)] }
  | .start name _ => ⟨⟨name, o.awaiting⟩ :: o.opened, []⟩
  | .finish _ => { o with opened := o.opened.tail }
  | _ => o

def of (es : List Event) : Outline := es.foldl after {}

-- The elements around a call, the one it is made for first. A child that starts is around its own
-- beginning, not around the text before it that is told to its parent.
def around (o : Outline) : Occasion → List OpenElement
  | .begin name _ => ⟨name, o.awaiting⟩ :: o.opened
  | .segment _ _ | .body _ _ | .ending _ => o.opened
  | .start | .finish => []

end Outline

def Occasion.element? : Occasion → Option QName
  | .begin name _ | .segment name _ | .body name _ | .ending name => some name
  | .start | .finish => none

-- The nearest element that maps the prefix at all maps it to this URI, at last.
def Nearest (around : List OpenElement) (label uri : String) : Prop :=
  ∃ inner own outer earlier later, around = inner ++ own :: outer ∧
    (∀ element ∈ inner, ∀ mapping ∈ element.mappings, mapping.1 ≠ label) ∧
    own.mappings = earlier ++ (label, uri) :: later ∧ ∀ mapping ∈ later, mapping.1 ≠ label

namespace Bindings

theorem lookup_reverse_eq_none_iff (mappings : List (String × String)) (label : String) :
    mappings.reverse.lookup label = none ↔ ∀ mapping ∈ mappings, mapping.1 ≠ label := by
  rw [List.lookup_eq_none_iff]
  simp only [List.mem_reverse, bne_iff_ne, ne_comm]

theorem lookup_reverse_eq_some_iff (mappings : List (String × String)) (label uri : String) :
    mappings.reverse.lookup label = some uri ↔ ∃ earlier later,
      mappings = earlier ++ (label, uri) :: later ∧ ∀ mapping ∈ later, mapping.1 ≠ label := by
  rw [List.lookup_eq_some_iff]
  simp only [bne_iff_ne]
  constructor
  · rintro ⟨front, back, shape, others⟩
    refine ⟨back.reverse, front.reverse, by simpa using congrArg List.reverse shape, ?_⟩
    exact fun mapping member => (others mapping (List.mem_reverse.mp member)).symm
  · rintro ⟨earlier, later, rfl, others⟩
    refine ⟨later.reverse, earlier.reverse, by simp, ?_⟩
    exact fun mapping member => (others mapping (List.mem_reverse.mp member)).symm

theorem declared?_eq_some_iff {b : Bindings} {around : List OpenElement}
    (scopes : b.scopes = around.map OpenElement.mappings) (label uri : String) :
    b.declared? label = some uri ↔ Nearest around label uri := by
  rw [declared?, scopes, List.findSome?_map, List.findSome?_eq_some_iff]
  simp only [Function.comp_def, lookup_reverse_eq_none_iff, lookup_reverse_eq_some_iff, Nearest]
  constructor
  · rintro ⟨inner, own, outer, shape, ⟨earlier, later, mapped, last⟩, others⟩
    exact ⟨inner, own, outer, earlier, later, shape, others, mapped, last⟩
  · rintro ⟨inner, own, outer, earlier, later, shape, others, mapped, last⟩
    exact ⟨inner, own, outer, shape, ⟨earlier, later, mapped, last⟩, others⟩

theorem resolve?_eq_some_iff {b : Bindings} {around : List OpenElement}
    (scopes : b.scopes = around.map OpenElement.mappings) {label : String} (other : label ≠ "xml")
    (uri : String) : b.resolve? label = some uri ↔ uri ≠ "" ∧ Nearest around label uri := by
  rw [resolve?, if_neg other, Option.filter_eq_some_iff, declared?_eq_some_iff scopes, and_comm]
  simp

end Bindings

structure Duty.Amid (duty : Duty) (around : List OpenElement) : Prop where
  element : around.head?.map OpenElement.name = duty.occasion.element?
  trail : duty.site.trail = .along (around.map OpenElement.name).reverse
  bindings : duty.site.bindings.scopes = around.map OpenElement.mappings

section Following
variable {σ : Type} {c : Catalogue σ} {d : Dispatcher σ} {ctx last : Context σ} {o : Outline}
  {e : Event}

structure Outline.Describes (o : Outline) (ctx : Context σ) (pending : List (String × String)) : Prop where
  names : ctx.frames.map Frame.name = o.opened.map OpenElement.name
  trail : ctx.site.trail = .along (o.opened.map OpenElement.name).reverse
  bindings : ctx.site.bindings.scopes = o.opened.map OpenElement.mappings
  pending : pending = o.awaiting

namespace Event

theorem moved_live (live : d.progress = .live ctx)
    (lives : ((e.run c).perform d).2.progress = .live last) :
    (last.site, ((e.run c).perform d).2.pending) = move (ctx.site, d.pending) e := by
  by_cases again : e = .startDocument
  · subst again
    rw [perform_startDocument_refused (Dispatcher.state_of_live live)] at lives ⊢
    cases live.symm.trans lives
    rfl
  · exact moved_run again live lives

theorem describes_run (describes : o.Describes ctx d.pending) (live : d.progress = .live ctx)
    (lives : ((e.run c).perform d).2.progress = .live last) :
    (o.after e).Describes last ((e.run c).perform d).2.pending := by
  obtain ⟨names, trail, bindings, pending⟩ := describes
  have moved : ((e.run c).perform d).2.pending = (move (ctx.site, d.pending) e).2 :=
    congrArg Prod.snd (moved_live live lives)
  have waits : ((e.run c).perform d).2.pending = (o.after e).awaiting := by
    rw [moved, pending]
    cases e <;> rfl
  obtain ⟨_, _, passes⟩ := passes_run live lives
  cases passes with
  | aside aside same =>
    subst same
    cases e with
    | startDocument | declare | setRoot | takeRoot => exact ⟨names, trail, bindings, waits⟩
    | start | text | finish | endDocument | abort => cases aside
  | start name attrs site frames =>
    refine ⟨?_, ?_, ?_, waits⟩
    · simp [frames, Course.names_delivered, names, Outline.after]
    · simp [site, Site.enter, trail, Outline.after, Trail.along_append]
    · simp [site, Site.enter, Bindings.enter, bindings, pending, Outline.after]
  | text content site frames =>
    refine ⟨?_, ?_, ?_, waits⟩
    · rw [frames, ctx.names_addText, names]
      rfl
    · rw [site, trail]
      rfl
    · rw [site, bindings]
      rfl
  | finish innermost site left =>
    obtain ⟨opened, awaiting⟩ := o
    cases opened with
    | nil => simp [innermost] at names
    | cons own outer =>
      rw [innermost] at names
      refine ⟨?_, ?_, ?_, waits⟩
      · simpa [left, Outline.after] using (List.cons.inj names).2
      · simp [site, Site.leave, trail, Trail.along_append, Trail.leave?_enter, Outline.after]
      · simp [site, Site.leave, Bindings.leave, bindings, Outline.after]

theorem describes_feed {es : List Event} (within : Within c es d) (describes : o.Describes ctx d.pending)
    (live : d.progress = .live ctx) (lives : (feed c es d).2.progress = .live last) :
    (es.foldl Outline.after o).Describes last (feed c es d).2.pending := by
  induction es generalizing d ctx o with
  | nil =>
    cases live.symm.trans lives
    exact describes
  | cons e es ih =>
    obtain ⟨between, going⟩ := live_before (d := ((e.run c).perform d).2) within.2 lives
    exact ih within.2 (describes_run describes live going) going lives

theorem describes_document (idle : d.state ≠ .documentStarted) {es : List Event}
    (within : Within c es (feed c [.startDocument] d).2)
    (lives : (feed c (.startDocument :: es) d).2.progress = .live last) :
    (Outline.of (.startDocument :: es)).Describes last (feed c (.startDocument :: es) d).2.pending := by
  obtain ⟨root, started⟩ := live_before within lives
  obtain ⟨site, pending⟩ := Prod.mk.inj (Dispatcher.fresh_of_started idle started)
  have frames : root.frames = [] := by
    have depth := (framed_feed idle [.startDocument] started).bindings
    simpa [site, Dispatcher.fresh, Bindings.depth] using depth.symm
  have start : ({} : Outline).Describes root (feed c [.startDocument] d).2.pending := by
    refine ⟨?_, ?_, ?_, pending⟩
    · simp [frames]
    · simp [site, Dispatcher.fresh]
    · simp [site, Dispatcher.fresh]
  have going : (feed c es (feed c [.startDocument] d).2).2.progress = .live last := lives
  have describes := describes_feed within start started going
  exact describes

end Event

theorem Duty.amid_waiting {site : Site} {frames : List Frame} {opened : List OpenElement}
    (names : frames.map Frame.name = opened.map OpenElement.name)
    (trail : site.trail = .along (opened.map OpenElement.name).reverse)
    (bindings : site.bindings.scopes = opened.map OpenElement.mappings) {duty : Duty}
    (member : duty ∈ Context.waiting site frames) (awaiting : List (String × String)) :
    duty.Amid (Outline.around ⟨opened, awaiting⟩ duty.occasion) := by
  cases frames with
  | nil => cases member
  | cons frame frames =>
    by_cases empty : frame.segment = ""
    · rw [Context.waiting, if_pos empty] at member
      cases member
    · rw [Context.waiting, if_neg empty] at member
      obtain ⟨id, _, rfl⟩ := List.mem_map.mp member
      refine ⟨?_, trail, bindings⟩
      cases opened with
      | nil => cases names
      | cons own outer => simpa [Outline.around, Occasion.element?, eq_comm] using (List.cons.inj names).1

theorem Event.Asks.amid {due : List Duty} {settled : Workspace σ → Progress σ}
    (asks : Asks c d e ctx due settled) (inner : e ≠ .startDocument)
    (describes : o.Describes ctx d.pending) {duty : Duty} (member : duty ∈ due) :
    duty.Amid (o.around duty.occasion) := by
  obtain ⟨names, trail, bindings, pending⟩ := describes
  have waiting (early : duty ∈ Context.waiting ctx.site ctx.frames) :=
    Duty.amid_waiting names trail bindings early o.awaiting
  cases asks with
  | startDocument idle => exact absurd rfl inner
  | start live name attrs =>
    obtain early | late := List.mem_append.mp member
    · exact waiting early
    · obtain ⟨id, _, rfl⟩ := List.mem_map.mp late
      refine ⟨rfl, ?_, ?_⟩
      · simp [Site.enter, trail, Outline.around, Trail.along_append]
      · simp [Site.enter, Bindings.enter, bindings, pending, Outline.around]
  | text live content => cases member
  | @finish _ live frame frames innermost =>
    obtain early | late := List.mem_append.mp member
    · exact waiting early
    · have own : o.opened.head?.map OpenElement.name = some frame.name := by
        simpa [innermost] using (congrArg List.head? names).symm
      obtain told | ended := List.mem_append.mp late
      · obtain ⟨id, _, rfl⟩ := List.mem_map.mp told
        exact ⟨own, trail, bindings⟩
      · obtain ⟨id, _, rfl⟩ := List.mem_map.mp ended
        exact ⟨own, trail, bindings⟩
  | endDocument live closed =>
    obtain ⟨id, _, rfl⟩ := List.mem_map.mp member
    have none : o.opened = [] := by
      simpa [Context.depth, trail, Trail.depth_along] using closed
    exact ⟨rfl, by simp [trail, none, Outline.around], by simp [bindings, none, Outline.around]⟩

namespace Event

theorem amid_started {call : Callback σ} (made : call ∈ callbacks c [.startDocument] d) :
    call.duty.Amid (({} : Outline).around call.occasion) := by
  cases outcome c .startDocument d with
  | silent none same => simp [none] at made
  | asked asks chain verdict part well badly =>
    have due := part.subset (List.mem_map_of_mem made)
    cases asks with
    | startDocument idle =>
      obtain ⟨id, _, same⟩ := List.mem_map.mp due
      have occasion : call.occasion = .start := (congrArg Duty.occasion same).symm
      rw [← same, occasion]
      exact ⟨rfl, rfl, rfl⟩

theorem amid_of_call (idle : d.state ≠ .documentStarted) {es : List Event}
    (within : Within c es (feed c [.startDocument] d).2) {past rest : List Event}
    (split : .startDocument :: es = past ++ e :: rest) {call : Callback σ}
    (made : call ∈ callbacks c [e] (feed c past d).2) :
    call.duty.Amid ((Outline.of past).around call.occasion) := by
  cases past with
  | nil =>
    obtain ⟨rfl, -⟩ := List.cons.inj split
    exact amid_started made
  | cons first past =>
    obtain ⟨rfl, rfl⟩ := List.cons.inj split
    obtain ⟨before, here, -⟩ := within.append
    cases outcome c e (feed c (.startDocument :: past) d).2 with
    | silent none same => simp [none] at made
    | asked asks chain verdict part well badly =>
      have due := part.subset (List.mem_map_of_mem made)
      have inner : e ≠ .startDocument := by
        rintro rfl
        cases asks with
        | startDocument stopped => exact stopped (here rfl)
      exact asks.amid inner (describes_document idle before (asks.live inner)) due

end Event

theorem Chain.answered {ws after : Workspace σ} {made : List (Callback σ)} (chain : Chain c ws made after)
    {call : Callback σ} (member : call ∈ made) : call.result =
      (Step.perform (call.occasion.answer (c call.actor)) call.site call.work).1 := by
  induction chain with
  | nil => cases member
  | cons result later ih =>
    obtain rfl | further := List.mem_cons.mp member
    · exact result
    · exact ih further

theorem Event.answered {call : Callback σ} (made : call ∈ callbacks c [e] d) : call.result =
    (Step.perform (call.occasion.answer (c call.actor)) call.site call.work).1 := by
  cases outcome c e d with
  | silent none same => simp [none] at made
  | asked asks chain verdict part well badly => exact chain.answered made

end Following

section Nesting
variable {σ : Type} (own : Catalogue σ) (nested : ActionId → Option NestedRules)

-- A call with all that it comes to: where the action nests rules, it stands behind the calls of the
-- actions that it calls itself, and so on for those. What other actions call themselves is not in it.
def Callback.comprises (depth : Nat) (call : Callback σ) : List (Callback σ) :=
  (Step.perform (call.occasion.answer (Catalogue.listed own nested depth call.actor)) call.site
    (call.work.logged [])).2.journal.calls

-- More calls are on record, made at one place, and on one occasion unless they are for no element.
def Workspace.Lists (told : Occasion) (site : Site) (ws after : Workspace (Logged σ)) : Prop :=
  ∃ more : List (Callback σ), after.journal.calls = ws.journal.calls ++ more ∧
    ∀ call ∈ more, call.site = site ∧ (call.occasion = told ∨ call.occasion.element? = none)

theorem Workspace.Lists.of_same {told : Occasion} {site : Site} {ws after : Workspace (Logged σ)}
    (journal : after.journal = ws.journal) : ws.Lists told site after :=
  ⟨[], by simp [journal], by simp⟩

theorem Workspace.Lists.trans {told : Occasion} {site : Site} {ws middle after : Workspace (Logged σ)}
    (first : ws.Lists told site middle) (second : middle.Lists told site after) :
    ws.Lists told site after := by
  obtain ⟨more, calls, here⟩ := first
  obtain ⟨rest, others, there⟩ := second
  refine ⟨more ++ rest, by rw [others, calls, List.append_assoc], ?_⟩
  intro call member
  exact (List.mem_append.mp member).elim (here call) (there call)

theorem lasting_lists (told : Occasion) :
    Lasting (Workspace.Lists told : Site → Workspace (Logged σ) → _) where
  kept := .of_same rfl
  chained := .trans
  opens _ _ _ _ _ := .of_same rfl
  closes owner site ws := by
    rw [after_closeOwnedScope]
    exact .of_same rfl

theorem lists_listed (told : Occasion) (depth : Nat) (id : ActionId) {occasion : Occasion}
    (on : occasion = told ∨ occasion.element? = none) :
    (occasion.answer (Catalogue.listed own nested depth id)).Moves (Workspace.Lists told) := by
  induction depth generalizing id occasion with
  | zero => cases occasion <;> exact (lasting_lists told).reads (reads_throw .tooDeep)
  | succ depth ih =>
    cases nests : nested id with
    | none =>
      intro site ws
      rw [listed_of_leaf own nests, Catalogue.answer_recorded, perform_recorded]
      exact ⟨_, rfl, by simpa using on⟩
    | some n =>
      intro site ws
      have inner := (lasting_lists told).behaviour (fun id occasion on => ih id on) (.inr rfl) (.inr rfl)
        n id on site ws
      rw [listed_of_nested own nests, Behaviour.answer_listed, perform_listed]
      exact inner.trans ⟨_, rfl, by simpa using on⟩

variable {own nested} {made call : Callback σ} {depth : Nat}

theorem Callback.site_of_comprises (member : call ∈ made.comprises own nested depth) :
    call.site = made.site ∧ (call.occasion = made.occasion ∨ call.occasion.element? = none) := by
  obtain ⟨more, calls, told⟩ := lists_listed own nested made.occasion depth made.actor (.inl rfl)
    made.site (made.work.logged [])
  rw [comprises, calls] at member
  exact told call member

theorem Callback.comprises_self (answered : made.result = (Step.perform
      (made.occasion.answer (Catalogue.mixed own nested (depth + 1) made.actor)) made.site
        made.work).1) : made ∈ made.comprises own nested (depth + 1) := by
  have shadow := (Catalogue.shadows_listed own nested (depth + 1)).answer made.actor made.occasion
    made.site (made.work.logged [])
  have same := answered.trans (congrArg Prod.fst shadow)
  change made.result = (Step.perform _ made.site (made.work.logged [])).1 at same
  have itself : made = ⟨made.actor, made.occasion, made.site, made.work, made.result⟩ := rfl
  unfold comprises
  cases nests : nested made.actor with
  | none =>
    rw [listed_of_leaf own nests, Catalogue.answer_recorded, perform_recorded] at same ⊢
    rw [← same]
    exact List.mem_append_right _ (List.mem_singleton.mpr itself)
  | some n =>
    rw [listed_of_nested own nests, Behaviour.answer_listed, perform_listed] at same ⊢
    rw [← same]
    exact List.mem_append_right _ (List.mem_singleton.mpr itself)

end Nesting

namespace Event
variable {σ : Type}

-- Every call of a document, whatever its actions do, those of nested rules included, finds the
-- prefixes as the events say: the nearest element that maps the prefix decides, by its last mapping,
-- and a mapping to the empty URI hides those further out. A mapping belongs to the first element that
-- starts after it is declared.
theorem prefixes_of_call (own : Catalogue σ) (nested : ActionId → Option NestedRules) (depth : Nat)
    (d : Dispatcher σ) (idle : d.state ≠ .documentStarted) (es : List Event) :
    let c : Catalogue σ := .mixed own nested (depth + 1)
    Within c es (feed c [.startDocument] d).2 → ∀ made ∈ callbacks c (.startDocument :: es) d,
      ∃ past e rest, .startDocument :: es = past ++ e :: rest ∧
        made ∈ callbacks c [e] (feed c past d).2 ∧
        made ∈ made.comprises own nested (depth + 1) ∧
        ∀ call ∈ made.comprises own nested (depth + 1),
          let around := (Outline.of past).around made.occasion
          (∀ name, call.occasion.element? = some name →
            around.head?.map OpenElement.name = some name) ∧
          call.site.trail = .along (around.map OpenElement.name).reverse ∧
          ∀ label uri, label ≠ "xml" →
            (call.site.bindings.resolve? label = some uri ↔ uri ≠ "" ∧ Nearest around label uri) := by
  intro c within made member
  obtain ⟨done, later, calls⟩ := List.append_of_mem member
  obtain ⟨past, e, rest, before, left, split, -, here, -⟩ := exists_event_of_callbacks calls
  have direct : made ∈ callbacks c [e] (feed c past d).2 := by simp [here]
  obtain ⟨element, trail, bindings⟩ := amid_of_call idle within split direct
  have itself := Callback.comprises_self (answered direct)
  refine ⟨past, e, rest, split, direct, itself, fun call comprised => ?_⟩
  obtain ⟨site, occasion⟩ := Callback.site_of_comprises comprised
  rw [site]
  refine ⟨fun name own => ?_, trail, fun label uri other => ?_⟩
  · obtain same | nobody := occasion
    · rw [element, ← own, same]
      rfl
    · simp [nobody] at own
  · exact Bindings.resolve?_eq_some_iff bindings other uri

-- The rules nested on `a` are told the text before `b` with the mapping that `b` takes back; the one
-- declared inside `b` is for its sibling `c`; a document is told to start again in between.
theorem prefixes_of_call_in_mixed_content :
    let own : Catalogue Unit := fun _ => { name := "K" }
    let nested : ActionId → Option NestedRules := fun id => match id.index with
      | 1 => some (.single [.rule "!*" ⟨0⟩])
      | _ => none
    let c : Catalogue Unit := .mixed own nested 2
    let table := ((RuleTable.registerAll [.rule "a" ⟨1⟩]).perform {}).2
    let d : Dispatcher Unit := .new (.base table) {} false ()
    let es : List Event := [.declare "p" "u", .declare "q" "v", .start ⟨"", "a"⟩ {}, .text "t",
      .declare "p" "", .startDocument, .start ⟨"", "b"⟩ {}, .declare "p" "x", .declare "p" "w",
      .finish ⟨"", "b"⟩, .start ⟨"", "c"⟩ {}, .finish ⟨"", "c"⟩, .finish ⟨"", "a"⟩, .endDocument]
    let calls := callbacks c (.startDocument :: es) d
    d.state ≠ .documentStarted ∧ Within c es (feed c [.startDocument] d).2 ∧
      ((calls.flatMap (Callback.comprises own nested 2)).map fun call =>
        (call.actor.index, call.occasion.phase, call.site.trail.path,
          call.site.bindings.resolve? "p", call.site.bindings.resolve? "q")) =
        [(1, .startParse, "", none, none), (0, .startParse, "/a", some "u", some "v"),
          (0, .begin, "/a", some "u", some "v"), (1, .begin, "/a", some "u", some "v"),
          (0, .bodySegment, "/a", some "u", some "v"), (1, .bodySegment, "/a", some "u", some "v"),
          (0, .begin, "/a/b", none, some "v"), (0, .body, "/a/b", none, some "v"),
          (0, .ending, "/a/b", none, some "v"), (0, .begin, "/a/c", some "w", some "v"),
          (0, .body, "/a/c", some "w", some "v"), (0, .ending, "/a/c", some "w", some "v"),
          (0, .body, "/a", some "u", some "v"), (1, .body, "/a", some "u", some "v"),
          (0, .ending, "/a", some "u", some "v"), (0, .finishParse, "/a", some "u", some "v"),
          (1, .ending, "/a", some "u", some "v"), (1, .finishParse, "", none, none)] ∧
      ∀ made ∈ calls, ∀ call ∈ made.comprises own nested 2, ∃ past e rest,
        .startDocument :: es = past ++ e :: rest ∧ made ∈ callbacks c [e] (feed c past d).2 ∧
        ∀ uri, call.site.bindings.resolve? "p" = some uri ↔
          uri ≠ "" ∧ Nearest ((Outline.of past).around made.occasion) "p" uri := by
  intro own nested c table d es calls
  have idle : d.state ≠ .documentStarted := by decide
  have within : Within c es (feed c [.startDocument] d).2 := by
    refine ⟨nofun, nofun, nofun, nofun, nofun, fun _ => ?_, nofun, nofun, nofun, nofun, nofun, nofun,
      nofun, nofun, trivial⟩
    decide +kernel
  refine ⟨idle, within, ?_, fun made member call comprised => ?_⟩
  · decide +kernel
  · obtain ⟨past, e, rest, split, direct, -, each⟩ :=
      prefixes_of_call own nested 1 d idle es within made member
    obtain ⟨-, -, resolved⟩ := each call comprised
    exact ⟨past, e, rest, split, direct, fun uri => resolved "p" uri (by decide)⟩

end Event
end XmlRules
