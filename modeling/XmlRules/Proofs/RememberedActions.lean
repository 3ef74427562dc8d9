import Mathlib.Data.List.Count
import XmlRules.Proofs.LaidScopes
import XmlRules.Proofs.SteadyLookups
namespace XmlRules
open Step NestedRules

-- Whatever is filed anywhere has been given.
structure Ledger.Covered (l : Ledger) : Prop where
  rules : ∀ r ∈ l.rules, r.2 ∈ l.given
  fallback : ∀ a ∈ l.fallback, a ∈ l.given
  mandatory : ∀ a ∈ l.mandatory, a ∈ l.given

namespace Ledger
variable {l : Ledger}

theorem Covered.grown (covered : l.Covered) (as : List ActionId) :
    ({ l with given := l.given ++ as } : Ledger).Covered :=
  ⟨fun r member => List.mem_append_left _ (covered.rules r member),
    fun a member => List.mem_append_left _ (covered.fallback a member),
    fun a member => List.mem_append_left _ (covered.mandatory a member)⟩

theorem Covered.addRule (covered : l.Covered) (p : Pattern) (a : ActionId) : (l.addRule p a).Covered := by
  obtain ⟨rules, fallback, mandatory⟩ := covered.grown [a]
  refine ⟨fun r member => ?_, fallback, mandatory⟩
  obtain early | here := List.mem_append.mp member
  · exact rules r early
  · exact List.mem_append_right _ (by simp [List.mem_singleton.mp here])

theorem Covered.addFallbacks (covered : l.Covered) (as : List ActionId) : (l.addFallbacks as).Covered := by
  obtain ⟨rules, fallback, mandatory⟩ := covered.grown as
  refine ⟨rules, fun a member => ?_, mandatory⟩
  exact (List.mem_append.mp member).elim (fallback a) (List.mem_append_right _)

theorem Covered.addMandatories (covered : l.Covered) (as : List ActionId) :
    (l.addMandatories as).Covered := by
  obtain ⟨rules, fallback, mandatory⟩ := covered.grown as
  refine ⟨rules, fallback, fun a member => ?_⟩
  exact (List.mem_append.mp member).elim (mandatory a) (List.mem_append_right _)

theorem Covered.note (covered : l.Covered) (call : TableCall) : (l.note call).Covered := by
  cases call with
  | place placement => exact ⟨covered.rules, covered.fallback, covered.mandatory⟩
  | register entry =>
    cases entry with
    | declare label uri => exact ⟨covered.rules, covered.fallback, covered.mandatory⟩
    | rule text a =>
      unfold Ledger.note enter
      dsimp only
      split
      · exact covered
      · exact covered.addRule _ a
    | fallback a => exact covered.addFallbacks [a]
    | fallbacks as => exact covered.addFallbacks as
    | mandatory a => exact covered.addMandatories [a]
    | mandatories as => exact covered.addMandatories as

theorem covered_after (calls : List TableCall) : (after calls).Covered := by
  have run : ∀ l : Ledger, l.Covered → (calls.foldl note l).Covered := by
    induction calls with
    | nil => exact fun _ covered => covered
    | cons call calls ih => exact fun l covered => ih _ (covered.note call)
  exact run _ ⟨nofun, nofun, nofun⟩

end Ledger

namespace RuleTable
variable {t : RuleTable} {l : Ledger} {e : RuleEntry} {path : String}

theorem mem_of_lastGreatest {α : Type} {atMost : α → α → Bool} {xs : List α} {y : α}
    (found : lastGreatest atMost xs = some y) : y ∈ xs := by
  induction xs generalizing y with
  | nil => cases found
  | cons x xs ih =>
    rw [lastGreatest] at found
    cases rest : lastGreatest atMost xs with
    | none =>
      simp only [rest, Option.some.injEq] at found
      simp [found]
    | some z =>
      simp only [rest] at found
      split at found
      · cases found
        exact List.mem_cons_of_mem _ (ih rest)
      · cases found
        exact List.mem_cons_self

theorem mem_of_matchesAt {positions : List Nat} (member : e ∈ t.matchesAt positions path) :
    e ∈ t.entries := by
  obtain ⟨i, _, here⟩ := List.mem_filterMap.mp (List.mem_filter.mp member).1
  exact List.mem_of_getElem? here

theorem mem_of_ordinary? (found : t.ordinary? path = some e) : e ∈ t.entries := by
  simp only [ordinary?, Option.orElse_eq_orElse, Option.orElse_eq_or, Option.or_eq_some_iff] at found
  obtain whole | ⟨-, tail | ⟨-, wildcard⟩⟩ := found
  · obtain ⟨i, _, here⟩ := Option.bind_eq_some_iff.mp whole
    exact List.mem_of_getElem? here
  · exact mem_of_matchesAt (mem_of_lastGreatest tail)
  · exact mem_of_matchesAt (mem_of_lastGreatest wildcard)

theorem Holds.known (holds : t.Holds l) (covered : l.Covered) (member : e ∈ t.entries) {a : ActionId}
    (handles : a ∈ e.actions) : a ∈ l.given := by
  rw [holds.entries] at member
  obtain ⟨p, _, rfl⟩ := List.mem_map.mp member
  rw [l.actions_entryOf] at handles
  obtain ⟨r, inside, rfl⟩ := List.mem_map.mp handles
  exact covered.rules r (List.mem_filter.mp inside).1

theorem mem_arrange {placement : Placement} {chosen additive mandatory : List ActionId} {a : ActionId}
    (member : a ∈ placement.arrange chosen additive mandatory) :
    a ∈ chosen ∨ a ∈ additive ∨ a ∈ mandatory := by
  cases placement <;> simp only [Placement.arrange, List.mem_append] at member <;> tauto

theorem Holds.given_of_matching (holds : t.Holds l) (covered : l.Covered) {a : ActionId}
    (matched : a ∈ t.matching path) : a ∈ l.given := by
  rw [matching_eq_blocks] at matched
  obtain chosen | universal | mandatory := mem_arrange matched
  · obtain ordinary | fallback := List.mem_append.mp chosen
    · unfold ordinaryBlock at ordinary
      cases found : t.ordinary? path with
      | none => simp [found] at ordinary
      | some e =>
        rw [found] at ordinary
        exact holds.known covered (mem_of_ordinary? found) ordinary
    · unfold fallbackBlock at fallback
      split at fallback
      · exact covered.fallback a (holds.fallback ▸ fallback)
      · cases fallback
  · rw [universalBlock, unseen_eq] at universal
    have listed := (List.mem_filter.mp (List.mem_eraseDups.mp universal)).1
    obtain ⟨handler, sorted, rfl⟩ := List.mem_map.mp listed
    obtain ⟨e, hit, handles⟩ := List.mem_flatMap.mp ((Stamped.sort_perm _).mem_iff.mp sorted)
    exact holds.known covered (mem_of_matchesAt hit) (RuleEntry.action_mem_of_handlers handles)
  · exact covered.mandatory a (holds.mandatory ▸ mandatory)

end RuleTable

section Lifecycle
variable {σ : Type} {own : Catalogue σ} {nested : ActionId → Option NestedRules}
  {call : Callback σ} {depth : Nat}

theorem Callback.comprises_lifecycle (answered : call.result = (Step.perform
      (call.occasion.answer (Catalogue.mixed own nested (depth + 1) call.actor)) call.site
        call.work).1) (lifecycle : call.occasion.element? = none) :
    call.comprises own nested (depth + 1) = [call] := by
  have itself : call = ⟨call.actor, call.occasion, call.site, call.work, call.result⟩ := rfl
  unfold comprises
  cases nests : nested call.actor with
  | none =>
    rw [mixed_of_leaf own nests] at answered
    rw [listed_of_leaf own nests, Catalogue.answer_recorded, perform_recorded, itself, answered]
    rfl
  | some n =>
    rw [mixed_of_nested own nests, perform_lifecycle lifecycle] at answered
    rw [listed_of_nested own nests, Behaviour.answer_listed, perform_listed,
      perform_lifecycle lifecycle, itself, answered]
    rfl

theorem Callback.inner_of_comprises (honest : own.Honest nested) (laid : call.work.Laid nested)
    (element : call.occasion.element? ≠ none) {inner : Callback σ}
    (member : inner ∈ call.comprises own nested depth) : inner.Inner nested := by
  have spreading := spreading_listed honest depth call.actor call.occasion (absurd · element)
  obtain ⟨-, more, calls, each⟩ := spreading call.site (call.work.logged []) laid
  rw [comprises, calls] at member
  exact each inner member

end Lifecycle

def Callback.sign {σ : Type} (call : Callback σ) : ActionId × Phase := (call.actor, call.occasion.phase)

theorem Occasion.element?_of_phase {here there : Occasion} (phase : here.phase = there.phase)
    (lifecycle : there.element? = none) : here.element? = none := by
  cases there with
  | start | finish =>
    cases here with
    | start | finish => rfl
    | begin | segment | body | ending => cases phase
  | begin | segment | body | ending => cases lifecycle

theorem count_sign {actions : List ActionId} (distinct : actions.Nodup) {a : ActionId}
    (member : a ∈ actions) (mine phase : Phase) :
    (actions.map (·, phase)).count (a, mine) = if phase = mine then 1 else 0 := by
  split
  case isTrue same =>
    subst same
    rw [List.count_map_of_injective _ (·, phase) fun _ _ same => (Prod.mk.inj same).1]
    exact List.count_eq_one_of_mem distinct member
  case isFalse other =>
    refine List.count_eq_zero.mpr fun signed => ?_
    obtain ⟨_, _, same⟩ := List.mem_map.mp signed
    exact other (Prod.mk.inj same).2

theorem flatMap_of_singles {α : Type} {f : α → List α} {xs : List α}
    (single : ∀ x ∈ xs, f x = [x]) : xs.flatMap f = xs := by
  rw [List.flatMap_congr single, List.flatMap_singleton']

namespace Event
variable {σ : Type} {c : Catalogue σ} {d : Dispatcher σ} {e : Event} {ctx after : Context σ}

theorem element_of_waiting {site : Site} {frames : List Frame} {duty : Duty}
    (member : duty ∈ Context.waiting site frames) : duty.occasion.element? ≠ none := by
  cases frames with
  | nil => cases member
  | cons frame frames =>
    by_cases empty : frame.segment = ""
    · rw [Context.waiting, if_pos empty] at member
      cases member
    · rw [Context.waiting, if_neg empty] at member
      obtain ⟨id, _, rfl⟩ := List.mem_map.mp member
      exact Option.some_ne_none _

theorem Asks.element {due : List Duty} {settled : Workspace σ → Progress σ}
    (asks : Asks c d e ctx due settled) (inner : e ≠ .startDocument) {ws : Workspace σ}
    (lives : settled ws = .live after) : ∀ duty ∈ due, duty.occasion.element? ≠ none := by
  intro duty member
  cases asks with
  | startDocument idle => exact absurd rfl inner
  | start live name attrs =>
    obtain early | late := List.mem_append.mp member
    · exact element_of_waiting early
    · obtain ⟨id, _, rfl⟩ := List.mem_map.mp late
      exact Option.some_ne_none _
  | text live content => cases member
  | finish live innermost =>
    obtain early | late := List.mem_append.mp member
    · exact element_of_waiting early
    · obtain told | ended := List.mem_append.mp late
      · obtain ⟨id, _, rfl⟩ := List.mem_map.mp told
        exact Option.some_ne_none _
      · obtain ⟨id, _, rfl⟩ := List.mem_map.mp ended
        exact Option.some_ne_none _
  | endDocument live closed => cases lives

theorem inner_run (inner : e = .startDocument → d.state = .documentStarted)
    (lives : ((e.run c).perform d).2.progress = .live after) :
    ∀ call ∈ callbacks c [e] d, call.occasion.element? ≠ none ∧ call.result = .ok () := by
  cases outcome c e d with
  | silent none same => simp [none]
  | asked asks chain verdict part well badly =>
    by_cases ok : ((e.run c).perform d).1 = .ok ()
    · intro call member
      obtain ⟨all, settles⟩ := well ok
      have due := all ▸ List.mem_map_of_mem (f := Callback.duty) member
      rw [ok] at verdict
      exact ⟨asks.element (asks.inner inner) (settles.symm.trans lives) _ due, verdict.all_ok call member⟩
    · rw [badly ok] at lives
      cases lives

theorem inner_feed {es : List Event} (within : Within c es d)
    (lives : (feed c es d).2.progress = .live after) :
    ∀ call ∈ callbacks c es d, call.occasion.element? ≠ none ∧ call.result = .ok () := by
  induction es generalizing d with
  | nil =>
    rw [callbacks, feed, Dispatcher.calls_logging]
    exact fun _ member => absurd member List.not_mem_nil
  | cons e es ih =>
    obtain ⟨middle, going⟩ := live_before within.2 lives
    rw [show e :: es = [e] ++ es from rfl, callbacks_append]
    intro call member
    obtain here | later := List.mem_append.mp member
    · exact inner_run within.1 going call here
    · exact ih within.2 lives call later

theorem callbacks_startDocument (idle : d.state ≠ .documentStarted)
    (lives : (feed c [.startDocument] d).2.progress = .live ctx) :
    (callbacks c [.startDocument] d).map Callback.duty =
        d.rules.actions.map (⟨·, .start, d.fresh.site⟩) ∧
      ∀ call ∈ callbacks c [.startDocument] d, call.result = .ok () := by
  cases outcome c .startDocument d with
  | silent none same => exact absurd (Dispatcher.state_of_live (same ctx lives).1) idle
  | asked asks chain verdict part well badly =>
    by_cases ok : ((Event.startDocument.run c).perform d).1 = .ok ()
    · rw [ok] at verdict
      cases asks with
      | startDocument idle => exact ⟨(well ok).1, verdict.all_ok⟩
    · cases (badly ok).symm.trans lives

theorem phases_of_document (idle : d.state ≠ .documentStarted) {es : List Event}
    (within : Within c es (feed c [.startDocument] d).2)
    (ended : ((Event.endDocument.run c).perform (feed c (.startDocument :: es) d).2).1 = .ok ()) :
    ∃ first middle last,
      callbacks c (.startDocument :: es ++ [.endDocument]) d = first ++ middle ++ last ∧
      first.map Callback.sign = d.rules.actions.map (·, .startParse) ∧
      (∀ call ∈ first, call.occasion.element? = none) ∧
      (∀ call ∈ middle, call.occasion.element? ≠ none) ∧
      last.map Callback.sign = d.rules.actions.map (·, .finishParse) ∧
      (∀ call ∈ last, call.occasion.element? = none) ∧
      ∀ call ∈ first ++ middle ++ last, call.result = .ok () := by
  let started := (feed c [.startDocument] d).2
  obtain ⟨ctx, _, live, -, finishes, finished, -⟩ := ended_of_ok ended
  obtain ⟨fresh, going⟩ := live_before (d := started) within live
  obtain ⟨starts, begun⟩ := callbacks_startDocument idle going
  have inner := inner_feed (d := started) within live
  obtain ⟨-, on⟩ := course_feed going (course_start idle going).2 within live
  have signs : ∀ {occasion : Occasion} {site : Site} {ids : List ActionId} {made : List (Callback σ)},
      made.map Callback.duty = ids.map (⟨·, occasion, site⟩) →
        made.map Callback.sign = ids.map (·, occasion.phase) ∧
          ∀ call ∈ made, call.occasion = occasion := by
    intro occasion site ids made told
    refine ⟨?_, fun call member => ?_⟩
    · have same := congrArg (List.map fun duty => (duty.actor, duty.occasion.phase)) told
      rwa [List.map_map, List.map_map] at same
    · have due := told ▸ List.mem_map_of_mem (f := Callback.duty) member
      obtain ⟨id, _, same⟩ := List.mem_map.mp due
      exact (congrArg Duty.occasion same).symm
  obtain ⟨startSigns, startOccasions⟩ := signs starts
  obtain ⟨finishSigns, finishOccasions⟩ := signs finishes
  rw [on.rules] at finishSigns
  refine ⟨callbacks c [.startDocument] d, callbacks c es started,
    callbacks c [.endDocument] (feed c (.startDocument :: es) d).2, ?_, startSigns,
    fun call member => by rw [startOccasions call member]; rfl, fun call member => (inner call member).1,
    finishSigns, fun call member => by rw [finishOccasions call member]; rfl, ?_⟩
  · rw [callbacks_append, show Event.startDocument :: es = [.startDocument] ++ es from rfl, callbacks_append]
  · intro call member
    obtain early | late := List.mem_append.mp member
    · exact (List.mem_append.mp early).elim (begun call) fun among => (inner call among).2
    · exact finished call late

theorem answered_of_callbacks {es : List Event} {call : Callback σ} (made : call ∈ callbacks c es d) :
    ∃ past e, call ∈ callbacks c [e] (feed c past d).2 := by
  obtain ⟨done, later, calls⟩ := List.append_of_mem made
  obtain ⟨past, e, -, before, left, -, -, here, -⟩ := exists_event_of_callbacks calls
  exact ⟨past, e, by simp [here]⟩

theorem comprised_of_phases {own : Catalogue σ} {nested : ActionId → Option NestedRules}
    (honest : own.Honest nested) {depth : Nat} (idle : d.state ≠ .documentStarted) {es : List Event}
    {first middle last : List (Callback σ)}
    (calls : callbacks (.mixed own nested (depth + 1)) es d = first ++ middle ++ last)
    (outside : ∀ call ∈ first, call.occasion.element? = none)
    (inside : ∀ call ∈ middle, call.occasion.element? ≠ none)
    (beyond : ∀ call ∈ last, call.occasion.element? = none) :
    let all (calls : List (Callback σ)) := calls.flatMap (Callback.comprises own nested (depth + 1))
    all first = first ∧ all last = last ∧ ∀ call ∈ all middle, call.Inner nested := by
  intro all
  have found : ∀ call ∈ first ++ middle ++ last, call.work.Laid nested ∧ call.result = (Step.perform
      (call.occasion.answer (Catalogue.mixed own nested (depth + 1) call.actor)) call.site
        call.work).1 := by
    intro call member
    obtain ⟨past, e, here⟩ := answered_of_callbacks (calls ▸ member)
    have lays := lays_mixed honest (depth + 1)
    have laid := laid_feed lays (Dispatcher.laid_of_idle idle) past
    exact ⟨laid_callbacks lays laid e call here, Event.answered here⟩
  have itself : ∀ call ∈ first ++ middle ++ last, call.occasion.element? = none →
      call.comprises own nested (depth + 1) = [call] :=
    fun call member => call.comprises_lifecycle (found call member).2
  refine ⟨flatMap_of_singles fun call member => itself call (by simp [member]) (outside call member),
    flatMap_of_singles fun call member => itself call (by simp [member]) (beyond call member),
    fun inner member => ?_⟩
  obtain ⟨call, among, made⟩ := List.mem_flatMap.mp member
  exact call.inner_of_comprises honest (found call (by simp [among])).1 (inside call among) made

theorem count_of_phases {nested : ActionId → Option NestedRules} {actions : List ActionId}
    (distinct : actions.Nodup) {first middle last : List (Callback σ)}
    (starts : first.map Callback.sign = actions.map (·, .startParse))
    (between : ∀ call ∈ middle, call.Inner nested)
    (finishes : last.map Callback.sign = actions.map (·, .finishParse)) {a : ActionId}
    (member : a ∈ actions) (free : ¬ Enlisted nested a) (occasion : Occasion)
    (lifecycle : occasion.element? = none) :
    ((first ++ middle ++ last).map Callback.sign).count (a, occasion.phase) =
      (if Phase.startParse = occasion.phase then 1 else 0) +
        if Phase.finishParse = occasion.phase then 1 else 0 := by
  have elsewhere : (middle.map Callback.sign).count (a, occasion.phase) = 0 := by
    refine List.count_eq_zero.mpr fun signed => ?_
    obtain ⟨call, made, same⟩ := List.mem_map.mp signed
    obtain ⟨rfl, phase⟩ := Prod.mk.inj same
    exact free (between call made (Occasion.element?_of_phase phase lifecycle))
  rw [List.map_append, List.map_append, List.count_append, List.count_append, starts, finishes,
    elsewhere, count_sign distinct member, count_sign distinct member, Nat.add_zero]

-- Every history of a registry, with whatever was refused on the way, all paths, and every document
-- that is completed. The actions that are remembered are those that were given, each once, in the order
-- in which they were given first, and nothing else is ever matched. The dispatcher starts each of them
-- before all calls for elements, and finishes each of them after these. As long as nobody opens scopes
-- in the name of an action that nests rules, the actions that do nest rules start and finish only
-- actions of these rules, in the midst of the document. What other actions do to one another while
-- they are called is their own affair and is not counted.
theorem started_and_finished_once (own : Catalogue σ) (nested : ActionId → Option NestedRules)
    (depth : Nat) (history : List TableCall) (d : Dispatcher σ)
    (known : d.rules.table = .after history) (idle : d.state ≠ .documentStarted) (es : List Event) :
    let c : Catalogue σ := .mixed own nested (depth + 1)
    let actions := d.rules.actions
    actions = (Ledger.after history).given.eraseDups ∧ actions.Nodup ∧
      (∀ path, ∀ a ∈ d.rules.matching path, a ∈ actions) ∧
      (Within c es (feed c [.startDocument] d).2 →
        ((Event.endDocument.run c).perform (feed c (.startDocument :: es) d).2).1 = .ok () →
        ∃ first middle last,
          callbacks c (.startDocument :: es ++ [.endDocument]) d = first ++ middle ++ last ∧
          first.map Callback.sign = actions.map (·, .startParse) ∧
          (∀ call ∈ middle, call.occasion.element? ≠ none) ∧
          last.map Callback.sign = actions.map (·, .finishParse) ∧
          (∀ call ∈ first ++ middle ++ last, call.result = .ok ()) ∧
          (own.Honest nested →
            let all (calls : List (Callback σ)) :=
              calls.flatMap (Callback.comprises own nested (depth + 1))
            all first = first ∧ all last = last ∧ (∀ call ∈ all middle, call.Inner nested) ∧
            ∀ a ∈ actions, ¬ Enlisted nested a →
              ((all (first ++ middle ++ last)).map Callback.sign).count (a, .startParse) = 1 ∧
              ((all (first ++ middle ++ last)).map Callback.sign).count (a, .finishParse) = 1)) := by
  intro c actions
  have holds : d.rules.table.Holds (Ledger.after history) := by
    rw [known]
    exact RuleTable.holds_after history
  have remembered : actions = (Ledger.after history).given.eraseDups := holds.actions
  have distinct : actions.Nodup := by
    rw [remembered]
    exact RuleTable.nodup_eraseDups _
  refine ⟨remembered, distinct, fun path a matched => ?_, fun within ended => ?_⟩
  · rw [remembered]
    exact List.mem_eraseDups.mpr (holds.given_of_matching (Ledger.covered_after history) matched)
  · obtain ⟨first, middle, last, calls, starts, outside, inside, finishes, beyond, fine⟩ :=
      phases_of_document idle within ended
    refine ⟨first, middle, last, calls, starts, inside, finishes, fine, fun honest => ?_⟩
    intro all
    obtain ⟨opening, closing, between⟩ :
        all first = first ∧ all last = last ∧ ∀ call ∈ all middle, call.Inner nested :=
      comprised_of_phases honest idle calls outside inside beyond
    refine ⟨opening, closing, between, fun a member free => ?_⟩
    have whole : all (first ++ middle ++ last) = first ++ all middle ++ last := by
      calc all (first ++ middle ++ last) = all first ++ all middle ++ all last := by
            simp only [all, List.flatMap_append]
        _ = first ++ all middle ++ last := by rw [opening, closing]
    have times := count_of_phases distinct starts between finishes member free
    rw [whole]
    exact ⟨times .start rfl, times .finish rfl⟩

-- Actions given more than once, one with a prefix that nobody has declared, and one that nests rules.
theorem started_and_finished_once_of_repeated :
    let own : Catalogue Unit := fun _ => { name := "K" }
    let nested : ActionId → Option NestedRules := fun id => match id.index with
      | 0 => some (.single [.rule "b" ⟨1⟩])
      | _ => none
    let c : Catalogue Unit := .mixed own nested 2
    let history : List TableCall := [.register (.rule "a" ⟨0⟩), .register (.rule "q:x" ⟨3⟩),
      .register (.mandatory ⟨2⟩), .register (.rule "!*" ⟨2⟩), .register (.fallbacks [⟨4⟩, ⟨0⟩])]
    let d : Dispatcher Unit := .new (.base (.after history)) {} false ()
    let es : List Event := [.start ⟨"", "a"⟩ {}, .startDocument, .start ⟨"", "b"⟩ {}, .text "t",
      .finish ⟨"", "b"⟩, .finish ⟨"", "a"⟩]
    let calls := callbacks c (.startDocument :: es ++ [.endDocument]) d
    let all := (calls.flatMap (Callback.comprises own nested 2)).map Callback.sign
    d.rules.actions = [⟨0⟩, ⟨2⟩, ⟨4⟩] ∧ own.Honest nested ∧
      ((Event.endDocument.run c).perform (feed c (.startDocument :: es) d).2).1 = .ok () ∧
      ¬ Enlisted nested ⟨2⟩ ∧
      all.count (⟨2⟩, .startParse) = 1 ∧ all.count (⟨2⟩, .finishParse) = 1 := by
  intro own nested c history d es calls all
  subst c
  have honest : own.Honest nested := Catalogue.honest_of_still fun _ occasion => by
    cases occasion <;> exact still_pure ()
  have idle : d.state ≠ .documentStarted := by decide
  have actions : d.rules.actions = [⟨0⟩, ⟨2⟩, ⟨4⟩] := by decide +kernel
  have free : ¬ Enlisted nested ⟨2⟩ := by
    rintro ⟨owner, n, attrs, table, nests, found, member⟩
    dsimp only [nested] at nests
    split at nests
    · cases nests
      have only : (NestedRules.table? (.single [.rule "b" ⟨1⟩]) {}).map RuleTable.actions = some [⟨1⟩] := by
        decide +kernel
      -- Without a selector, the attributes of the element decide nothing.
      have same : NestedRules.table? (.single [.rule "b" ⟨1⟩]) {} = some table := found
      rw [same, Option.map_some, Option.some.injEq] at only
      rw [only] at member
      revert member
      decide
    · cases nests
  have within : Within (.mixed own nested 2) es (feed (.mixed own nested 2) [.startDocument] d).2 := by
    refine ⟨nofun, fun _ => ?_, nofun, nofun, nofun, nofun, trivial⟩
    decide +kernel
  have ended : ((Event.endDocument.run (.mixed own nested 2)).perform
      (feed (.mixed own nested 2) (.startDocument :: es) d).2).1 = .ok () := by
    decide +kernel
  obtain ⟨-, -, -, completed⟩ :=
    started_and_finished_once own nested 1 history d rfl idle es
  obtain ⟨first, middle, last, split, -, -, -, -, counted⟩ := completed within ended
  obtain ⟨-, -, -, once⟩ := counted honest
  obtain ⟨started, finished⟩ := once ⟨2⟩ (by rw [actions]; decide) free
  rw [← split] at started finished
  exact ⟨actions, honest, ended, free, started, finished⟩

-- An action that has been registered with the rules and also with nested rules is started and finished
-- with the document, and once more on the element whose scope those rules are for. Another one, which
-- is registered only once, is started twice as well when a third action starts the rules that are
-- active where it is called; that is not among the calls that are counted.
theorem started_again_in_mid_document :
    let document : List Event := [.startDocument, .start ⟨"", "a"⟩ {}, .finish ⟨"", "a"⟩, .endDocument]
    let rules : Registry := .base (.after [.register (.rule "a" ⟨1⟩), .register (.rule "b" ⟨0⟩)])
    let plain : Catalogue Unit := fun _ => { name := "K" }
    let nested : ActionId → Option NestedRules := fun id => match id.index with
      | 1 => some (.single [.rule "b" ⟨0⟩])
      | _ => none
    let d : Dispatcher Unit := .new rules {} false ()
    let calls := (callbacks (.mixed plain nested 2) document d).flatMap
      (Callback.comprises plain nested 2)
    let noting : Catalogue (List ActionId) := fun id => { name := "K", onStart := note (· ++ [id]) }
    let own : Catalogue (List ActionId) := fun id => match id.index with
      | 1 => { noting ⟨1⟩ with onBegin := fun _ _ => do noting.start (← activeRules).actions }
      | _ => noting id
    let other : Dispatcher (List ActionId) := .new rules {} false []
    let counted := (callbacks (.mixed own (fun _ => none) 1) document other).flatMap
      (Callback.comprises own (fun _ => none) 1)
    ((feed (.mixed plain nested 2) document d).2.state = .documentEnded ∧
      d.rules.actions = [⟨1⟩, ⟨0⟩] ∧
      (calls.map fun call => (call.actor.index, call.occasion.phase, call.site.trail.path)) =
        [(1, .startParse, ""), (0, .startParse, ""), (0, .startParse, "/a"), (1, .begin, "/a"),
          (1, .body, "/a"), (0, .finishParse, "/a"), (1, .ending, "/a"), (1, .finishParse, ""),
          (0, .finishParse, "")] ∧
      (calls.map Callback.sign).count (⟨0⟩, .startParse) = 2) ∧
      (feed (.mixed own (fun _ => none) 1) document other).2.state = .documentEnded ∧
      (feed (.mixed own (fun _ => none) 1) document other).2.progress.journal.count ⟨0⟩ = 2 ∧
      (counted.map Callback.sign).count (⟨0⟩, .startParse) = 1 := by
  intro document rules plain nested d calls noting own other counted
  exact ⟨⟨by decide +kernel, by decide +kernel, by decide +kernel, by decide +kernel⟩,
    by decide +kernel, by decide +kernel, by decide +kernel⟩

end Event

end XmlRules
