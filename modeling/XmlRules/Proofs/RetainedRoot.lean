import XmlRules.Proofs.FailedCalls
import XmlRules.Proofs.ObjectCalls
import XmlRules.Processor
namespace XmlRules

namespace ObjectCall

def pushed? : ObjectCall → Option Ref
  | .push ref => some ref
  | _ => none

def named? : ObjectCall → Option Ref
  | .setRoot ref => some ref
  | _ => none

-- The object that was made the root last, else the one that was there before, else the first that was
-- pushed.
def retained (initial : Option Ref) (calls : List ObjectCall) : Option Ref :=
  ((calls.reverse.findSome? named?).or initial).or (calls.findSome? pushed?)

section Retained
variable (initial : Option Ref) (ref : Ref) (calls : List ObjectCall)

theorem retained_nil : retained initial [] = initial := by simp [retained]

theorem retained_push :
    retained initial (.push ref :: calls) = retained (some (initial.getD ref)) calls := by
  have first : (push ref :: calls).findSome? pushed? = some ref := rfl
  unfold retained
  rw [first, List.reverse_cons, List.findSome?_append]
  cases calls.reverse.findSome? named? <;> cases initial <;> rfl

theorem retained_pop : retained initial (.pop :: calls) = retained initial calls := by
  have first : (pop :: calls).findSome? pushed? = calls.findSome? pushed? := rfl
  unfold retained
  rw [first, List.reverse_cons, List.findSome?_append]
  cases calls.reverse.findSome? named? <;> rfl

theorem retained_setRoot :
    retained initial (.setRoot ref :: calls) = retained (some ref) calls := by
  unfold retained
  rw [List.reverse_cons, List.findSome?_append]
  cases calls.reverse.findSome? named? <;> rfl

end Retained
end ObjectCall

namespace Objects
open ObjectCall
variable {o : Objects}

-- Without a root nothing has been pushed yet.
def Rooted (o : Objects) : Prop := o.root = none → o.stack = []

theorem Rooted.root_push (rooted : o.Rooted) (ref : Ref) :
    (o.take (.push ref)).root = some (o.root.getD ref) := by
  cases root : o.root with
  | none => simp [take, root, rooted root]
  | some held => simp [take, root]

theorem Rooted.take (rooted : o.Rooted) (call : ObjectCall) : (o.take call).Rooted := by
  cases call with
  | push ref =>
    intro none
    rw [rooted.root_push] at none
    cases none
  | pop =>
    intro none
    exact congrArg List.tail (rooted none)
  | setRoot ref => exact nofun

theorem Rooted.after (rooted : o.Rooted) (calls : List ObjectCall) : (o.after calls).Rooted := by
  induction calls generalizing o with
  | nil => exact rooted
  | cons call calls ih => exact ih (rooted.take call)

-- Whatever the stack does in between, the root is what the calls say.
theorem Rooted.root_after (rooted : o.Rooted) (calls : List ObjectCall) :
    (o.after calls).root = retained o.root calls := by
  induction calls generalizing o with
  | nil => exact (retained_nil o.root).symm
  | cons call calls ih =>
    change ((o.take call).after calls).root = _
    rw [ih (rooted.take call)]
    cases call with
    | push ref => rw [rooted.root_push, retained_push]
    | pop => exact (retained_pop o.root calls).symm
    | setRoot ref => exact (retained_setRoot o.root ref calls).symm

end Objects

section Chains
variable {σ : Type} {c : Catalogue σ} (account : c.Account)

def Callback.objectCalls (call : Callback σ) : List ObjectCall :=
  (account call.actor call.occasion).calls call.site call.work

theorem Callback.held_after (call : Callback σ) :
    (call.after c).held = call.work.held.after (call.objectCalls account) :=
  (account call.actor call.occasion).accurate call.site call.work

theorem Chain.held {ws last : Workspace σ} {calls : List (Callback σ)} (chain : Chain c ws calls last) :
    last.held = ws.held.after (calls.flatMap (Callback.objectCalls account)) := by
  induction chain with
  | nil ws => rfl
  | @cons call rest last result later ih =>
    rw [ih, call.held_after account, List.flatMap_cons, Objects.after_append]

theorem Chain.rooted {ws last : Workspace σ} {calls : List (Callback σ)} (chain : Chain c ws calls last)
    (rooted : ws.held.Rooted) : ∀ call ∈ calls, ∀ soon, soon <+: call.objectCalls account →
      (call.work.held.after soon).Rooted := by
  induction chain with
  | nil ws => simp
  | @cons call rest last result later ih =>
    intro other member soon early
    rcases List.mem_cons.mp member with rfl | among
    · exact rooted.after soon
    · refine ih ?_ other among soon early
      rw [call.held_after account]
      exact rooted.after _

end Chains

section Documents
variable {σ : Type} {c : Catalogue σ} (account : c.Account) {d : Dispatcher σ} {ctx next : Context σ}
  {e : Event}

theorem Dispatcher.rooted_fresh (d : Dispatcher σ) : d.fresh.work.held.Rooted := by
  obtain ⟨rules, factory, trims, pending, initialRoot, progress⟩ := d
  cases initialRoot with
  | none => exact fun _ => rfl
  | some o => exact nofun

def Dispatcher.Rooted (d : Dispatcher σ) : Prop :=
  ∀ ctx, d.progress = .live ctx → ctx.work.held.Rooted

namespace Event

theorem Asks.held {due : List Duty} {settled : Workspace σ → Progress σ} {ws : Workspace σ}
    (asks : Asks c d e ctx due settled) (lives : settled ws = .live next) :
    next.work.held = ws.held := by
  cases asks with
  | startDocument | start | text | finish =>
    cases lives
    rfl
  | endDocument => cases lives

theorem Asks.rooted {due : List Duty} {settled : Workspace σ → Progress σ}
    (asks : Asks c d e ctx due settled) (rooted : d.Rooted) : ctx.work.held.Rooted := by
  cases asks with
  | startDocument => exact d.rooted_fresh
  | start live | text live | finish live | endDocument live => exact rooted _ live

theorem rooted_run (rooted : d.Rooted) (e : Event) : ((e.run c).perform d).2.Rooted ∧
    ∀ call ∈ callbacks c [e] d, ∀ soon, soon <+: call.objectCalls account →
      (call.work.held.after soon).Rooted := by
  cases outcome c e d with
  | silent none same => exact ⟨fun next live => rooted next (same next live).1, by simp [none]⟩
  | @asked ctx due settled ws asks chain verdict part well badly =>
    have fresh := asks.rooted rooted
    refine ⟨fun next live => ?_, chain.rooted account fresh⟩
    by_cases ok : ((e.run c).perform d).1 = .ok ()
    · rw [asks.held ((well ok).2.symm.trans live), chain.held account]
      exact fresh.after _
    · cases (badly ok).symm.trans live

theorem rooted_feed (rooted : d.Rooted) (es : List Event) : (feed c es d).2.Rooted ∧
    ∀ call ∈ callbacks c es d, ∀ soon, soon <+: call.objectCalls account →
      (call.work.held.after soon).Rooted := by
  induction es generalizing d with
  | nil => exact ⟨rooted, by simp [callbacks, feed, Dispatcher.calls_logging]⟩
  | cons e es ih =>
    obtain ⟨going, here⟩ := rooted_run account rooted e
    obtain ⟨last, later⟩ := ih going
    refine ⟨last, ?_⟩
    rw [show e :: es = [e] ++ es from rfl, callbacks_append]
    intro call member
    rcases List.mem_append.mp member with early | late
    · exact here call early
    · exact later call late

theorem held_run (inner : e = .startDocument → d.state = .documentStarted)
    (live : d.progress = .live ctx) (lives : ((e.run c).perform d).2.progress = .live next) :
    next.work.held =
      ctx.work.held.after ((callbacks c [e] d).flatMap (Callback.objectCalls account)) := by
  cases outcome c e d with
  | silent none same =>
    cases live.symm.trans (same next lives).1
    rw [none]
    rfl
  | asked asks chain verdict part well badly =>
    by_cases ok : ((e.run c).perform d).1 = .ok ()
    · rw [asks.held ((well ok).2.symm.trans lives), chain.held account]
      cases asks with
      | startDocument idle => exact absurd (inner rfl) idle
      | start here | text here | finish here | endDocument here =>
        cases live.symm.trans here
        rfl
    · cases (badly ok).symm.trans lives

theorem held_feed {es : List Event} (within : Within c es d) (live : d.progress = .live ctx)
    (lives : (feed c es d).2.progress = .live next) :
    next.work.held =
      ctx.work.held.after ((callbacks c es d).flatMap (Callback.objectCalls account)) := by
  induction es generalizing d ctx with
  | nil =>
    cases live.symm.trans lives
    rw [callbacks, feed, Dispatcher.calls_logging]
    rfl
  | cons e es ih =>
    obtain ⟨middle, going⟩ := live_before within.2 lives
    rw [show e :: es = [e] ++ es from rfl, callbacks_append, List.flatMap_append,
      Objects.after_append, ← held_run account within.1 live going]
    exact ih within.2 going lives

theorem held_startDocument (idle : d.state ≠ .documentStarted)
    (lives : (feed c [.startDocument] d).2.progress = .live next) :
    next.work.held = d.fresh.work.held.after
      ((callbacks c [.startDocument] d).flatMap (Callback.objectCalls account)) := by
  cases outcome c .startDocument d with
  | silent none same => exact absurd (Dispatcher.state_of_live (same next lives).1) idle
  | asked asks chain verdict part well badly =>
    by_cases ok : ((Event.startDocument.run c).perform d).1 = .ok ()
    · rw [asks.held ((well ok).2.symm.trans lives), chain.held account]
      cases asks with
      | startDocument idle => rfl
    · cases (badly ok).symm.trans lives

theorem root_of_ended (idle : d.state ≠ .documentStarted) {es : List Event}
    (within : Within c es (feed c [.startDocument] d).2)
    (ended : ((Event.endDocument.run c).perform (feed c (.startDocument :: es) d).2).1 = .ok ()) :
    (feed c (.startDocument :: es ++ [.endDocument]) d).2.root? = (d.fresh.work.held.after
      ((callbacks c (.startDocument :: es ++ [.endDocument]) d).flatMap
        (Callback.objectCalls account))).root := by
  obtain ⟨ctx, ws, live, chain, -, -, finished⟩ := ended_of_ok ended
  obtain ⟨begun, going⟩ := live_before (d := (feed c [.startDocument] d).2) within live
  have opened := held_startDocument account idle going
  have middle := held_feed account within going live
  have calls : callbacks c (.startDocument :: es ++ [.endDocument]) d =
      callbacks c [.startDocument] d ++ callbacks c es (feed c [.startDocument] d).2 ++
        callbacks c [.endDocument] (feed c (.startDocument :: es) d).2 := by
    rw [callbacks_append, show Event.startDocument :: es = [.startDocument] ++ es from rfl,
      callbacks_append]
  have held : ws.held = d.fresh.work.held.after
      ((callbacks c (.startDocument :: es ++ [.endDocument]) d).flatMap
        (Callback.objectCalls account)) := by
    rw [calls, List.flatMap_append, List.flatMap_append, Objects.after_append, Objects.after_append,
      ← opened, ← middle]
    exact chain.held account
  rw [feed_snoc, Dispatcher.root?, finished]
  exact congrArg Objects.root held

theorem root_after_withContext (none : d.root? = none) (step : ContextM σ Unit) :
    ((Dispatcher.withContext step).perform d).2.root? = Option.none := by
  by_cases started : d.state = .documentStarted
  · obtain ⟨ctx, live⟩ := Dispatcher.live_of_started started
    rw [Dispatcher.perform_withContext live]
    cases step.perform ctx with
    | mk result after => cases result <;> rfl
  · obtain ⟨misuse, refused⟩ := Dispatcher.perform_withContext_idle started step
    rw [refused]
    exact none

theorem root_after_run (none : d.root? = none)
    (unended : e = .endDocument → ((e.run c).perform d).1 ≠ .ok ()) :
    ((e.run c).perform d).2.root? = Option.none := by
  cases e with
  | startDocument =>
    by_cases started : d.state = .documentStarted
    · rw [perform_startDocument_refused started]
      exact none
    · rw [perform_startDocument d started]
      exact root_after_withContext rfl _
  | start name attrs =>
    rw [perform_start]
    exact root_after_withContext (d := { d with pending := [] }) none _
  | text content => exact root_after_withContext none _
  | finish name =>
    rw [perform_finish]
    exact root_after_withContext none _
  | endDocument =>
    by_cases started : d.state = .documentStarted
    · obtain ⟨ctx, live⟩ := Dispatcher.live_of_started started
      have failed := unended rfl
      rw [perform_endDocument live] at failed ⊢
      cases ran : (Dispatcher.finishRules c).perform ctx with
      | mk result after =>
        rw [ran] at failed
        cases result with
        | ok value => exact absurd rfl failed
        | error failure => rfl
    · obtain ⟨misuse, refused⟩ := Dispatcher.perform_withContext_idle started (Dispatcher.finishRules c)
      have told : (Event.endDocument.run c).perform d = (.error (.internal misuse), d) :=
        Attempt.perform_bind_error refused _
      rw [told]
      exact none
  | declare | setRoot => exact none
  | takeRoot =>
    obtain ⟨rules, factory, trims, pending, initialRoot, progress⟩ := d
    cases progress <;> rfl
  | abort =>
    obtain ⟨rules, factory, trims, pending, initialRoot, progress⟩ := d
    cases progress with
    | ended root store journal => exact none
    | idle | live | aborted => rfl

def Unended (c : Catalogue σ) : List Event → Dispatcher σ → Prop
  | [], _ => True
  | e :: es, d =>
    (e = .endDocument → ((e.run c).perform d).1 ≠ .ok ()) ∧ Unended c es ((e.run c).perform d).2

theorem root_after_feed (none : d.root? = none) {es : List Event} (unended : Unended c es d) :
    (feed c es d).2.root? = Option.none := by
  induction es generalizing d with
  | nil => exact none
  | cons e es ih => exact ih (root_after_run none unended.1) unended.2

theorem root?_of_state (state : d.state ≠ .documentEnded) : d.root? = none := by
  obtain ⟨rules, factory, trims, pending, initialRoot, progress⟩ := d
  cases progress with
  | ended root store journal => exact absurd rfl state
  | idle | live | aborted => rfl

-- The root of a document is the object that was made it last. Failing that it is the one that was given
-- before the document, and failing that the first one that was pushed, whatever has become of the stack.
-- Without a root there is nothing on the stack, at any point of any call. A document that does not end
-- well has no root, and none is there until one does.
theorem root_of_document (d : Dispatcher σ) (idle : d.state ≠ .documentStarted) :
    (∀ es, (∀ ctx, (feed c es d).2.progress = .live ctx → ctx.work.held.Rooted) ∧
      ∀ call ∈ callbacks c es d, ∀ soon, soon <+: call.objectCalls account →
        (call.work.held.after soon).Rooted) ∧
    (∀ es, Within c es (feed c [.startDocument] d).2 →
      ((Event.endDocument.run c).perform (feed c (.startDocument :: es) d).2).1 = .ok () →
      let document := .startDocument :: es ++ [.endDocument]
      (feed c document d).2.root? =
        ObjectCall.retained (d.initialRoot.map fun _ => Processor.givenRoot)
          ((callbacks c document d).flatMap (Callback.objectCalls account))) ∧
    (∀ o, d.initialRoot = some o → d.fresh.work.store.get? Processor.givenRoot = some o) ∧
    ∀ es more, (feed c es d).2.state ≠ .documentEnded → Unended c more (feed c es d).2 →
      (feed c (es ++ more) d).2.root? = none := by
  have rooted : d.Rooted := fun ctx live => absurd (Dispatcher.state_of_live live) idle
  refine ⟨rooted_feed account rooted, ?_, ?_, ?_⟩
  · intro es within ended document
    rw [root_of_ended account idle within ended, d.rooted_fresh.root_after]
    congr 1
    obtain ⟨rules, factory, trims, pending, initialRoot, progress⟩ := d
    cases initialRoot <;> rfl
  · intro o given
    rw [Dispatcher.fresh, given]
    rfl
  · intro es more state unended
    rw [feed_append]
    exact root_after_feed (root?_of_state state) unended

theorem root_of_document_refilled :
    let actions (moment : Moment) : List Journal.Instruction := match moment with
      | .starting => [⟨"pop", .pop, true⟩]
      | .beginning => [⟨"push", .push (.int 1), false⟩, ⟨"pop", .pop, false⟩]
      | .ending => [⟨"push", .push (.int 2), false⟩, ⟨"duplicate", .duplicate, false⟩]
      | _ => []
    let c : Catalogue Journal := .tie (fun id => Journal.scripted id "script" actions) 1
    let account : c.Account := .tie (fun id _ others => Journal.accountScripted others id _ _) 1
    let d : Dispatcher Journal := .new (.base (.after [.register (.rule "a" ⟨0⟩)])) {} false #[]
    let es : List Event := [.start ⟨"", "a"⟩ {}, .finish ⟨"", "a"⟩]
    let document := .startDocument :: es ++ [.endDocument]
    d.state ≠ .documentStarted ∧ Within c es (feed c [.startDocument] d).2 ∧
      ((Event.endDocument.run c).perform (feed c (.startDocument :: es) d).2).1 = .ok () ∧
      (callbacks c document d).flatMap (Callback.objectCalls account) =
        [.pop, .push ⟨0⟩, .pop, .push ⟨1⟩, .push ⟨1⟩] ∧
      (feed c document d).2.root? = some ⟨0⟩ ∧
      (feed c (.startDocument :: es ++ [.abort]) d).2.root? = none := by
  intro actions c account d es document
  have idle : d.state ≠ .documentStarted := by decide
  have within : Within c es (feed c [.startDocument] d).2 := ⟨nofun, nofun, trivial⟩
  have ended : ((Event.endDocument.run c).perform (feed c (.startDocument :: es) d).2).1 = .ok () := by
    decide +kernel
  have calls : (callbacks c document d).flatMap (Callback.objectCalls account) =
      [.pop, .push ⟨0⟩, .pop, .push ⟨1⟩, .push ⟨1⟩] := by
    decide +kernel
  have going : (feed c (.startDocument :: es) d).2.state ≠ .documentEnded := by decide +kernel
  obtain ⟨-, root, -, rootless⟩ := root_of_document account d idle
  refine ⟨idle, within, ended, calls, ?_, rootless _ _ going ⟨nofun, trivial⟩⟩
  have retained : (feed c document d).2.root? = _ := root es within ended
  rw [calls] at retained
  exact retained

end Event
end Documents
end XmlRules
