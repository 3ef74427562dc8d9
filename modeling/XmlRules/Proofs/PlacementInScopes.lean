import XmlRules.Proofs.LaidScopes
import XmlRules.Proofs.RefusedRegistrations
import XmlRules.Proofs.SteadyLookups
namespace XmlRules
open Step NestedRules

def RulesCall.entries : RulesCall → List Registration
  | .register entry => [entry]
  | .addRules pattern actions => actions.map (.rule pattern)

namespace RuleTable

theorem perform_addRules (text : String) (actions : List ActionId) (t : RuleTable) :
    ((addRules text actions).perform t).2 =
      (actions.map fun a => TableCall.register (.rule text a)).foldl answer t := by
  induction actions generalizing t with
  | nil => rfl
  | cons a actions ih =>
    have split : (addRules text (a :: actions)).perform t =
      (addRule text a >>= fun _ => addRules text actions).perform t := rfl
    have first : t.answer (.register (.rule text a)) = _ := perform_addRule t text a
    rw [split, List.map_cons, List.foldl_cons, first, ← ih]
    cases parsed : Pattern.parse t.prefixes text with
    | ok p => rw [Attempt.perform_bind_ok (addRule_done parsed a)]
    | error fault =>
      rw [Attempt.perform_bind_error (addRule_refused parsed a)]
      cases actions with
      | nil => rfl
      | cons b actions =>
        have refused := Attempt.perform_bind_error (addRule_refused parsed b) fun _ => addRules text actions
        exact (congrArg Prod.snd refused).symm

theorem perform_change (call : RulesCall) (t : RuleTable) :
    (call.change.perform t).2 = (call.entries.map TableCall.register).foldl answer t := by
  cases call with
  | register entry => rfl
  | addRules text actions =>
    rw [RulesCall.change, perform_addRules, RulesCall.entries, List.map_map]
    rfl

end RuleTable

namespace Registry

-- Rules behind everything that they have been asked to take, whether they have taken it or not.
def asked (r : Registry) (calls : List RulesCall) : Registry :=
  calls.foldl (fun r call => (r.amend call.change).2) r

theorem table_asked (calls : List RulesCall) (r : Registry) : (r.asked calls).table =
    ((calls.flatMap RulesCall.entries).map TableCall.register).foldl RuleTable.answer r.table := by
  induction calls generalizing r with
  | nil => rfl
  | cons call calls ih =>
    rw [List.flatMap_cons, List.map_append, List.foldl_append, ← RuleTable.perform_change,
      ← Registry.table_amend]
    exact ih _

end Registry

theorem Ledger.placement_enter (l : Ledger) (entry : Registration) :
    (l.enter entry).placement = l.placement := by
  cases entry with
  | rule text a =>
    unfold enter
    dsimp only
    split <;> rfl
  | declare | fallback | fallbacks | mandatory | mandatories => rfl

namespace RuleTable

theorem placement_after (placement : Placement) (entries : List Registration) :
    (after (.place placement :: entries.map .register)).placement = placement := by
  rw [(holds_after _).placement]
  have kept : ∀ l : Ledger, ((entries.map TableCall.register).foldl Ledger.note l).placement =
      l.placement := by
    induction entries with
    | nil => exact fun _ => rfl
    | cons entry entries ih => exact fun l => (ih _).trans (l.placement_enter entry)
  exact kept _

-- A match with its blocks in the order of a placement.
def arranged (t : RuleTable) (placement : Placement) (path : String) : List ActionId :=
  placement.arrange (t.ordinaryBlock path ++ t.fallbackBlock path) (t.universalBlock path) t.mandatory

theorem matching_eq_arranged {t : RuleTable} {placement : Placement} {entries : List Registration}
    (history : t = after (.place placement :: entries.map .register)) (path : String) :
    t.matching path = t.arranged placement path := by
  have placed : t.placement = placement := history ▸ placement_after placement entries
  rw [matching_eq_blocks, placed, arranged]

end RuleTable

theorem Processor.matching_asked (settings : Settings) (calls : List RulesCall) (path : String) :
    let rules := (Processor.new settings).rules.asked calls
    rules.matching path = rules.table.arranged settings.placement path :=
  RuleTable.matching_eq_arranged (Registry.table_asked calls _) path

section Scopes
variable {σ : Type} {nested : ActionId → Option NestedRules} {c : Catalogue σ} {d : Dispatcher σ}
  {ctx after : Context σ}

theorem Scope.Laid.arranged {scope : Scope} (laid : scope.Laid nested) {id : ActionId}
    {n : NestedRules} (nests : nested id = some n) (owned : scope.owner = some (.nested id)) :
    ∃ (m : Mount) (set : List Registration), n.select m.attrs = .ok set ∧
      RuleTable.build .afterUniversal set = .ok scope.rules.table ∧
      scope.mountActions = scope.rules.table.arranged .afterUniversal m.path ∧
      ∀ path, scope.rules.matching path = scope.rules.table.arranged .afterUniversal path := by
  obtain ⟨m, table, active, found, rfl⟩ := laid id n nests owned
  obtain ⟨set, selected, built⟩ := table?_some found
  have arranged := RuleTable.matching_eq_arranged (RuleTable.after_of_build built)
  exact ⟨m, set, selected, built, arranged m.path, arranged⟩

-- The text before an element may be for actions that open and close scopes.
theorem Event.matched_eq (live : d.progress = .live ctx) (name : QName) (attrs : Attributes)
    (told : (Context.flush c).perform ctx = (.ok (), after)) :
    matched c (.start name attrs) d =
        (ctx.site.active after.work).matching (ctx.site.trail.enter name).path ∧
      ∃ made, Chain c ctx.work made after.work := by
  obtain ⟨site, frames, work⟩ := ctx
  have shadow := Context.shadows_flush c.shadows_recorded ⟨site, frames, work.logged []⟩
  obtain ⟨made, ws, chain, -, -, worked, placed⟩ :=
    Context.runs_flush (c := c) ⟨site, frames, work.logged []⟩
  unfold Attempt.Shadows at shadow
  change (Context.flush c).perform ⟨site, frames, work⟩ = _ at shadow
  cases ran : (Context.flush c.recorded).perform ⟨site, frames, work.logged []⟩ with
  | mk result left =>
    rw [ran, told] at shadow
    rw [ran] at worked placed
    cases shadow
    obtain ⟨-, here, kept⟩ := placed rfl
    obtain ⟨_, _, _⟩ := left
    cases here
    cases kept
    cases worked
    have lookedUp := Context.lookedUp_openElement name attrs d.pending ran
    exact ⟨(matched_start live name attrs).trans lookedUp, made, chain⟩

-- Every processor, whatever it has been asked to take, every sequence of events and every element.
-- Where no scope is open, the placement that the processor was made with decides where the mandatory
-- actions stand. Every scope of nested rules, however deep and on whatever element, has rules of its
-- own with the usual placement, for its mount element too, and the last scope is the one that counts.
theorem placement_in_scopes (own : Catalogue σ) (nested : ActionId → Option NestedRules)
    (honest : own.Honest nested) (depth : Nat) (p : Processor) (calls : List RulesCall)
    (made : p.rules = (Processor.new p.settings).rules.asked calls) (journal : σ) (es : List Event) :
    let c : Catalogue σ := .mixed own nested depth
    let now := (Event.feed c es (p.dispatcher journal)).2
    ∀ ctx after, now.progress = .live ctx → (Context.flush c).perform ctx = (.ok (), after) →
      (∀ name attrs,
        let path := (ctx.site.trail.enter name).path
        let actions := Event.matched c (.start name attrs) now
        (after.work.scopes = [] → actions = p.rules.table.arranged p.settings.placement path) ∧
        ∀ scope below, after.work.scopes = scope :: below → actions = scope.rules.matching path) ∧
      ∀ scope ∈ after.work.scopes, ∀ id n, nested id = some n → scope.owner = some (.nested id) →
        ∃ (m : Mount) (set : List Registration), n.select m.attrs = .ok set ∧
          RuleTable.build .afterUniversal set = .ok scope.rules.table ∧
          scope.mountActions = scope.rules.table.arranged .afterUniversal m.path ∧
          ∀ path, scope.rules.matching path = scope.rules.table.arranged .afterUniversal path := by
  intro c now ctx after live told
  have lays := lays_mixed honest depth
  have fresh : (p.dispatcher journal).Laid nested := Dispatcher.laid_of_idle nofun
  have here : ctx.Laid nested now.rules := Event.laid_feed lays fresh es ctx live
  have kept := Event.keeps_feed (c := c) es (p.dispatcher journal)
  have base : ctx.site.rules = p.rules := here.rules.trans kept.rules
  refine ⟨fun name attrs => ?_, fun scope member id n nests owned => ?_⟩
  · intro path actions
    obtain ⟨matched, -⟩ := Event.matched_eq live name attrs told
    refine ⟨fun none => ?_, fun scope below stack => ?_⟩
    · have active : ctx.site.active after.work = p.rules := by
        rw [Site.active, none]
        exact base
      calc actions = p.rules.matching path := by rw [← active]; exact matched
        _ = p.rules.table.arranged p.settings.placement path := by
          rw [made]
          exact Processor.matching_asked p.settings calls path
    · have active : ctx.site.active after.work = scope.rules := by rw [Site.active, stack]
      rw [← active]
      exact matched
  · obtain ⟨-, told, chain⟩ := Event.matched_eq live ⟨"", ""⟩ {} told
    exact (chain.laid lays here.scopes scope member).arranged nests owned

theorem placement_in_scopes_of_two_levels :
    let own : Catalogue Unit := fun _ => { name := "K" }
    let nested : ActionId → Option NestedRules := fun id => match id.index with
      | 0 => some (.single [.rule "!*" ⟨2⟩, .mandatory ⟨3⟩, .rule "b" ⟨1⟩])
      | 1 => some (.single [.mandatory ⟨3⟩, .rule "!c" ⟨2⟩])
      | _ => none
    let c : Catalogue Unit := .mixed own nested 3
    let settings : Settings := { placement := .beforeUniversal }
    let calls : List RulesCall :=
      [.addRules "a" [⟨0⟩], .addRules "q:x" [⟨4⟩], .addRules "!*" [⟨4⟩, ⟨5⟩], .register (.mandatory ⟨6⟩)]
    let p : Processor := ⟨(Processor.new settings).rules.asked calls, {}, settings⟩
    let es : List Event := [.startDocument, .start ⟨"", "a"⟩ {}, .start ⟨"", "b"⟩ {}, .text "t"]
    let outside := (Event.feed c [.startDocument] (p.dispatcher ())).2
    let inside := (Event.feed c es (p.dispatcher ())).2
    let root := Event.matched c (.start ⟨"", "a"⟩ {}) outside
    let inner := Event.matched c (.start ⟨"", "c"⟩ {}) inside
    own.Honest nested ∧ root = p.rules.table.arranged .beforeUniversal "/a" ∧
      root = [⟨0⟩, ⟨6⟩, ⟨4⟩, ⟨5⟩] ∧ inner = [⟨2⟩, ⟨3⟩] ∧
      ∃ ctx after scope below, inside.progress = .live ctx ∧
        (Context.flush c).perform ctx = (.ok (), after) ∧ after.work.scopes = scope :: below ∧
        scope.owner = some (.nested ⟨1⟩) ∧
        inner = scope.rules.table.arranged .afterUniversal (ctx.site.trail.enter ⟨"", "c"⟩).path := by
  intro own nested c settings calls p es outside inside root inner
  subst c
  have honest : own.Honest nested := Catalogue.honest_of_still fun _ occasion => by
    cases occasion <;> exact still_pure ()
  have placed := placement_in_scopes own nested honest 3 p calls rfl ()
  have startedOutside : outside.state = .documentStarted := by decide +kernel
  have startedInside : inside.state = .documentStarted := by decide +kernel
  obtain ⟨first, liveOutside⟩ : ∃ first,
      (Event.feed (.mixed own nested 3) [.startDocument] (p.dispatcher ())).2.progress = .live first :=
    Dispatcher.live_of_started startedOutside
  obtain ⟨ctx, live⟩ : ∃ ctx,
      (Event.feed (.mixed own nested 3) es (p.dispatcher ())).2.progress = .live ctx :=
    Dispatcher.live_of_started startedInside
  let seen (ctx : Context Unit) := (((Context.flush (.mixed own nested 3)).perform ctx).1,
    ((Context.flush (.mixed own nested 3)).perform ctx).2.work.scopes.map Scope.owner)
  have none : outside.context?.map (fun ctx => (seen ctx, (ctx.site.trail.enter ⟨"", "a"⟩).path)) =
    some ((.ok (), []), "/a") := by decide +kernel
  have two : inside.context?.map seen =
    some (.ok (), [some (.nested ⟨1⟩), some (.nested ⟨0⟩)]) := by decide +kernel
  rw [Dispatcher.context?_of_live liveOutside] at none
  rw [Dispatcher.context?_of_live live] at two
  cases ranFirst : (Context.flush (.mixed own nested 3)).perform first with
  | mk result afterFirst =>
    cases ran : (Context.flush (.mixed own nested 3)).perform ctx with
    | mk resultToo after =>
      simp only [seen, ranFirst, Option.map_some, Option.some.injEq, Prod.mk.injEq,
        List.map_eq_nil_iff] at none
      simp only [seen, ran, Option.map_some, Option.some.injEq, Prod.mk.injEq] at two
      obtain ⟨⟨rfl, empty⟩, path⟩ := none
      obtain ⟨rfl, owners⟩ := two
      obtain ⟨scope, below, stack, owned, -⟩ := List.map_eq_cons_iff.mp owners
      obtain ⟨outer, -⟩ := placed [.startDocument] first afterFirst liveOutside ranFirst
      have atRoot := (outer ⟨"", "a"⟩ {}).1 empty
      obtain ⟨matched, laid⟩ := placed es ctx after live ran
      have member : scope ∈ after.work.scopes := by simp [stack]
      have nests : nested ⟨1⟩ = some (.single [.mandatory ⟨3⟩, .rule "!c" ⟨2⟩]) := rfl
      obtain ⟨-, -, -, -, -, arranged⟩ := laid scope member ⟨1⟩ _ nests owned
      rw [path] at atRoot
      exact ⟨honest, atRoot, by decide +kernel, by decide +kernel, ctx, after, scope, below, live, ran,
        stack, owned, ((matched ⟨"", "c"⟩ {}).2 scope below stack).trans (arranged _)⟩

-- A universal action stands before a mandatory one in a scope, on its mount element and beneath it,
-- although the processor was told otherwise.
theorem placement_not_passed_on :
    let own : Catalogue Unit := fun _ => { name := "K" }
    let nested : ActionId → Option NestedRules := fun id => match id.index with
      | 0 => some (.single [.rule "!*" ⟨1⟩, .mandatory ⟨2⟩])
      | _ => none
    let c : Catalogue Unit := .mixed own nested 2
    let settings : Settings := { placement := .beforeUniversal }
    let p : Processor :=
      ⟨(Processor.new settings).rules.asked [.register (.rule "a" ⟨0⟩)], {}, settings⟩
    let inside := (Event.feed c [.startDocument, .start ⟨"", "a"⟩ {}] (p.dispatcher ())).2
    let scopes := (inside.context?.map fun ctx => ctx.work.scopes).getD []
    Event.matched c (.start ⟨"", "b"⟩ {}) inside = [⟨1⟩, ⟨2⟩] ∧
      scopes.map (fun scope => (scope.owner, scope.mountActions)) =
        [(some (.nested ⟨0⟩), [⟨1⟩, ⟨2⟩])] ∧
      scopes.map (fun scope => (scope.rules.table.universalBlock "/a/b", scope.rules.table.mandatory)) =
        [([⟨1⟩], [⟨2⟩])] ∧
      scopes.map (fun scope => scope.rules.table.arranged settings.placement "/a/b") =
        [[⟨2⟩, ⟨1⟩]] := by
  intro own nested c settings p inside scopes
  exact ⟨by decide +kernel, by decide +kernel, by decide +kernel, by decide +kernel⟩

end Scopes

end XmlRules
