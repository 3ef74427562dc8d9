import XmlRules.Proofs.RefusedRegistrations
import XmlRules.Proofs.SteadyLookups
import XmlRules.Proofs.StockScopes
namespace XmlRules
open Step

def RuleSet.outcome {σ : Type} (set : RuleSet σ) (active : Registry) (journal : σ) :
    Except ActionError RuleTable × σ :=
  let asked := set active journal
  ((asked.1.bind (RuleTable.build .afterUniversal)).mapError .invalidRule, asked.2)

def RuleSet.table? {σ : Type} (set : RuleSet σ) (active : Registry) (journal : σ) :
    Option RuleTable :=
  (set.outcome active journal).1.toOption

theorem Ledger.matching_of_tail {p : Pattern} (tail : p.isTail = true) (a : ActionId) (path : String) :
    ({ rules := [(p, a)], given := [a] } : Ledger).matching path =
      if p.isMatch path then [a] else [] := by
  obtain ⟨ordinary, exact, relative⟩ : p.universal = false ∧ p.form = .exact ∧ p.anchor = .relative := by
    simpa [Pattern.isTail] using tail
  by_cases hit : p.isMatch path = true
  · simp [matching, chosen, winner?, whole?, longestTail?, hits, patterns, additive, universalActions,
      greatest?, actionsUnder, Pattern.isWhole, Pattern.isTail, ordinary, exact, relative, hit]
  · simp [matching, chosen, winner?, whole?, longestTail?, highestWildcard?, hits, patterns, additive,
      universalActions, greatest?, Pattern.isWhole, Pattern.isTail, Pattern.isWildcard, ordinary, exact,
      relative, hit]

-- A set that answers with a single rule for a name.
theorem RuleSet.table?_of_rule {σ : Type} {set : RuleSet σ} {active : Registry} {journal : σ}
    {text : String} {a : ActionId} (asked : (set active journal).1 = .ok [.rule text a]) {p : Pattern}
    (parsed : Pattern.parse {} text = .ok p) (tail : p.isTail = true) {names : List QName}
    (clean : ∀ q ∈ names, q.Clean) : ∃ table, set.table? active journal = some table ∧
      table.matching (Trail.along names).path =
        if p.isMatch (Trail.along names).path then [a] else [] := by
  have built : RuleTable.build .afterUniversal [.rule text a] =
      .ok (({} : RuleTable).addPattern p a) := by
    have added := Attempt.perform_bind_ok (RuleTable.addRule_done (t := {}) parsed a) fun _ => pure ()
    unfold RuleTable.build
    rw [show (RuleTable.registerAll [.rule text a]).perform {} = _ from added]
    rfl
  have noted : Ledger.after [.place .afterUniversal, .register (.rule text a)] =
      { rules := [(p, a)], given := [a] } := by
    simp [Ledger.after, Ledger.note, Ledger.enter, parsed, Ledger.addRule]
  refine ⟨({} : RuleTable).addPattern p a, ?_, ?_⟩
  · unfold table? outcome
    dsimp only
    rw [asked]
    dsimp only [Except.bind]
    rw [built]
    rfl
  · rw [RuleTable.after_of_build built, List.map_singleton, RuleTable.matching_eq_scan _ clean, noted]
    exact Ledger.matching_of_tail tail a _

theorem RuleSet.outcome_of_table? {σ : Type} {set : RuleSet σ} {active : Registry} {journal : σ}
    {table : RuleTable} (found : set.table? active journal = some table) :
    (set.outcome active journal).1 = .ok table := by
  rw [RuleSet.table?] at found
  cases made : (set.outcome active journal).1 with
  | error e =>
    rw [made] at found
    cases found
  | ok other =>
    rw [made] at found
    cases found
    rfl

namespace RuleChoice
open NestedRules
variable {κ σ : Type} {sets : κ → RuleSet σ} {n : RuleChoice κ} {site : Site} {name : QName}
  {attrs : Attributes}

def outcome (sets : κ → RuleSet σ) (n : RuleChoice κ) (attrs : Attributes) (active : Registry)
    (journal : σ) : Except ActionError RuleTable × σ :=
  match n.select attrs with
  | .error e => (.error e, journal)
  | .ok set => (sets set).outcome active journal

theorem select_single (set : κ) (attrs : Attributes) : (single set).select attrs = .ok set := by
  simp [single, select]

theorem outcome_eq_ok {active : Registry} {journal : σ} {table : RuleTable}
    (made : (n.outcome sets attrs active journal).1 = .ok table) :
    ∃ set, n.select attrs = .ok set ∧ (sets set).table? active journal = some table := by
  unfold outcome at made
  split at made
  · cases made
  · rename_i set picked
    exact ⟨set, picked, by rw [RuleSet.table?, made]; rfl⟩

end RuleChoice

namespace NestedRules
variable {σ : Type} {site : Site} {name : QName} {attrs : Attributes}

-- What is left to do on an element when the set has been found and its scope is open.
def mount (self : ActionId) (table : RuleTable) (c : Catalogue σ) (name : QName)
    (attrs : Attributes) (site : Site) (ws : Workspace σ) : Except ActionError Unit × Workspace σ :=
  Step.perform (do
      c.start table.actions
      (table.matching site.trail.path).forM fun id => (c id).onBegin name attrs) site
    { ws with
      scopes := (site.mount attrs).scope self table (topmost site.rules ws.scopes) :: ws.scopes }

theorem perform_activeRules (site : Site) (ws : Workspace σ) :
    Step.perform activeRules site ws = (.ok (topmost site.rules ws.scopes), ws) := by
  obtain ⟨store, objects, named, params, scopes, root, journal⟩ := ws
  cases scopes <;> rfl

theorem perform_install (rules : List Registration) (site : Site) (ws : Workspace σ) :
    Step.perform (install rules) site ws =
      (((RuleTable.build .afterUniversal rules).mapError .invalidRule).map
        (.within (topmost site.rules ws.scopes) · site.trail.path), ws) := by
  unfold install
  cases RuleTable.build .afterUniversal rules with
  | error e => rfl
  | ok table => exact Attempt.perform_bind_ok (perform_activeRules site ws) _

theorem perform_here {α : Type} {ws : Workspace σ} (next : Nat → Workspace σ → Step σ α) :
    Step.perform (do next (← depth) (← get)) site ws = Step.perform (next site.trail.depth ws) site ws :=
  rfl

theorem perform_ownedScope? (owner : Owner) (ws : Workspace σ) :
    Step.perform (ownedScope? owner) site ws =
      (.ok (ws.scopes.find? (ownedHere owner site.trail.depth)), ws) := rfl

theorem perform_closeOwnedScope {owner : Owner} {ws : Workspace σ} {scope : Scope}
    (found : ws.scopes.find? (ownedHere owner site.trail.depth) = some scope) :
    Step.perform (closeOwnedScope owner) site ws =
      (.ok scope, { ws with scopes := ws.scopes.eraseP (ownedHere owner site.trail.depth) }) := by
  unfold closeOwnedScope
  refine (perform_here _).trans ?_
  rw [found]
  rfl

end NestedRules

namespace RuleChoice
open NestedRules
variable {κ σ : Type} {sets : κ → RuleSet σ} {n : RuleChoice κ} {site : Site} {name : QName}
  {attrs : Attributes}

theorem perform_set (set : RuleSet σ) (site : Site) (ws : Workspace σ) :
    Step.perform set.install site ws =
      let active := topmost site.rules ws.scopes
      ((set.outcome active ws.journal).1.map (.within active · site.trail.path),
        { ws with journal := (set.outcome active ws.journal).2 }) := by
  refine (Attempt.perform_bind_ok (perform_activeRules site ws) _).trans ?_
  change Step.perform (do
    let asked := set (topmost site.rules ws.scopes) ws.journal
    note fun _ => asked.2
    install (← ofExcept (asked.1.mapError .invalidRule))) site ws = _
  unfold RuleSet.outcome
  dsimp only
  cases set (topmost site.rules ws.scopes) ws.journal with
  | mk answer journal =>
    cases answer with
    | error e => rfl
    | ok rules => exact perform_install rules site { ws with journal }

theorem perform_enter (n : RuleChoice κ) (self : ActionId) (c : Catalogue σ) (ws : Workspace σ) :
    Step.perform (n.enter sets self c name attrs) site ws =
      match n.outcome sets attrs (topmost site.rules ws.scopes) ws.journal with
      | (.ok table, journal) => mount self table c name attrs site { ws with journal }
      | (.error e, journal) => (.error e, { ws with journal }) := by
  unfold outcome
  cases picked : n.select attrs with
  | error e =>
    have chosen : Step.perform (ofExcept (n.select attrs)) site ws = (.error e, ws) := by
      rw [picked]
      rfl
    exact Attempt.perform_bind_error chosen _
  | ok set =>
    have chosen : Step.perform (ofExcept (n.select attrs)) site ws = (.ok set, ws) := by
      rw [picked]
      rfl
    have installed := perform_set (sets set) site ws
    refine (Attempt.perform_bind_ok chosen _).trans ?_
    dsimp only at installed ⊢
    cases made : (sets set).outcome (topmost site.rules ws.scopes) ws.journal with
    | mk answer journal =>
      rw [made] at installed
      cases answer with
      | error e => exact Attempt.perform_bind_error installed _
      | ok table => exact Attempt.perform_bind_ok installed _

theorem perform_begin (n : RuleChoice κ) (self : ActionId) (c : Catalogue σ) (ws : Workspace σ) :
    Step.perform (n.begin sets self c name attrs) site ws =
      match Step.perform (n.enter sets self c name attrs) site ws with
      | (.ok (), after) => (.ok (), after)
      | (.error e, after) => (.error e,
        { after with scopes := after.scopes.eraseP (ownedHere (.nested self) site.trail.depth) }) := by
  unfold begin
  refine (Attempt.perform_tryCatch (n.enter sets self c name attrs site) _ ws).trans ?_
  rw [show (n.enter sets self c name attrs site).perform ws =
    Step.perform (n.enter sets self c name attrs) site ws from rfl]
  cases Step.perform (n.enter sets self c name attrs) site ws with
  | mk result after =>
    cases result with
    | ok value => rfl
    | error e =>
      change Attempt.perform (ownedScope? (.nested self) site >>= fun found : Option Scope =>
        (if found.isSome then (do let _ ← closeOwnedScope (.nested self); throw e)
          else throw e : Step σ Unit) site) after = _
      refine (Attempt.perform_bind_ok (perform_ownedScope? _ after) _).trans ?_
      cases found : after.scopes.find? (ownedHere (.nested self) site.trail.depth) with
      | none =>
        dsimp only
        rw [List.eraseP_of_forall_not (by simpa using found)]
        rfl
      | some scope => exact Attempt.perform_bind_ok (perform_closeOwnedScope found) _

end RuleChoice

namespace NestedRules
variable {σ : Type} {n : NestedRules} {site : Site} {name : QName} {attrs : Attributes}

theorem outcome_written (n : NestedRules) (attrs : Attributes) (active : Registry) (journal : σ) :
    n.outcome .written attrs active journal = ((n.select attrs).bind fun rules =>
      (RuleTable.build .afterUniversal rules).mapError .invalidRule, journal) := by
  unfold RuleChoice.outcome
  cases n.select attrs <;> rfl

theorem perform_enter {table : RuleTable} (found : n.table? attrs = some table) (self : ActionId)
    (c : Catalogue σ) (ws : Workspace σ) :
    Step.perform (n.enter self c name attrs) site ws = mount self table c name attrs site ws := by
  obtain ⟨rules, picked, built⟩ := table?_some found
  refine (RuleChoice.perform_enter n self c ws).trans ?_
  rw [outcome_written, picked]
  dsimp only [Except.bind]
  rw [built]
  rfl

theorem perform_enter_none (missing : n.table? attrs = none) (self : ActionId) :
    ∃ e, ∀ (c : Catalogue σ) ws,
      Step.perform (n.enter self c name attrs) site ws = (.error e, ws) := by
  have refused : ∃ e, ((n.select attrs).bind fun rules =>
      (RuleTable.build .afterUniversal rules).mapError .invalidRule) = .error e := by
    unfold table? at missing
    cases picked : n.select attrs with
    | error e => exact ⟨e, rfl⟩
    | ok rules =>
      rw [picked] at missing
      dsimp only at missing
      cases built : RuleTable.build .afterUniversal rules with
      | error e => exact ⟨.invalidRule e, by dsimp only [Except.bind]; rw [built]; rfl⟩
      | ok table =>
        rw [built] at missing
        cases missing
  obtain ⟨e, refused⟩ := refused
  refine ⟨e, fun c ws => (RuleChoice.perform_enter n self c ws).trans ?_⟩
  rw [outcome_written, refused]

theorem perform_begin (n : NestedRules) (self : ActionId) (c : Catalogue σ) (ws : Workspace σ) :
    Step.perform (n.begin self c name attrs) site ws =
      match Step.perform (n.enter self c name attrs) site ws with
      | (.ok (), after) => (.ok (), after)
      | (.error e, after) => (.error e,
        { after with scopes := after.scopes.eraseP (ownedHere (.nested self) site.trail.depth) }) :=
  RuleChoice.perform_begin n self c ws

end NestedRules
end XmlRules
