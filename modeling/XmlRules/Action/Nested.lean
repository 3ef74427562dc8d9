import XmlRules.Action
namespace XmlRules
open Step

-- A set of rules is asked for its registrations anew whenever it is installed. It sees the rules that
-- it is installed under and the actions' own record, which it may change; among what it registers
-- there may be actions that it has made just then.
abbrev RuleSet (σ : Type) := Registry → σ → Except RuleError (List Registration) × σ

def RuleSet.written {σ : Type} (rules : List Registration) : RuleSet σ :=
  fun _ journal => (.ok rules, journal)

-- Switches to a rule set of its own for the subtree below an element. The value of the selector
-- attribute picks the set, the usual set stands in when the attribute is absent.
structure RuleChoice (κ : Type) where
  sets : Std.TreeMap String κ := {}
  selector : Option String := none
  usual : Option String := none

-- Over sets that are written down.
abbrev NestedRules := RuleChoice (List Registration)

namespace RuleChoice
variable {κ : Type}

def single (set : κ) : RuleChoice κ where
  sets := ({} : Std.TreeMap String κ).insert "default" set
  usual := some "default"

def select (n : RuleChoice κ) (attrs : Attributes) : Except ActionError κ :=
  match (n.selector.bind attrs.get?).or n.usual with
  | none => .error (.missingAttribute (n.selector.getD ""))
  | some name =>
    match n.sets[name]? with
    | some set => .ok set
    | none => .error (.unknownRuleSet name)

end RuleChoice

namespace NestedRules
variable {σ : Type}

def install (rules : List Registration) : Step σ Registry := do
  match RuleTable.build .afterUniversal rules with
  | .error e => throw (.invalidRule e)
  | .ok table => return .within (← activeRules) table (← path)

def mounted (self : ActionId) : Step σ (List ActionId) := do
  match ← ownedScope? (.nested self) with
  | some scope => return scope.mountActions
  | none => throw (.noRuleScope (← path))

def failure? (step : Step σ Unit) : Step σ (Option ActionError) :=
  tryCatch (do step; return none) fun e => return some e

-- The scope is closed and finished even when an action of the mount element fails; the first
-- error counts.
def leave (self : ActionId) (catalogue : Catalogue σ) (name : QName) : Step σ Unit := do
  let actions ← mounted self
  let failed ← failure? (actions.reverse.forM fun id => (catalogue id).onEnd name)
  let scope ← closeOwnedScope (.nested self)
  let unfinished ← failure? (catalogue.finish scope.rules.actions)
  match failed.or unfinished with
  | some e => throw e
  | none => pure ()

end NestedRules

def RuleSet.install {σ : Type} (set : RuleSet σ) : Step σ Registry := do
  let asked := set (← activeRules) (← get).journal
  note fun _ => asked.2
  NestedRules.install (← ofExcept (asked.1.mapError .invalidRule))

namespace RuleChoice
open NestedRules
variable {κ σ : Type} (sets : κ → RuleSet σ)

def enter (n : RuleChoice κ) (self : ActionId) (catalogue : Catalogue σ) (name : QName)
    (attrs : Attributes) : Step σ Unit := do
  let rules ← (sets (← ofExcept (n.select attrs))).install
  let mounted := rules.matching (← path)
  openScope rules mounted (some (.nested self))
  catalogue.start rules.actions
  mounted.forM fun id => (catalogue id).onBegin name attrs

-- Leaves no scope of its own behind when it fails.
def begin (n : RuleChoice κ) (self : ActionId) (catalogue : Catalogue σ) (name : QName)
    (attrs : Attributes) : Step σ Unit :=
  tryCatch (n.enter sets self catalogue name attrs) fun e => do
    if (← ownedScope? (.nested self)).isSome then
      let _ ← closeOwnedScope (.nested self)
    throw e

def behaviour (n : RuleChoice κ) (self : ActionId) (catalogue : Catalogue σ) : Behaviour σ where
  name := "NestedRulesAction"
  onBegin := n.begin sets self catalogue
  onSegment name text := do
    (← mounted self).forM fun id => (catalogue id).onSegment name text
  onBody name text := do
    (← mounted self).forM fun id => (catalogue id).onBody name text
  onEnd := leave self catalogue

end RuleChoice

namespace NestedRules
variable {σ : Type} (n : NestedRules) (self : ActionId) (catalogue : Catalogue σ)

def enter (name : QName) (attrs : Attributes) : Step σ Unit :=
  RuleChoice.enter .written n self catalogue name attrs

def begin (name : QName) (attrs : Attributes) : Step σ Unit :=
  RuleChoice.begin .written n self catalogue name attrs

def behaviour : Behaviour σ := RuleChoice.behaviour .written n self catalogue

theorem install_written (rules : List Registration) :
    (RuleSet.written rules).install = (install rules : Step σ Registry) := by
  funext site ws
  obtain ⟨store, objects, named, params, scopes, root, journal⟩ := ws
  cases scopes <;> rfl

theorem enter_written (name : QName) (attrs : Attributes) :
    n.enter self catalogue name attrs = (do
      let rules ← install (← ofExcept (n.select attrs))
      let mounted := rules.matching (← path)
      openScope rules mounted (some (.nested self))
      catalogue.start rules.actions
      mounted.forM fun id => (catalogue id).onBegin name attrs) := by
  unfold enter RuleChoice.enter
  simp only [install_written]

end NestedRules
end XmlRules
