import Mathlib.Data.List.Induction
import XmlRules.Proofs.ScopeEffects
namespace XmlRules

-- Every scope knows the registry that is active when it closes: the one directly beneath it.
def Chained (base : Registry) : List Scope → Prop
  | [] => True
  | scope :: below => scope.rules.parent? = some (topmost base below) ∧ Chained base below

theorem Chained.append {base : Registry} {scopes below : List Scope}
    (upper : Chained (topmost base below) scopes) (lower : Chained base below) :
    Chained base (scopes ++ below) := by
  induction scopes with
  | nil => exact lower
  | cons scope scopes ih =>
    refine ⟨?_, ih upper.2⟩
    rw [List.append_eq, topmost_append]
    exact upper.1

-- The scopes there are when some actions have opened theirs one after another, each above all that
-- is open by then.
def stacked (opens : ActionId → Registry → List Scope) (base : Registry) (ids : List ActionId)
    (scopes : List Scope) : List Scope :=
  ids.foldl (fun scopes id => opens id (topmost base scopes) ++ scopes) scopes

section Stacking
variable (opens : ActionId → Registry → List Scope) (base : Registry)

theorem stacked_snoc (ids : List ActionId) (id : ActionId) (scopes : List Scope) :
    stacked opens base (ids ++ [id]) scopes =
      opens id (topmost base (stacked opens base ids scopes)) ++ stacked opens base ids scopes := by
  rw [stacked, List.foldl_append]
  rfl

theorem stacked_append (ids : List ActionId) (scopes below : List Scope) :
    stacked opens base ids (scopes ++ below) =
      stacked opens (topmost base below) ids scopes ++ below := by
  induction ids generalizing scopes with
  | nil => rfl
  | cons id ids ih =>
    change stacked opens base ids (opens id (topmost base (scopes ++ below)) ++ (scopes ++ below)) = _
    rw [topmost_append, ← List.append_assoc, ih]
    rfl

theorem stacked_above (ids : List ActionId) (scopes : List Scope) :
    ∃ upper, stacked opens base ids scopes = upper ++ scopes ∧
      ∀ scope ∈ upper, ∃ id ∈ ids, ∃ active, scope ∈ opens id active := by
  induction ids generalizing scopes with
  | nil => exact ⟨[], rfl, by simp⟩
  | cons id ids ih =>
    obtain ⟨upper, shape, origin⟩ := ih (opens id (topmost base scopes) ++ scopes)
    refine ⟨upper ++ opens id (topmost base scopes), ?_, ?_⟩
    · rw [List.append_assoc]
      exact shape
    · intro scope member
      rcases List.mem_append.mp member with later | first
      · obtain ⟨other, known, active, opened⟩ := origin scope later
        exact ⟨other, List.mem_cons_of_mem _ known, active, opened⟩
      · exact ⟨id, List.mem_cons_self, _, first⟩

variable {opens base}

theorem chained_stacked (each : ∀ id active, Chained active (opens id active)) (ids : List ActionId)
    {scopes : List Scope} (chained : Chained base scopes) :
    Chained base (stacked opens base ids scopes) := by
  induction ids generalizing scopes with
  | nil => exact chained
  | cons id ids ih => exact ih ((each id _).append chained)

variable {σ : Type} {site : Site} {callback : ActionId → Step σ Unit}
  {fits : ActionId → Prop}

theorem Step.yields_stacked (single : ∀ id before, (callback id).Yields site before fun _ after =>
      fits id ∧ after = opens id (topmost site.rules before) ++ before)
    (ids : List ActionId) (before : List Scope) :
    (ids.forM callback).Yields site before fun _ after =>
      (∀ id ∈ ids, fits id) ∧ after = stacked opens site.rules ids before := by
  refine Step.yields_forM ids
    (fun done after => (∀ id ∈ done, fits id) ∧ after = stacked opens site.rules done before)
    ⟨by simp, rfl⟩ ?_
  intro done id later scopes _ so
  refine (single id scopes).weaken fun _ after next => ⟨?_, ?_⟩
  · intro other member
    rcases List.mem_append.mp member with old | new
    · exact so.1 other old
    · rw [List.mem_singleton.mp new]
      exact next.1
  · rw [next.2, so.2, stacked_snoc]

-- Closed in reverse order, each action finds its own scopes on top.
theorem Step.yields_unstacked (single : ∀ id active below, fits id →
      (callback id).Yields site (opens id active ++ below) fun _ after => after = below)
    (ids : List ActionId) (fit : ∀ id ∈ ids, fits id) (scopes below : List Scope) :
    (ids.reverse.forM callback).Yields site (stacked opens base ids scopes ++ below)
      fun _ after => after = scopes ++ below := by
  induction ids using List.reverseRecOn with
  | nil => exact yields_pure rfl
  | append_singleton ids id ih =>
    rw [List.reverse_append, stacked_snoc, List.append_assoc]
    refine (single id _ _ (fit id (by simp))).bind fun _ after same => ?_
    rw [same]
    exact ih fun other member => fit other (List.mem_append_left _ member)

end Stacking

-- Which actions nest rules. All others leave the scopes as they find them.
structure Nesting {σ : Type} (definitions : ActionId → Definition σ)
    (nested : ActionId → Option NestedRules) : Prop where
  nests : ∀ id n, nested id = some n → definitions id = n.behaviour id
  quiet : ∀ id, nested id = none → ∀ (depth : Nat) (occasion : Occasion),
    (occasion.answer (Catalogue.tie definitions depth id)).Quiet

structure Mount where
  path : String
  depth : Nat
  attrs : Attributes

def Site.mount (site : Site) (attrs : Attributes) : Mount :=
  ⟨site.trail.path, site.trail.depth, attrs⟩

def NestedRules.table? (n : NestedRules) (attrs : Attributes) : Option RuleTable :=
  match n.select attrs with
  | .ok set => (RuleTable.build .afterUniversal set).toOption
  | .error _ => none

def Mount.scope (m : Mount) (owner : ActionId) (table : RuleTable) (active : Registry) : Scope where
  rules := .within active table m.path
  mountDepth := m.depth
  mountActions := table.matching m.path
  owner := some (.nested owner)

theorem Mount.ownedHere_scope (m : Mount) (owner : ActionId) (table : RuleTable)
    (active : Registry) : Step.ownedHere (.nested owner) m.depth (m.scope owner table active) := by
  simp [Mount.scope, Step.ownedHere]

section Nested
variable (nested : ActionId → Option NestedRules) (m : Mount)

def mountedTable? (id : ActionId) : Option RuleTable := (nested id).bind (·.table? m.attrs)

-- The scopes that an action opens on the element: one of its own, and above it those of the actions
-- that are mounted with it.
def opened : Nat → ActionId → Registry → List Scope
  | 0, _, _ => []
  | depth + 1, id, active =>
    match mountedTable? nested m id with
    | none => []
    | some table =>
      stacked (opened depth) active (table.matching m.path) [m.scope id table active]

-- The action finds all its rule sets, and no more than so many of them inside one another.
def Fits : Nat → ActionId → Prop
  | 0, _ => False
  | depth + 1, id => ∀ n, nested id = some n →
    ∃ table, n.table? m.attrs = some table ∧ ∀ inner ∈ table.matching m.path, Fits depth inner

-- A scope that an action has opened on the element, with the rules of its own set and no others.
def Installed (scope : Scope) : Prop :=
  ∃ id n set table, nested id = some n ∧ n.select m.attrs = .ok set ∧
    RuleTable.build .afterUniversal set = .ok table ∧ scope.owner = some (.nested id) ∧
    scope.rules.table = table ∧ scope.mountDepth = m.depth ∧
    scope.mountActions = table.matching m.path

end Nested

section Opening
variable {nested : ActionId → Option NestedRules} {m : Mount}

theorem opened_of_table {id : ActionId} {n : NestedRules} {table : RuleTable}
    (nests : nested id = some n) (found : n.table? m.attrs = some table) (depth : Nat)
    (active : Registry) : opened nested m (depth + 1) id active =
      stacked (opened nested m depth) active (table.matching m.path) [m.scope id table active] := by
  have mounts : mountedTable? nested m id = some table := by
    rw [mountedTable?, nests]
    exact found
  rw [opened, mounts]

theorem mem_opened {depth : Nat} {id : ActionId} {active : Registry} {scope : Scope}
    (member : scope ∈ opened nested m (depth + 1) id active) :
    ∃ n table, nested id = some n ∧ n.table? m.attrs = some table ∧
      (scope = m.scope id table active ∨ ∃ inner ∈ table.matching m.path,
        ∃ under, scope ∈ opened nested m depth inner under) := by
  rw [opened] at member
  split at member
  · cases member
  · rename_i table mounts
    obtain ⟨n, nests, found⟩ := Option.bind_eq_some_iff.mp mounts
    refine ⟨n, table, nests, found, ?_⟩
    obtain ⟨upper, shape, origin⟩ := stacked_above (opened nested m depth) active
      (table.matching m.path) [m.scope id table active]
    rw [shape] at member
    rcases List.mem_append.mp member with above | own
    · exact .inr (origin scope above)
    · exact .inl (List.mem_singleton.mp own)

theorem NestedRules.table?_some {n : NestedRules} {attrs : Attributes} {table : RuleTable}
    (found : n.table? attrs = some table) :
    ∃ set, n.select attrs = .ok set ∧ RuleTable.build .afterUniversal set = .ok table := by
  unfold NestedRules.table? at found
  split at found
  · rename_i set selected
    refine ⟨set, selected, ?_⟩
    cases built : RuleTable.build .afterUniversal set with
    | ok result =>
      rw [built] at found
      cases found
      rfl
    | error e =>
      rw [built] at found
      cases found
  · cases found

theorem installed_of_mem_opened {depth : Nat} {id : ActionId} {active : Registry} {scope : Scope}
    (member : scope ∈ opened nested m depth id active) : Installed nested m scope := by
  induction depth generalizing id active with
  | zero => cases member
  | succ depth ih =>
    obtain ⟨n, table, nests, found, origin⟩ := mem_opened member
    rcases origin with rfl | ⟨inner, _, under, above⟩
    · obtain ⟨set, selected, built⟩ := NestedRules.table?_some found
      exact ⟨id, n, set, table, nests, selected, built, rfl, rfl, rfl, rfl⟩
    · exact ih above

theorem chained_opened (depth : Nat) (id : ActionId) (active : Registry) :
    Chained active (opened nested m depth id active) := by
  induction depth generalizing id active with
  | zero => trivial
  | succ depth ih =>
    rw [opened]
    split
    · trivial
    · exact chained_stacked ih _ ⟨rfl, trivial⟩

theorem Fits.mono {depth : Nat} {id : ActionId} (fits : Fits nested m depth id) :
    Fits nested m (depth + 1) id := by
  induction depth generalizing id with
  | zero => cases fits
  | succ depth ih =>
    intro n nests
    obtain ⟨table, found, inside⟩ := fits n nests
    exact ⟨table, found, fun inner member => ih (inside inner member)⟩

theorem owner_fits {depth : Nat} {id : ActionId} {active : Registry} {scope : Scope}
    (member : scope ∈ opened nested m depth id active) :
    ∃ owner, scope.owner = some (.nested owner) ∧
      ∀ room, Fits nested m room id → Fits nested m room owner := by
  induction depth generalizing id active with
  | zero => cases member
  | succ depth ih =>
    obtain ⟨n, table, nests, found, origin⟩ := mem_opened member
    rcases origin with rfl | ⟨inner, mounted, under, above⟩
    · exact ⟨id, rfl, fun _ fits => fits⟩
    · obtain ⟨owner, owned, carries⟩ := ih above
      refine ⟨owner, owned, ?_⟩
      intro room fits
      cases room with
      | zero => cases fits
      | succ room =>
        obtain ⟨other, same, inside⟩ := fits n nests
        cases found.symm.trans same
        exact carries (room + 1) (inside inner mounted).mono

-- No action is mounted within itself, or it would fit nowhere.
theorem Fits.irreflexive {depth : Nat} {id : ActionId} (fits : Fits nested m depth id) :
    ¬ ∀ room, Fits nested m (room + 1) id → Fits nested m room id := by
  intro descends
  induction depth with
  | zero => exact fits
  | succ depth ih => exact ih (descends depth fits)

-- An action finds its own scope below all that its mounted actions have opened.
theorem Fits.find?_own {depth : Nat} {id : ActionId} {n : NestedRules} {table : RuleTable}
    (fits : Fits nested m (depth + 1) id) (nests : nested id = some n)
    (found : n.table? m.attrs = some table) (active : Registry) (below : List Scope) :
    (opened nested m (depth + 1) id active ++ below).find? (Step.ownedHere (.nested id) m.depth) =
      some (m.scope id table active) := by
  obtain ⟨upper, shape, origin⟩ := stacked_above (opened nested m depth) active
    (table.matching m.path) [m.scope id table active]
  have foreign : upper.find? (Step.ownedHere (.nested id) m.depth) = none := by
    rw [List.find?_eq_none]
    intro scope member own
    obtain ⟨inner, mounted, under, above⟩ := origin scope member
    obtain ⟨owner, owned, carries⟩ := owner_fits above
    have same : owner = id := by
      simp only [Step.ownedHere, owned, Bool.and_eq_true, decide_eq_true_eq] at own
      exact Owner.nested.inj (Option.some.inj own.1)
    subst same
    -- Then it would be mounted within itself.
    apply fits.irreflexive
    intro room deeper
    obtain ⟨other, again, inside⟩ := deeper n nests
    cases found.symm.trans again
    exact carries room (inside inner mounted)
  rw [opened_of_table nests found, shape, List.append_assoc, List.find?_append, foreign,
    List.singleton_append,
    List.find?_cons_of_pos (m.ownedHere_scope id table active)]
  rfl

end Opening

namespace NestedRules
open Step
variable {σ : Type} {site : Site} {before : List Scope}

theorem yields_install (set : List Registration) : Yields (install set : Step σ Registry) site before
    fun rules after => ∃ table, RuleTable.build .afterUniversal set = .ok table ∧
      rules = .within (topmost site.rules before) table site.trail.path ∧ after = before := by
  unfold install
  cases built : RuleTable.build .afterUniversal set with
  | error e => exact yields_throw (.invalidRule e) _
  | ok table =>
    refine yields_activeRules.bind fun active scopes on => ?_
    refine yields_path.bind fun path scopes at_ => ?_
    exact yields_pure ⟨table, rfl, by rw [on.1, at_.1], at_.2.trans on.2⟩

theorem yields_mounted (self : ActionId) :
    Yields (mounted self : Step σ (List ActionId)) site before fun ids after =>
      (∃ scope, before.find? (ownedHere (.nested self) site.trail.depth) = some scope ∧
        ids = scope.mountActions) ∧ after = before := by
  refine (yields_ownedScope? _).bind fun found scopes same => ?_
  obtain ⟨search, rfl⟩ := same
  cases found with
  | none => exact yields_path.bind fun path _ _ => yields_throw _ _
  | some scope => exact yields_pure ⟨⟨scope, search.symm, rfl⟩, rfl⟩

theorem quiet_mounted (self : ActionId) : (mounted self : Step σ (List ActionId)).Quiet :=
  fun _ _ => (yields_mounted self).weaken fun _ _ both => both.2

-- Every error is passed on in the end, so only the run without one counts.
theorem yields_begin (n : NestedRules) (self : ActionId) (c : Catalogue σ) (name : QName)
    (attrs : Attributes) {post : Unit → List Scope → Prop}
    (entered : (n.enter self c name attrs).Yields site before post) :
    (n.begin self c name attrs).Yields site before post := by
  refine yields_tryCatch entered fun e scopes => ?_
  refine (yields_ownedScope? _).bind fun found scopes _ => ?_
  split
  · exact (yields_closeOwnedScope _).bind fun _ _ _ => yields_throw e _
  · exact yields_throw e _

theorem yields_failure? {step : Step σ Unit} {post : Unit → List Scope → Prop}
    (yields : step.Yields site before post) :
    (failure? step).Yields site before fun failed after => failed = none → post () after := by
  refine yields_tryCatch ?_ fun e scopes => yields_pure (by simp)
  exact yields.bind fun _ after holds => yields_pure fun _ => holds

end NestedRules

def Occasion.aside : Occasion → Bool
  | .begin _ _ | .ending _ => false
  | _ => true

namespace Nesting
open Step NestedRules
variable {σ : Type} {definitions : ActionId → Definition σ}
  {nested : ActionId → Option NestedRules} {site : Site} {before : List Scope}

theorem tie_succ (nesting : Nesting definitions nested) {id : ActionId} {n : NestedRules}
    (nests : nested id = some n) (depth : Nat) :
    Catalogue.tie definitions (depth + 1) id = n.behaviour id (Catalogue.tie definitions depth) := by
  change definitions id _ = _
  rw [nesting.nests id n nests]

theorem quiet_aside (nesting : Nesting definitions nested) (occasion : Occasion)
    (aside : occasion.aside) (depth : Nat) (id : ActionId) :
    (occasion.answer (Catalogue.tie definitions depth id)).Quiet := by
  induction depth generalizing id with
  | zero => cases occasion <;> exact quiet_throw .tooDeep
  | succ depth ih =>
    cases nests : nested id with
    | none => exact nesting.quiet id nests (depth + 1) occasion
    | some n =>
      rw [nesting.tie_succ nests]
      cases occasion with
      | segment name text =>
        exact (quiet_mounted id).bind fun ids => quiet_forM ids fun inner _ => ih inner
      | body name text =>
        exact (quiet_mounted id).bind fun ids => quiet_forM ids fun inner _ => ih inner
      | start | finish => exact quiet_pure ()
      | begin | ending => cases aside

theorem quiet_start (nesting : Nesting definitions nested) (depth : Nat) (ids : List ActionId) :
    ((Catalogue.tie definitions depth).start ids).Quiet :=
  quiet_forM ids fun id _ => nesting.quiet_aside .start rfl depth id

theorem quiet_finish (nesting : Nesting definitions nested) (depth : Nat) (ids : List ActionId) :
    ((Catalogue.tie definitions depth).finish ids).Quiet :=
  quiet_forM ids fun id _ => nesting.quiet_aside .finish rfl depth id

theorem yields_enter (nesting : Nesting definitions nested) {depth : Nat} {name : QName}
    {attrs : Attributes} (single : ∀ id before,
      ((Catalogue.tie definitions depth id).onBegin name attrs).Yields site before fun _ after =>
        Fits nested (site.mount attrs) depth id ∧
          after = opened nested (site.mount attrs) depth id (topmost site.rules before) ++ before)
    (n : NestedRules) (self : ActionId) :
    (n.enter self (Catalogue.tie definitions depth) name attrs).Yields site before
      fun _ after => ∃ table, n.table? attrs = some table ∧
        (∀ inner ∈ table.matching site.trail.path, Fits nested (site.mount attrs) depth inner) ∧
        after = stacked (opened nested (site.mount attrs) depth) (topmost site.rules before)
          (table.matching site.trail.path)
          [(site.mount attrs).scope self table (topmost site.rules before)] ++ before := by
  rw [enter_written]
  refine (yields_ofExcept (n.select attrs)).bind fun set scopes chosen => ?_
  obtain ⟨selected, rfl⟩ := chosen
  refine (yields_install set).bind fun rules scopes made => ?_
  obtain ⟨table, built, rfl, rfl⟩ := made
  refine yields_path.bind fun path scopes here => ?_
  obtain ⟨rfl, rfl⟩ := here
  refine (yields_openScope _ _ _).bind fun _ scopes own => ?_
  refine (nesting.quiet_start depth _ site scopes).bind fun _ started same => ?_
  rw [same, own]
  refine (yields_stacked single _ _).weaken fun _ after all => ?_
  refine ⟨table, ?_, all.1, ?_⟩
  · simp only [NestedRules.table?, selected, built, Except.toOption]
  · rw [all.2, ← stacked_append]
    rfl

theorem yields_begin (nesting : Nesting definitions nested) (depth : Nat) (name : QName)
    (attrs : Attributes) (id : ActionId) (before : List Scope) :
    ((Catalogue.tie definitions depth id).onBegin name attrs).Yields site before fun _ after =>
      Fits nested (site.mount attrs) depth id ∧
        after = opened nested (site.mount attrs) depth id (topmost site.rules before) ++ before := by
  induction depth generalizing id before with
  | zero => exact yields_throw .tooDeep _
  | succ depth ih =>
    cases nests : nested id with
    | none =>
      refine (nesting.quiet id nests (depth + 1) (.begin name attrs) site before).weaken ?_
      intro _ after same
      refine ⟨by simp [Fits, nests], ?_⟩
      rw [same, opened, mountedTable?, nests]
      rfl
    | some n =>
      rw [nesting.tie_succ nests]
      apply NestedRules.yields_begin
      refine (nesting.yields_enter ih n id).weaken fun _ after entered => ?_
      obtain ⟨table, found, inside, rfl⟩ := entered
      refine ⟨?_, ?_⟩
      · intro other same
        cases nests.symm.trans same
        exact ⟨table, found, inside⟩
      · rw [opened_of_table nests found]
        rfl

theorem yields_leave (nesting : Nesting definitions nested) {depth : Nat} {name : QName} {m : Mount}
    (here : m.depth = site.trail.depth) (single : ∀ id active below, Fits nested m depth id →
      ((Catalogue.tie definitions depth id).onEnd name).Yields site
        (opened nested m depth id active ++ below) fun _ after => after = below)
    {id : ActionId} {n : NestedRules} (nests : nested id = some n)
    (fits : Fits nested m (depth + 1) id) (active : Registry) (below : List Scope) :
    (leave id (Catalogue.tie definitions depth) name).Yields site
      (opened nested m (depth + 1) id active ++ below) fun _ after => after = below := by
  obtain ⟨table, found, inside⟩ := fits n nests
  have own := fits.find?_own nests found active below
  rw [here, opened_of_table nests found] at own
  rw [opened_of_table nests found]
  -- The actions to end are read from the scope that was opened for them.
  refine (yields_mounted id).bind fun ids scopes mounted => ?_
  obtain ⟨⟨scope, search, rfl⟩, rfl⟩ := mounted
  cases own.symm.trans search
  refine (yields_failure? (yields_unstacked single (table.matching m.path) inside
    [m.scope id table active] below)).bind fun failed scopes closed => ?_
  cases failed with
  -- The scope is closed all the same, but the error comes out.
  | some e =>
    refine (yields_closeOwnedScope _).bind fun scope scopes _ => ?_
    refine (yields_failure? (nesting.quiet_finish depth scope.rules.actions site scopes)).bind ?_
    exact fun unfinished after _ => yields_throw e _
  | none =>
    rw [closed rfl]
    refine (yields_closeOwnedScope _).bind fun scope scopes taken => ?_
    rw [taken.2, List.singleton_append, List.eraseP_cons_of_pos (here ▸ m.ownedHere_scope id table active)]
    refine (yields_failure? (nesting.quiet_finish depth scope.rules.actions site below)).bind ?_
    intro unfinished after kept
    cases unfinished with
    | some e => exact yields_throw e _
    | none => exact yields_pure (kept rfl)

theorem yields_end (nesting : Nesting definitions nested) {m : Mount}
    (here : m.depth = site.trail.depth) (depth : Nat) (name : QName) (id : ActionId)
    (active : Registry) (below : List Scope) (fits : Fits nested m depth id) :
    ((Catalogue.tie definitions depth id).onEnd name).Yields site
      (opened nested m depth id active ++ below) fun _ after => after = below := by
  induction depth generalizing id active below with
  | zero => cases fits
  | succ depth ih =>
    cases nests : nested id with
    | none =>
      rw [opened, mountedTable?, nests]
      exact nesting.quiet id nests (depth + 1) (.ending name) site below
    | some n =>
      rw [nesting.tie_succ nests]
      exact nesting.yields_leave here ih nests fits active below

end Nesting
end XmlRules
