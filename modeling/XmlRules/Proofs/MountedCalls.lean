import Mathlib.Data.List.Nodup
import XmlRules.Proofs.WatchedElement
namespace XmlRules
open Step NestedRules

def Occasion.spoken : Occasion → Bool
  | .segment _ _ | .body _ _ => true
  | _ => false

section Asking
variable (nested : ActionId → Option NestedRules) (site : Site) (attrs : Attributes)

-- What is asked on an element, and of whom, when an action is called there: something of the action
-- itself, or, if it nests rules, something of all that its rules match for the element. Before these
-- begin every action of the rules is started, and after they have ended every one is finished.
def asked (occasion : Occasion) : Nat → ActionId → List Duty
  | 0, _ => []
  | depth + 1, id =>
    match mountedTable? nested (site.mount attrs) id with
    | none => [⟨id, occasion, site⟩]
    | some table =>
      match occasion with
      | .begin _ _ => table.actions.map (⟨·, .start, site⟩) ++
          (table.matching site.trail.path).flatMap (asked occasion depth)
      | .segment _ _ | .body _ _ => (table.matching site.trail.path).flatMap (asked occasion depth)
      | .ending _ => (table.matching site.trail.path).reverse.flatMap (asked occasion depth) ++
          table.actions.map (⟨·, .finish, site⟩)
      | .start | .finish => [⟨id, occasion, site⟩]

-- The actions that begin on the element when one does, in their order, as far as so many levels.
def begins (m : Mount) : Nat → ActionId → List ActionId
  | 0, _ => []
  | depth + 1, id =>
    id :: match mountedTable? nested m id with
      | none => []
      | some table => (table.matching m.path).flatMap (begins m depth)

-- Those of the actions that come to be mounted with one on an element that nest rules themselves.
def nesters (m : Mount) (depth : Nat) (id : ActionId) : List ActionId :=
  (begins nested m depth id).filter fun inner => (nested inner).isSome

variable {nested site attrs} {id : ActionId} {m : Mount}

theorem asked_of_leaf (leaf : nested id = none) (occasion : Occasion) (depth : Nat) :
    asked nested site attrs occasion (depth + 1) id = [⟨id, occasion, site⟩] := by
  rw [asked, mountedTable?, leaf]
  rfl

theorem nesters_of_leaf (leaf : nested id = none) (depth : Nat) :
    nesters nested m (depth + 1) id = [] := by
  rw [nesters, begins, mountedTable?, leaf]
  simp [leaf]

theorem mountedTable?_of_table {n : NestedRules} {table : RuleTable} (nests : nested id = some n)
    (found : n.table? m.attrs = some table) : mountedTable? nested m id = some table := by
  rw [mountedTable?, nests]
  exact found

theorem nesters_of_table {n : NestedRules} {table : RuleTable} (nests : nested id = some n)
    (found : n.table? m.attrs = some table) (depth : Nat) : nesters nested m (depth + 1) id =
      id :: (table.matching m.path).flatMap (nesters nested m depth) := by
  rw [nesters, begins, mountedTable?_of_table nests found,
    List.filter_cons_of_pos (by simp [nests]), List.filter_flatMap]
  rfl

section Mounted
variable {table : RuleTable} (mounted : mountedTable? nested (site.mount attrs) id = some table)
include mounted

theorem asked_begin (name : QName) (given : Attributes) (depth : Nat) :
    asked nested site attrs (.begin name given) (depth + 1) id =
      table.actions.map (⟨·, .start, site⟩) ++ (table.matching site.trail.path).flatMap
        (asked nested site attrs (.begin name given) depth) := by
  rw [asked, mounted]

theorem asked_spoken {occasion : Occasion} (spoken : occasion.spoken) (depth : Nat) :
    asked nested site attrs occasion (depth + 1) id = (table.matching site.trail.path).flatMap
      (asked nested site attrs occasion depth) := by
  rw [asked, mounted]
  cases occasion with
  | segment | body => rfl
  | start | begin | ending | finish => cases spoken

theorem asked_ending (name : QName) (depth : Nat) :
    asked nested site attrs (.ending name) (depth + 1) id =
      (table.matching site.trail.path).reverse.flatMap (asked nested site attrs (.ending name) depth) ++
        table.actions.map (⟨·, .finish, site⟩) := by
  rw [asked, mounted]

end Mounted

theorem fits_of_leaf (leaf : nested id = none) (depth : Nat) : Fits nested m (depth + 1) id := by
  intro n nests
  cases leaf.symm.trans nests

theorem fits_of_mounted {ids : List ActionId} {depth : Nat}
    (mounted : (mountedTable? nested m id).map (·.matching m.path) = some ids)
    (inside : ∀ inner ∈ ids, Fits nested m depth inner) : Fits nested m (depth + 1) id := by
  intro n nests
  rw [mountedTable?, nests] at mounted
  obtain ⟨table, found, rfl⟩ := Option.map_eq_some_iff.mp mounted
  exact ⟨table, found, inside⟩

theorem asked_of_fits {depth : Nat} (fits : Fits nested (site.mount attrs) depth id)
    (occasion : Occasion) : asked nested site attrs occasion (depth + 1) id =
      asked nested site attrs occasion depth id := by
  induction depth generalizing id with
  | zero => cases fits
  | succ depth ih =>
    cases nests : nested id with
    | none => rw [asked_of_leaf nests, asked_of_leaf nests]
    | some n =>
      obtain ⟨table, found, inside⟩ := fits n nests
      have same : (table.matching site.trail.path).flatMap (asked nested site attrs occasion (depth + 1)) =
          (table.matching site.trail.path).flatMap (asked nested site attrs occasion depth) :=
        List.flatMap_congr fun inner member => ih (inside inner member)
      have back : (table.matching site.trail.path).reverse.flatMap
            (asked nested site attrs occasion (depth + 1)) =
          (table.matching site.trail.path).reverse.flatMap (asked nested site attrs occasion depth) :=
        List.flatMap_congr fun inner member => ih (inside inner (List.mem_reverse.mp member))
      rw [asked, asked, mountedTable?_of_table nests found]
      cases occasion with
      | begin | segment | body => simp only [same]
      | ending => simp only [back]
      | start | finish => rfl

section Fitting
variable {depth : Nat} {table : RuleTable} (fits : Fits nested (site.mount attrs) depth id)
  (mounted : mountedTable? nested (site.mount attrs) id = some table)
include fits mounted

theorem Fits.inside : ∃ room, depth = room + 1 ∧
    ∀ inner ∈ table.matching site.trail.path, Fits nested (site.mount attrs) room inner := by
  obtain ⟨n, nests, found⟩ := Option.bind_eq_some_iff.mp mounted
  cases depth with
  | zero => cases fits
  | succ room =>
    obtain ⟨other, same, inside⟩ := fits n nests
    cases found.symm.trans same
    exact ⟨room, rfl, inside⟩

theorem Fits.asked_begin (name : QName) (given : Attributes) :
    asked nested site attrs (.begin name given) depth id =
      table.actions.map (⟨·, .start, site⟩) ++ (table.matching site.trail.path).flatMap
        (asked nested site attrs (.begin name given) depth) := by
  obtain ⟨room, rfl, inside⟩ := fits.inside mounted
  rw [XmlRules.asked_begin mounted]
  exact congrArg _ (List.flatMap_congr fun inner member => (asked_of_fits (inside inner member) _).symm)

theorem Fits.asked_spoken {occasion : Occasion} (spoken : occasion.spoken) :
    asked nested site attrs occasion depth id = (table.matching site.trail.path).flatMap
      (asked nested site attrs occasion depth) := by
  obtain ⟨room, rfl, inside⟩ := fits.inside mounted
  rw [XmlRules.asked_spoken mounted spoken]
  exact List.flatMap_congr fun inner member => (asked_of_fits (inside inner member) _).symm

theorem Fits.asked_ending (name : QName) :
    asked nested site attrs (.ending name) depth id =
      (table.matching site.trail.path).reverse.flatMap (asked nested site attrs (.ending name) depth) ++
        table.actions.map (⟨·, .finish, site⟩) := by
  obtain ⟨room, rfl, inside⟩ := fits.inside mounted
  rw [XmlRules.asked_ending mounted]
  refine congrArg (· ++ _) (List.flatMap_congr fun inner member => ?_)
  exact (asked_of_fits (inside inner (List.mem_reverse.mp member)) _).symm

variable (before behind : List ActionId)

theorem Fits.splice_begin (name : QName) (given : Attributes) :
    let asks := List.flatMap (asked nested site attrs (.begin name given) depth)
    asks (before ++ id :: behind) = asks before ++ table.actions.map (⟨·, .start, site⟩) ++
      asks (table.matching site.trail.path) ++ asks behind := by
  simp only [List.flatMap_append, List.flatMap_cons, fits.asked_begin mounted, List.append_assoc]

theorem Fits.splice_spoken {occasion : Occasion} (spoken : occasion.spoken) :
    let asks := List.flatMap (asked nested site attrs occasion depth)
    asks (before ++ id :: behind) = asks (before ++ table.matching site.trail.path ++ behind) := by
  simp only [List.flatMap_append, List.flatMap_cons, fits.asked_spoken mounted spoken,
    List.append_assoc]

theorem Fits.splice_ending (name : QName) :
    let asks := List.flatMap (asked nested site attrs (.ending name) depth)
    asks (before ++ id :: behind).reverse = asks behind.reverse ++
      asks (table.matching site.trail.path).reverse ++ table.actions.map (⟨·, .finish, site⟩) ++
        asks before.reverse := by
  simp only [List.reverse_append, List.reverse_cons, List.flatMap_append, List.flatMap_cons,
    List.flatMap_nil, List.append_nil, fits.asked_ending mounted, List.append_assoc]

end Fitting

end Asking

section Performing
variable {σ : Type}

theorem Step.perform_next {α β : Type} {step : Step σ α} {site : Site} {ws t : Workspace σ} {a : α}
    (ran : Step.perform step site ws = (.ok a, t)) (next : α → Step σ β) :
    Step.perform (step >>= next) site ws = Step.perform (next a) site t :=
  Attempt.perform_bind_ok ran _

theorem NestedRules.perform_mounted {self : ActionId} {scope : Scope} {site : Site} {ws : Workspace σ}
    (found : ws.scopes.find? (ownedHere (.nested self) site.trail.depth) = some scope) :
    Step.perform (mounted self) site ws = (.ok scope.mountActions, ws) := by
  have owned : Step.perform (ownedScope? (.nested self)) site ws = (.ok (some scope), ws) := by
    rw [perform_ownedScope?, found]
  exact perform_next owned _

theorem NestedRules.perform_failure? (step : Step σ Unit) (site : Site) (ws : Workspace σ) :
    Step.perform (failure? step) site ws =
      (.ok (match (Step.perform step site ws).1 with
        | .ok () => none
        | .error e => some e), (Step.perform step site ws).2) := by
  refine (Attempt.perform_tryCatch ((do step; return none : Step σ _) site) _ ws).trans ?_
  have split : Attempt.perform ((do step; return none : Step σ (Option ActionError)) site) ws = _ :=
    Attempt.perform_bind (step site) _ ws
  rw [split, show Step.perform step site ws = (step site).perform ws from rfl]
  cases (step site).perform ws with
  | mk result after => cases result <;> rfl

end Performing

namespace Watch
variable {σ ε : Type} {w : Watch σ} {ws : Workspace (Logged σ)} {id : ActionId}

def asked (w : Watch σ) : Occasion → Nat → ActionId → List Duty :=
  XmlRules.asked w.nested w.site w.attrs

def nesters (w : Watch σ) : Nat → ActionId → List ActionId := XmlRules.nesters w.nested w.mount

def Stands (w : Watch σ) (scopes : List Scope) (id : ActionId) : Prop :=
  ∃ table scope, mountedTable? w.nested w.mount id = some table ∧
    scopes.find? (ownedHere (.nested id) w.level) = some scope ∧
    scope.rules.actions = table.actions ∧ scope.mountActions = table.matching w.site.trail.path

theorem Stands.kept {before after : List Scope} (stands : w.Stands before id)
    (kept : ScopeKept w.level before after id) : w.Stands after id := by
  obtain ⟨table, scope, mounted, found, same⟩ := stands
  exact ⟨table, scope, mounted, kept scope found, same⟩

section Loops
variable {ids : List ActionId} {call : ActionId → Attempt ε (Workspace (Logged σ)) Unit}
  {asks : ActionId → List Duty} {opens closes : ActionId → List ActionId}

theorem apart_of_nodup (once : (ids.flatMap opens).Nodup) {done later : List ActionId}
    (shape : ids = done ++ id :: later) {inner : ActionId} (member : inner ∈ opens id) :
    inner ∉ done.flatMap opens := by
  rw [shape, List.flatMap_append, List.flatMap_cons] at once
  intro early
  exact (List.nodup_append.mp once).2.2 inner early inner (List.mem_append_left _ member) rfl

theorem nodup_of_flatMap (once : (ids.flatMap opens).Nodup) (member : id ∈ ids) : (opens id).Nodup :=
  (List.nodup_flatMap.mp once).1 id member

-- Actions that begin one after another leave one another's scopes alone.
theorem goes_begins (grows : ∀ id, Grows (call id))
    (single : ∀ id ∈ ids, ∀ t, w.Goes (call id) t fun _ duties scopes => duties = asks id ∧
      w.Spared (opens id) t.scopes scopes ∧ ∀ inner ∈ opens id, w.Stands scopes inner)
    (once : (ids.flatMap opens).Nodup) (among : ∀ inner ∈ ids.flatMap opens, inner ∈ w.held)
    (ws : Workspace (Logged σ)) :
    w.Goes (ids.forM call) ws fun _ duties scopes => duties = ids.flatMap asks ∧
      w.Spared (ids.flatMap opens) ws.scopes scopes ∧
        ∀ inner ∈ ids.flatMap opens, w.Stands scopes inner := by
  refine goes_forM grows (fun done scopes => w.Spared (done.flatMap opens) ws.scopes scopes ∧
    ∀ inner ∈ done.flatMap opens, w.Stands scopes inner) ⟨.of_eq rfl, by simp⟩ ?_
  rintro done id later t shape ⟨spared, standing⟩
  refine (single id (by simp [shape]) t).weaken fun _ duties scopes next => ?_
  obtain ⟨rfl, still, own⟩ := next
  rw [List.flatMap_append, List.flatMap_singleton]
  refine ⟨rfl, spared.append still, fun inner member => ?_⟩
  rcases List.mem_append.mp member with early | new
  · have known : inner ∈ ids.flatMap opens := by
      rw [shape, List.flatMap_append]
      exact List.mem_append_left _ early
    refine (standing inner early).kept (still inner (among inner known) fun again => ?_)
    exact apart_of_nodup once shape again early
  · exact own inner new

theorem goes_each (grows : ∀ id, Grows (call id))
    (single : ∀ id ∈ ids, ∀ t, (∀ inner ∈ opens id, w.Stands t.scopes inner) →
      w.Goes (call id) t fun _ duties scopes => duties = asks id ∧
        w.Spared (closes id) t.scopes scopes)
    (apart : ∀ done id later, ids = done ++ id :: later →
      ∀ inner ∈ opens id, inner ∉ done.flatMap closes)
    (among : ∀ inner ∈ ids.flatMap opens, inner ∈ w.held)
    (standing : ∀ inner ∈ ids.flatMap opens, w.Stands ws.scopes inner) :
    w.Goes (ids.forM call) ws fun _ duties scopes => duties = ids.flatMap asks ∧
      w.Spared (ids.flatMap closes) ws.scopes scopes := by
  refine goes_forM grows (fun done scopes => w.Spared (done.flatMap closes) ws.scopes scopes)
    (.of_eq rfl) ?_
  intro done id later t shape spared
  have known : ∀ inner ∈ opens id, inner ∈ ids.flatMap opens := fun inner member =>
    List.mem_flatMap.mpr ⟨id, by simp [shape], member⟩
  have here : ∀ inner ∈ opens id, w.Stands t.scopes inner := fun inner member =>
    (standing inner (known inner member)).kept
      (spared inner (among inner (known inner member)) (apart done id later shape inner member))
  refine (single id (by simp [shape]) t here).weaken fun _ duties scopes next => ?_
  rw [List.flatMap_append, List.flatMap_singleton]
  exact ⟨next.1, spared.append next.2⟩

theorem goes_speaking (grows : ∀ id, Grows (call id))
    (single : ∀ id ∈ ids, ∀ t, (∀ inner ∈ opens id, w.Stands t.scopes inner) →
      w.Goes (call id) t fun _ duties scopes => duties = asks id ∧ w.Spared [] t.scopes scopes)
    (among : ∀ inner ∈ ids.flatMap opens, inner ∈ w.held)
    (standing : ∀ inner ∈ ids.flatMap opens, w.Stands ws.scopes inner) :
    w.Goes (ids.forM call) ws fun _ duties scopes => duties = ids.flatMap asks ∧
      w.Spared [] ws.scopes scopes := by
  have nothing : (ids.flatMap fun _ => ([] : List ActionId)) = [] := by simp
  have each : w.Goes (ids.forM call) ws fun _ duties scopes => duties = ids.flatMap asks ∧
      w.Spared (ids.flatMap fun _ => []) ws.scopes scopes :=
    goes_each grows single (by simp) among standing
  rwa [nothing] at each

theorem goes_endings (grows : ∀ id, Grows (call id))
    (single : ∀ id ∈ ids, ∀ t, (∀ inner ∈ opens id, w.Stands t.scopes inner) →
      w.Goes (call id) t fun _ duties scopes => duties = asks id ∧ w.Spared (opens id) t.scopes scopes)
    (once : (ids.flatMap opens).Nodup) (among : ∀ inner ∈ ids.flatMap opens, inner ∈ w.held)
    (standing : ∀ inner ∈ ids.flatMap opens, w.Stands ws.scopes inner) :
    w.Goes (ids.reverse.forM call) ws fun _ duties scopes => duties = ids.reverse.flatMap asks ∧
      w.Spared (ids.flatMap opens) ws.scopes scopes := by
  have same : (ids.reverse.flatMap opens).Perm (ids.flatMap opens) :=
    (List.reverse_perm ids).flatMap_right opens
  have each : w.Goes (ids.reverse.forM call) ws fun _ duties scopes =>
      duties = ids.reverse.flatMap asks ∧ w.Spared (ids.reverse.flatMap opens) ws.scopes scopes :=
    goes_each grows (fun id member => single id (List.mem_reverse.mp member))
      (fun done id later shape inner member =>
        apart_of_nodup (same.nodup_iff.mpr once) shape member)
      (fun inner member => among inner (same.mem_iff.mp member))
      (fun inner member => standing inner (same.mem_iff.mp member))
  refine each.weaken fun _ duties scopes ended => ⟨ended.1, fun id held other => ?_⟩
  exact ended.2 id held (mt same.mem_iff.mp other)

end Loops

theorem forM_site (ids : List ActionId) (callback : ActionId → Step (Logged σ) Unit) (site : Site) :
    (ids.forM callback) site = ids.forM fun id => callback id site := by
  induction ids with
  | nil => rfl
  | cons id ids ih =>
    change (callback id site >>= fun _ => (ids.forM callback) site) = _
    rw [ih]
    rfl

theorem grows_each (depth : Nat) (occasion : Occasion) (ids : List ActionId) :
    Grows ((ids.forM fun id => occasion.answer (w.actions depth id)) w.site) := by
  rw [forM_site]
  exact grows_forM ids fun id => grows_actions w depth id occasion w.site

section Leaves

theorem goes_leaf (leaf : w.nested id = none) (depth : Nat) (occasion : Occasion)
    (ws : Workspace (Logged σ)) :
    w.Goes (occasion.answer (w.actions (depth + 1) id) w.site) ws fun _ duties scopes =>
      duties = [⟨id, occasion, w.site⟩] ∧ w.Spared [] ws.scopes scopes := by
  have ran := Step.perform_recorded id occasion (occasion.answer (w.own id)) w.site ws
  rw [← Catalogue.answer_recorded, ← listed_of_leaf w.own leaf depth] at ran
  change (occasion.answer (w.actions (depth + 1) id) w.site).perform ws = _ at ran
  unfold Goes
  rw [ran]
  refine ⟨_, rfl, fun harmless => ?_⟩
  obtain ⟨well, spares⟩ := harmless _ List.mem_cons_self
  refine ⟨(), well (.inl leaf), ?_, spares leaf (Nat.le_refl _)⟩
  simp [heard, Callback.counts, leaf, level, Callback.duty]

theorem Goes.listed {step : Step (Logged σ) Unit} {post : Unit → List Duty → List Scope → Prop}
    (goes : w.Goes (step w.site) ws post) (nests : (w.nested id).isSome) {occasion : Occasion}
    (start : occasion ≠ .start) (finish : occasion ≠ .finish) :
    w.Goes (step.listed id occasion w.site) ws post := by
  obtain ⟨more, calls, ends⟩ := goes
  have ran := Step.perform_listed id occasion step w.site ws
  change (step.listed id occasion w.site).perform ws = _ at ran
  unfold Goes
  rw [ran]
  refine ⟨more ++ [⟨id, occasion, w.site, ws.plain, (Step.perform step w.site ws).1⟩], ?_, ?_⟩
  · rw [Workspace.calls_enter, ← List.append_assoc, ← calls]
    rfl
  · intro harmless
    obtain ⟨a, fine, holds⟩ := ends fun call member => harmless call (List.mem_append_left _ member)
    refine ⟨a, fine, ?_⟩
    rw [heard_append]
    have silent : w.heard [⟨id, occasion, w.site, ws.plain, (Step.perform step w.site ws).1⟩] = [] := by
      have named : w.nested id ≠ none := Option.isSome_iff_ne_none.mp nests
      simp [heard, Callback.counts, named, start, finish]
    rw [silent, List.append_nil]
    exact holds

theorem goes_lifecycle {occasion : Occasion} (once : occasion = .start ∨ occasion = .finish)
    (depth : Nat) (id : ActionId) (ws : Workspace (Logged σ)) :
    w.Goes (occasion.answer (w.actions (depth + 1) id) w.site) ws fun _ duties scopes =>
      duties = [⟨id, occasion, w.site⟩] ∧ w.Spared [] ws.scopes scopes := by
  cases nests : w.nested id with
  | none => exact goes_leaf nests depth occasion ws
  | some n =>
    have idle : occasion.answer (w.actions (depth + 1) id) =
        (pure () : Step (Logged σ) Unit).listed id occasion := by
      rw [actions, listed_of_nested w.own nests, Behaviour.answer_listed]
      rcases once with rfl | rfl <;> rfl
    have ran := Step.perform_listed id occasion (pure ()) w.site ws
    rw [← idle] at ran
    change (occasion.answer (w.actions (depth + 1) id) w.site).perform ws = _ at ran
    unfold Goes
    rw [ran]
    refine ⟨_, rfl, fun _ => ⟨(), rfl, ?_, .of_eq rfl⟩⟩
    rcases once with rfl | rfl <;> simp [heard, Callback.counts, level, Callback.duty]

theorem goes_rules {occasion : Occasion} (once : occasion = .start ∨ occasion = .finish)
    (depth : Nat) (ids : List ActionId) (ws : Workspace (Logged σ)) :
    w.Goes ((ids.forM fun id => occasion.answer (w.actions (depth + 1) id)) w.site) ws
      fun _ duties scopes => duties = ids.map (⟨·, occasion, w.site⟩) ∧ w.Spared [] ws.scopes scopes := by
  rw [forM_site, List.map_eq_flatMap]
  refine goes_forM (fun id => grows_actions w (depth + 1) id occasion w.site)
    (fun _ scopes => w.Spared [] ws.scopes scopes) (.of_eq rfl) ?_
  intro done id later t shape spared
  exact (goes_lifecycle once depth id t).weaken fun _ _ _ next => ⟨next.1, spared.trans next.2⟩

end Leaves

section Nested
variable {n : NestedRules} {table : RuleTable} {depth : Nat}

theorem Goes.begin {c : Catalogue (Logged σ)} {name : QName} {attrs : Attributes}
    {post : Unit → List Duty → List Scope → Prop}
    (entered : w.Goes (n.enter id c name attrs w.site) ws post) :
    w.Goes (n.begin id c name attrs w.site) ws post := by
  have ran : (n.begin id c name attrs w.site).perform ws = _ := n.perform_begin id c ws
  refine entered.of_ended ?_ fun value after run => ⟨value, ?_, fun _ holds => holds⟩
  · rw [ran]
    change _ = (Step.perform (n.enter id c name attrs) w.site ws).2.journal
    cases Step.perform (n.enter id c name attrs) w.site ws with
    | mk result after => cases result <;> rfl
  · rw [ran, show Step.perform (n.enter id c name attrs) w.site ws = (.ok value, after) from run]

theorem Goes.failure? {step : Step (Logged σ) Unit} {post : Unit → List Duty → List Scope → Prop}
    (goes : w.Goes (step w.site) ws post) :
    w.Goes (NestedRules.failure? step w.site) ws fun failed duties scopes =>
      failed = none ∧ post () duties scopes := by
  have ran : (NestedRules.failure? step w.site).perform ws = _ := perform_failure? step w.site ws
  refine goes.of_ended (by rw [ran]; rfl) fun value after run => ⟨none, ?_, fun _ holds => ⟨rfl, holds⟩⟩
  rw [ran, show Step.perform step w.site ws = (.ok value, after) from run]

theorem goes_closeOwnedScope (stands : w.Stands ws.scopes id)
    (mounted : mountedTable? w.nested w.mount id = some table) :
    w.Goes (closeOwnedScope (.nested id) w.site) ws fun scope duties scopes =>
      scope.rules.actions = table.actions ∧ duties = [] ∧ w.Spared [id] ws.scopes scopes := by
  obtain ⟨other, scope, same, found, rules, _⟩ := stands
  cases mounted.symm.trans same
  have ran : (closeOwnedScope (.nested id) w.site).perform ws = _ := perform_closeOwnedScope found
  unfold Goes
  rw [ran]
  refine ⟨[], by simp, fun _ => ⟨scope, rfl, rules, rfl, fun other _ differs => ?_⟩⟩
  refine .erased (.inl fun same => differs ?_)
  simpa using (Owner.nested.inj same).symm

variable {asks : ActionId → List Duty} {opens : ActionId → List ActionId}

theorem goes_enter (nests : w.nested id = some n) (found : n.table? w.attrs = some table)
    (depth : Nat) {name : QName}
    (single : ∀ inner ∈ table.matching w.site.trail.path, ∀ t,
      w.Goes ((w.actions (depth + 1) inner).onBegin name w.attrs w.site) t fun _ duties scopes =>
        duties = asks inner ∧ w.Spared (opens inner) t.scopes scopes ∧
          ∀ deep ∈ opens inner, w.Stands scopes deep)
    (once : (id :: (table.matching w.site.trail.path).flatMap opens).Nodup)
    (among : ∀ inner ∈ id :: (table.matching w.site.trail.path).flatMap opens, inner ∈ w.held)
    (ws : Workspace (Logged σ)) :
    w.Goes (n.enter id (w.actions (depth + 1)) name w.attrs w.site) ws fun _ duties scopes =>
      duties = table.actions.map (⟨·, .start, w.site⟩) ++
        (table.matching w.site.trail.path).flatMap asks ∧
      w.Spared (id :: (table.matching w.site.trail.path).flatMap opens) ws.scopes scopes ∧
      ∀ inner ∈ id :: (table.matching w.site.trail.path).flatMap opens, w.Stands scopes inner := by
  obtain ⟨other, further⟩ := List.nodup_cons.mp once
  obtain ⟨here, within⟩ := List.forall_mem_cons.mp among
  let scope := w.mount.scope id table (topmost w.site.rules ws.scopes)
  have opened : w.Spared [id] ws.scopes (scope :: ws.scopes) := fun inner _ differs => by
    refine .opened ?_
    simp only [List.mem_singleton] at differs
    simp [scope, ownedHere, Mount.scope, Ne.symm differs]
  have stands : w.Stands (scope :: ws.scopes) id :=
    ⟨table, scope, mountedTable?_of_table (m := w.mount) nests found,
      List.find?_cons_of_pos (w.mount.ownedHere_scope id table _), rfl, rfl⟩
  refine Goes.of_perform (t := { ws with scopes := scope :: ws.scopes }) ?_
    (perform_enter found id (w.actions (depth + 1)) ws) rfl
  refine Goes.bind (goes_rules (.inl rfl) depth table.actions _)
    (fun _ => grows_each (depth + 1) (.begin name w.attrs) _) ?_
  rintro _ _ t ⟨rfl, started⟩
  have begun := goes_begins (fun id => grows_actions w (depth + 1) id (.begin name w.attrs) w.site) single
    further within t
  rw [← forM_site] at begun
  refine begun.weaken ?_
  rintro _ _ scopes ⟨rfl, spared, standing⟩
  refine ⟨rfl, (opened.append started).append spared, fun inner member => ?_⟩
  rcases List.mem_cons.mp member with rfl | deeper
  · exact (stands.kept (started inner here (by simp))).kept (spared inner here other)
  · exact standing inner deeper

theorem goes_pass (found : mountedTable? w.nested w.mount id = some table) {occasion : Occasion}
    (depth : Nat)
    (single : ∀ inner ∈ table.matching w.site.trail.path, ∀ t,
      (∀ deep ∈ opens inner, w.Stands t.scopes deep) →
        w.Goes (occasion.answer (w.actions (depth + 1) inner) w.site) t fun _ duties scopes =>
          duties = asks inner ∧ w.Spared [] t.scopes scopes)
    (among : ∀ inner ∈ (table.matching w.site.trail.path).flatMap opens, inner ∈ w.held)
    (stands : w.Stands ws.scopes id)
    (standing : ∀ inner ∈ (table.matching w.site.trail.path).flatMap opens,
      w.Stands ws.scopes inner) :
    w.Goes ((do
        let ids ← mounted id
        ids.forM fun id => occasion.answer (w.actions (depth + 1) id) : Step (Logged σ) Unit) w.site) ws
      fun _ duties scopes => duties = (table.matching w.site.trail.path).flatMap asks ∧
        w.Spared [] ws.scopes scopes := by
  obtain ⟨_, scope, same, here, _, matched⟩ := stands
  cases found.symm.trans same
  refine Goes.of_perform (t := ws) ?_ (perform_next (perform_mounted here) _) rfl
  rw [matched, forM_site]
  exact goes_speaking (fun id => grows_actions w (depth + 1) id occasion w.site) single among standing

theorem beside_finishing (depth : Nat) (rules : List ActionId) (failed : Option ActionError) :
    Step.Moves w.Beside (do
      let unfinished ← NestedRules.failure? ((w.actions depth).finish rules)
      match failed.or unfinished with
      | some e => throw e
      | none => pure () : Step (Logged σ) Unit) := by
  have finished : Step.Moves w.Beside (rules.forM fun id => Occasion.finish.answer (w.actions depth id)) :=
    lasting_beside.forM (fun id occasion (_ : True) => beside_actions depth id occasion) trivial rules
  refine lasting_beside.bind (lasting_beside.failure? finished) fun unfinished => ?_
  cases failed.or unfinished with
  | some e => exact lasting_beside.reads (reads_throw e)
  | none => exact lasting_beside.reads (reads_pure ())

theorem goes_leave (found : mountedTable? w.nested w.mount id = some table) (depth : Nat) {name : QName}
    (single : ∀ inner ∈ table.matching w.site.trail.path, ∀ t,
      (∀ deep ∈ opens inner, w.Stands t.scopes deep) →
        w.Goes ((w.actions (depth + 1) inner).onEnd name w.site) t fun _ duties scopes =>
          duties = asks inner ∧ w.Spared (opens inner) t.scopes scopes)
    (once : (id :: (table.matching w.site.trail.path).flatMap opens).Nodup)
    (among : ∀ inner ∈ id :: (table.matching w.site.trail.path).flatMap opens, inner ∈ w.held)
    (standing : ∀ inner ∈ id :: (table.matching w.site.trail.path).flatMap opens,
      w.Stands ws.scopes inner) :
    w.Goes (leave id (w.actions (depth + 1)) name w.site) ws fun _ duties scopes =>
      duties = (table.matching w.site.trail.path).reverse.flatMap asks ++
        table.actions.map (⟨·, .finish, w.site⟩) ∧
      w.Spared (id :: (table.matching w.site.trail.path).flatMap opens) ws.scopes scopes := by
  obtain ⟨other, further⟩ := List.nodup_cons.mp once
  obtain ⟨own, within⟩ := List.forall_mem_cons.mp among
  obtain ⟨stands, mounted⟩ := List.forall_mem_cons.mp standing
  have known := stands
  obtain ⟨_, scope, same, here, _, matched⟩ := known
  cases found.symm.trans same
  refine Goes.of_perform (t := ws) ?_ (perform_next (perform_mounted here) _) rfl
  rw [matched]
  have ended := goes_endings (fun id => grows_actions w (depth + 1) id (.ending name) w.site) single
    further within mounted
  rw [← forM_site] at ended
  refine Goes.bind ended.failure? (fun failed => ?_) ?_
  · exact grows_of_beside (lasting_beside.bind (lasting_beside.closes _) fun scope =>
      beside_finishing (depth + 1) scope.rules.actions failed) w.site
  rintro _ _ t ⟨rfl, rfl, spared⟩
  have still := stands.kept (spared id own other)
  refine Goes.bind (goes_closeOwnedScope still found) (fun scope => ?_) ?_
  · exact grows_of_beside (beside_finishing (depth + 1) scope.rules.actions none) w.site
  rintro closed _ u ⟨rules, rfl, taken⟩
  dsimp only
  rw [rules]
  refine Goes.bind (goes_rules (.inr rfl) depth table.actions u).failure? (fun unfinished => ?_) ?_
  · cases unfinished <;> exact fun ws => ⟨[], (List.append_nil _).symm⟩
  rintro _ _ v ⟨rfl, rfl, finished⟩
  refine goes_pure ⟨by simp, ?_⟩
  have all := (spared.append taken).append finished
  intro inner held differs
  exact all inner held (by simpa [and_comm, not_or] using differs)

end Nested

-- One induction over the levels of nesting for each occasion.
section Levels
variable {name : QName}

theorem nesters_of_nested {n : NestedRules} {table : RuleTable} (nests : w.nested id = some n)
    (found : n.table? w.attrs = some table) (depth : Nat) : w.nesters (depth + 1) id =
      id :: (table.matching w.site.trail.path).flatMap (w.nesters depth) :=
  nesters_of_table nests found depth

theorem goes_begin (depth : Nat) (id : ActionId) (fits : Fits w.nested w.mount depth id)
    (once : (w.nesters depth id).Nodup) (among : ∀ inner ∈ w.nesters depth id, inner ∈ w.held)
    (ws : Workspace (Logged σ)) :
    w.Goes ((w.actions (depth + 1) id).onBegin name w.attrs w.site) ws fun _ duties scopes =>
      duties = w.asked (.begin name w.attrs) depth id ∧ w.Spared (w.nesters depth id) ws.scopes scopes ∧
        ∀ inner ∈ w.nesters depth id, w.Stands scopes inner := by
  induction depth generalizing id ws with
  | zero => cases fits
  | succ depth ih =>
    cases nests : w.nested id with
    | none =>
      refine (goes_leaf nests (depth + 1) (.begin name w.attrs) ws).weaken fun _ _ _ told => ?_
      rw [nesters, nesters_of_leaf nests, asked, asked_of_leaf nests]
      exact ⟨told.1, told.2, by simp⟩
    | some n =>
      obtain ⟨table, found, inside⟩ := fits n nests
      rw [nesters_of_nested nests found] at once among ⊢
      rw [asked, asked_begin (mountedTable?_of_table nests found), actions,
        listed_of_nested w.own nests]
      obtain ⟨_, single⟩ := List.nodup_cons.mp once
      obtain ⟨_, within⟩ := List.forall_mem_cons.mp among
      have each : ∀ inner ∈ table.matching w.site.trail.path, ∀ t,
          w.Goes ((w.actions (depth + 1) inner).onBegin name w.attrs w.site) t fun _ duties scopes =>
            duties = w.asked (.begin name w.attrs) depth inner ∧
              w.Spared (w.nesters depth inner) t.scopes scopes ∧
                ∀ deep ∈ w.nesters depth inner, w.Stands scopes deep := fun inner member t =>
        ih inner (inside inner member) (nodup_of_flatMap single member)
          (List.forall_mem_flatMap.mp within inner member) t
      exact (goes_enter nests found depth each once among ws).begin.listed (by simp [nests]) (by simp)
        (by simp)

theorem goes_spoken {occasion : Occasion} (spoken : occasion.spoken) (depth : Nat) (id : ActionId)
    (fits : Fits w.nested w.mount depth id) (among : ∀ inner ∈ w.nesters depth id, inner ∈ w.held)
    (ws : Workspace (Logged σ)) (standing : ∀ inner ∈ w.nesters depth id, w.Stands ws.scopes inner) :
    w.Goes (occasion.answer (w.actions (depth + 1) id) w.site) ws fun _ duties scopes =>
      duties = w.asked occasion depth id ∧ w.Spared [] ws.scopes scopes := by
  induction depth generalizing id ws with
  | zero => cases fits
  | succ depth ih =>
    cases nests : w.nested id with
    | none =>
      rw [asked, asked_of_leaf nests]
      exact goes_leaf nests (depth + 1) occasion ws
    | some n =>
      obtain ⟨table, found, inside⟩ := fits n nests
      rw [nesters_of_nested nests found] at among standing
      rw [asked, asked_spoken (mountedTable?_of_table nests found) spoken, actions,
        listed_of_nested w.own nests, Behaviour.answer_listed]
      have passes : occasion.answer (n.behaviour id (w.actions (depth + 1))) = (do
          let ids ← mounted id
          ids.forM fun id => occasion.answer (w.actions (depth + 1) id)) := by
        cases occasion with
        | segment | body => rfl
        | start | begin | ending | finish => cases spoken
      obtain ⟨_, within⟩ := List.forall_mem_cons.mp among
      obtain ⟨own, mounted⟩ := List.forall_mem_cons.mp standing
      have passed := goes_pass (mountedTable?_of_table nests found) depth
        (fun inner member t => ih inner (inside inner member)
          (List.forall_mem_flatMap.mp within inner member) t) within own mounted
      rw [← passes] at passed
      exact passed.listed (by simp [nests]) (by rintro rfl; cases spoken) (by rintro rfl; cases spoken)

theorem goes_ending (depth : Nat) (id : ActionId) (fits : Fits w.nested w.mount depth id)
    (once : (w.nesters depth id).Nodup) (among : ∀ inner ∈ w.nesters depth id, inner ∈ w.held)
    (ws : Workspace (Logged σ)) (standing : ∀ inner ∈ w.nesters depth id, w.Stands ws.scopes inner) :
    w.Goes ((w.actions (depth + 1) id).onEnd name w.site) ws fun _ duties scopes =>
      duties = w.asked (.ending name) depth id ∧ w.Spared (w.nesters depth id) ws.scopes scopes := by
  induction depth generalizing id ws with
  | zero => cases fits
  | succ depth ih =>
    cases nests : w.nested id with
    | none =>
      rw [nesters, nesters_of_leaf nests, asked, asked_of_leaf nests]
      exact goes_leaf nests (depth + 1) (.ending name) ws
    | some n =>
      obtain ⟨table, found, inside⟩ := fits n nests
      rw [nesters_of_nested nests found] at once among standing ⊢
      rw [asked, asked_ending (mountedTable?_of_table nests found), actions,
        listed_of_nested w.own nests]
      obtain ⟨_, single⟩ := List.nodup_cons.mp once
      obtain ⟨_, within⟩ := List.forall_mem_cons.mp among
      have each : ∀ inner ∈ table.matching w.site.trail.path, ∀ t,
          (∀ deep ∈ w.nesters depth inner, w.Stands t.scopes deep) →
            w.Goes ((w.actions (depth + 1) inner).onEnd name w.site) t fun _ duties scopes =>
              duties = w.asked (.ending name) depth inner ∧
                w.Spared (w.nesters depth inner) t.scopes scopes := fun inner member t =>
        ih inner (inside inner member) (nodup_of_flatMap single member)
          (List.forall_mem_flatMap.mp within inner member) t
      exact (goes_leave (mountedTable?_of_table nests found) depth each once among standing).listed
        (by simp [nests]) (by simp) (by simp)

end Levels
end Watch
end XmlRules
