import Mathlib.Data.List.Forall2
import Mathlib.Logic.Relation
import XmlRules.Proofs.MountedSets
namespace XmlRules

namespace Catalogue
variable {σ : Type}

-- The catalogue in which actions run one another, so many levels deep, above another one.
def tieFrom (bottom : Catalogue σ) (definitions : ActionId → Definition σ) : Nat → Catalogue σ
  | 0 => bottom
  | depth + 1 => fun id => definitions id (tieFrom bottom definitions depth)

theorem tieFrom_exhausted (definitions : ActionId → Definition σ) (depth : Nat) :
    tieFrom (fun _ => .exhausted) definitions depth = tie definitions depth := by
  induction depth with
  | zero => rfl
  | succ depth ih => simp only [tieFrom, tie, ih]

theorem tieFrom_add (bottom : Catalogue σ) (definitions : ActionId → Definition σ)
    (depth more : Nat) : tieFrom (tieFrom bottom definitions more) definitions depth =
      tieFrom bottom definitions (depth + more) := by
  induction depth with
  | zero => rw [Nat.zero_add, tieFrom]
  | succ depth ih => rw [Nat.succ_add, tieFrom, tieFrom, ih]

end Catalogue

-- Actions of which some nest rules, each with a choice of sets, and no others run actions.
structure Family {σ κ : Type} (sets : κ → RuleSet σ) (nested : ActionId → Option (RuleChoice κ))
    (definitions : ActionId → Definition σ) : Prop where
  nests : ∀ id n, nested id = some n → definitions id = n.behaviour sets id
  plain : ∀ id, nested id = none → ∀ c d, definitions id c = definitions id d

section Mounting
variable {σ κ : Type} (sets : κ → RuleSet σ) (nested : ActionId → Option (RuleChoice κ)) (m : Mount)

def picked? (id : ActionId) : Option κ := (nested id).bind fun n => (n.select m.attrs).toOption

-- As it may turn out when it is asked, the outer set matches an action on the element that picks the
-- inner one.
def MayMount (outer inner : κ) : Prop :=
  ∃ active journal table, (sets outer).table? active journal = some table ∧
    ∃ id ∈ table.matching m.path, picked? nested m id = some inner

-- It does so however it turns out.
def MustMount (outer inner : κ) : Prop :=
  ∀ active journal table, (sets outer).table? active journal = some table →
    ∃ id ∈ table.matching m.path, picked? nested m id = some inner

-- The actions that begin on the element when one does, in their order and as far as so many levels.
def Begun : Nat → ActionId → List ActionId → Prop
  | 0, _, calls => calls = []
  | depth + 1, id, calls =>
    (picked? nested m id = none ∧ calls = [id]) ∨
      ∃ set active journal, picked? nested m id = some set ∧
        match (sets set).table? active journal with
        | none => calls = [id]
        | some table => ∃ parts, List.Forall₂ (Begun depth) (table.matching m.path) parts ∧
            calls = id :: parts.flatten

end Mounting

section Depths
variable {κ : Type} (mounts : κ → κ → Prop)
open Relation

-- No set that comes to be opened is opened within itself.
def Untangled (set : κ) : Prop :=
  ∀ outer, ReflTransGen mounts set outer → ¬ TransGen mounts outer outer

def Shallow : Nat → κ → Prop
  | 0, _ => False
  | depth + 1, set => ∀ inner, mounts set inner → Shallow depth inner

variable {mounts} {set : κ}

theorem Untangled.inner {inner : κ} (untangled : Untangled mounts set) (mounted : mounts set inner) :
    Untangled mounts inner :=
  fun outer reached => untangled outer (.head mounted reached)

-- Every level is another set.
theorem Untangled.shallow {all : List κ} (untangled : Untangled mounts set)
    (among : ∀ outer, ReflTransGen mounts set outer → outer ∈ all) :
    Shallow mounts all.length set := by
  classical
  induction size : all.length generalizing all set with
  | zero =>
    have known := among set .refl
    rw [List.length_eq_zero_iff.mp size] at known
    cases known
  | succ size ih =>
    intro inner mounted
    have others : ∀ outer, ReflTransGen mounts inner outer → outer ∈ all.erase set := by
      intro outer reached
      have other : outer ≠ set := by
        rintro rfl
        exact untangled outer .refl (.head' mounted reached)
      exact (List.mem_erase_of_ne other).mpr (among outer (.head mounted reached))
    refine ih (untangled.inner mounted) others ?_
    rw [List.length_erase_of_mem (among set .refl), size]
    rfl

theorem Shallow.mono {depth : Nat} (shallow : Shallow mounts depth set) :
    Shallow mounts (depth + 1) set := by
  induction depth generalizing set with
  | zero => cases shallow
  | succ depth ih => exact fun inner mounted => ih (shallow inner mounted)

theorem Shallow.of_reached {depth : Nat} {inner : κ} (shallow : Shallow mounts depth set)
    (reached : ReflTransGen mounts set inner) : Shallow mounts depth inner := by
  induction reached with
  | refl => exact shallow
  | tail _ mounted ih =>
    cases depth with
    | zero => cases ih
    | succ depth => exact (ih _ mounted).mono

theorem Shallow.untangled {depth : Nat} (shallow : Shallow mounts depth set) :
    Untangled mounts set := by
  intro outer reached cycle
  have room := shallow.of_reached reached
  clear shallow reached
  induction depth with
  | zero => cases room
  | succ depth ih =>
    obtain ⟨inner, mounted, back⟩ := TransGen.head'_iff.mp cycle
    exact ih ((room inner mounted).of_reached back)

end Depths

section Beginning
variable {σ κ : Type} {sets : κ → RuleSet σ} {nested : ActionId → Option (RuleChoice κ)} {m : Mount}
  {id : ActionId}

theorem MayMount.of_matched {outer inner : κ} {active : Registry} {journal : σ} {table : RuleTable}
    (found : (sets outer).table? active journal = some table) (member : id ∈ table.matching m.path)
    (picked : picked? nested m id = some inner) : MayMount sets nested m outer inner :=
  ⟨active, journal, table, found, id, member, picked⟩

theorem exists_parts {due : ActionId → List ActionId → Prop} (some : ∀ id, ∃ calls, due id calls)
    (ids : List ActionId) :
    ∃ calls, ∃ parts, List.Forall₂ due ids parts ∧ calls = parts.flatten := by
  choose begun all using some
  exact ⟨_, ids.map begun,
    List.forall₂_map_right_iff.mpr (List.forall₂_same.mpr fun id _ => all id), rfl⟩

theorem exists_begun (sets : κ → RuleSet σ) (nested : ActionId → Option (RuleChoice κ)) (m : Mount)
    (active : Registry) (journal : σ) (depth : Nat) (id : ActionId) :
    ∃ calls, Begun sets nested m depth id calls := by
  induction depth generalizing id with
  | zero => exact ⟨[], rfl⟩
  | succ depth ih =>
    cases picked : picked? nested m id with
    | none => exact ⟨[id], .inl ⟨picked, rfl⟩⟩
    | some set =>
      cases found : (sets set).table? active journal with
      | none => exact ⟨[id], .inr ⟨set, active, journal, picked, by rw [found]⟩⟩
      | some table =>
        obtain ⟨_, parts, each, rfl⟩ := exists_parts ih (table.matching m.path)
        refine ⟨id :: parts.flatten, .inr ⟨set, active, journal, picked, ?_⟩⟩
        rw [found]
        exact ⟨parts, each, rfl⟩

theorem Begun.head {depth : Nat} {calls : List ActionId}
    (begun : Begun sets nested m (depth + 1) id calls) : ∃ rest, calls = id :: rest := by
  obtain ⟨-, rfl⟩ | ⟨set, active, journal, -, begun⟩ := begun
  · exact ⟨[], rfl⟩
  · split at begun
    · exact ⟨[], begun⟩
    · obtain ⟨parts, -, rfl⟩ := begun
      exact ⟨parts.flatten, rfl⟩

theorem Begun.of_shallow {depth : Nat} (more : Nat) {calls : List ActionId}
    (shallow : ∀ set, picked? nested m id = some set → Shallow (MayMount sets nested m) depth set)
    (begun : Begun sets nested m (depth + more + 1) id calls) :
    Begun sets nested m (depth + 1) id calls := by
  induction depth generalizing id calls with
  | zero =>
    obtain alone | ⟨set, active, journal, picked, -⟩ := begun
    · exact .inl alone
    · cases shallow set picked
  | succ depth ih =>
    obtain alone | ⟨set, active, journal, picked, rest⟩ := begun
    · exact .inl alone
    · refine .inr ⟨set, active, journal, picked, ?_⟩
      cases found : (sets set).table? active journal with
      | none =>
        rw [found] at rest
        exact rest
      | some table =>
        rw [found] at rest
        obtain ⟨parts, each, rfl⟩ := rest
        refine ⟨parts, ?_, rfl⟩
        have inside := (List.forall₂_and_left _ _).mpr ⟨fun inner member => member, each⟩
        refine inside.imp fun inner part both => ih (fun next chosen => ?_) ?_
        · exact shallow set picked next (.of_matched found both.1 chosen)
        · rw [Nat.succ_add] at both
          exact both.2

end Beginning

namespace RuleChoice
open Step NestedRules
variable {σ κ : Type} {sets : κ → RuleSet σ} {n : RuleChoice κ} {site : Site} {name : QName}
  {attrs : Attributes} {c d : Catalogue σ}

theorem enter_eq (start : ∀ set, n.select attrs = .ok set → c.start = d.start)
    (inner : ∀ set active journal table, n.select attrs = .ok set →
      (sets set).table? active journal = some table → ∀ id ∈ table.matching site.trail.path,
        (c id).onBegin name attrs site = (d id).onBegin name attrs site) (self : ActionId) :
    n.enter sets self c name attrs site = n.enter sets self d name attrs site := by
  funext ws
  change Step.perform (n.enter sets self c name attrs) site ws =
    Step.perform (n.enter sets self d name attrs) site ws
  rw [perform_enter, perform_enter]
  cases made : n.outcome sets attrs (topmost site.rules ws.scopes) ws.journal with
  | mk answer journal =>
    cases answer with
    | error e => rfl
    | ok table =>
      obtain ⟨set, picked, found⟩ := outcome_eq_ok (congrArg Prod.fst made)
      have each : ∀ ids : List ActionId, (∀ id ∈ ids, id ∈ table.matching site.trail.path) →
          (ids.forM fun id => (c id).onBegin name attrs) site =
            (ids.forM fun id => (d id).onBegin name attrs) site := by
        intro ids
        induction ids with
        | nil => exact fun _ => rfl
        | cons id ids ih =>
          intro among
          have first := inner set _ _ table picked found id (among id List.mem_cons_self)
          have rest := ih fun other member => among other (List.mem_cons_of_mem _ member)
          change ((c id).onBegin name attrs site >>= fun _ => _) = (_ >>= fun _ => _)
          rw [first]
          exact congrArg (_ >>= fun _ => ·) rest
      dsimp only
      rw [mount, mount, start set picked]
      exact congrArg (fun rest => Attempt.perform (d.start table.actions site >>= fun _ => rest) _)
        (each _ fun _ member => member)

theorem begin_eq {self : ActionId}
    (entered : n.enter sets self c name attrs site = n.enter sets self d name attrs site) :
    n.begin sets self c name attrs site = n.begin sets self d name attrs site := by
  funext ws
  have same : Step.perform (n.enter sets self c name attrs) site ws =
      Step.perform (n.enter sets self d name attrs) site ws := congrArg (Attempt.perform · ws) entered
  have withdrawn : Step.perform (n.begin sets self c name attrs) site ws = _ :=
    n.perform_begin self c ws
  rw [same, ← n.perform_begin self d ws] at withdrawn
  exact withdrawn

theorem ok_of_begin {self : ActionId} {ws after : Workspace σ}
    (ran : Step.perform (n.begin sets self c name attrs) site ws = (.ok (), after)) :
    ∃ set active journal table before, n.select attrs = .ok set ∧
      (sets set).table? active journal = some table ∧
      mount self table c name attrs site before = (.ok (), after) := by
  rw [perform_begin] at ran
  cases entered : Step.perform (n.enter sets self c name attrs) site ws with
  | mk result middle =>
    rw [entered] at ran
    cases result with
    | error e => cases ran
    | ok value =>
      cases ran
      rw [perform_enter] at entered
      cases made : n.outcome sets attrs (topmost site.rules ws.scopes) ws.journal with
      | mk answer journal =>
        rw [made] at entered
        cases answer with
        | error e => cases entered
        | ok table =>
          obtain ⟨set, picked, found⟩ := outcome_eq_ok (congrArg Prod.fst made)
          exact ⟨set, _, _, table, _, picked, found, entered⟩

end RuleChoice

namespace Step
variable {σ α β : Type} {log : σ → List ActionId} {site : Site} {due later : List ActionId → Prop}

-- A step that adds one of certain lists to a log in the journal, or a first part of one when it fails.
def Adds (log : σ → List ActionId) (step : Step σ α) (site : Site) (due : List ActionId → Prop) :
    Prop :=
  ∀ ws result after, step.perform site ws = (result, after) → ∃ calls,
    (∃ whole, due whole ∧ calls <+: whole) ∧ log after.journal = log ws.journal ++ calls ∧
      ((∃ a, result = .ok a) → due calls)

theorem Adds.weaken {step : Step σ α} (adds : Adds log step site due)
    (wider : ∀ calls, due calls → later calls) : Adds log step site later := by
  intro ws result after ran
  obtain ⟨calls, ⟨whole, given, part⟩, told, all⟩ := adds ws result after ran
  exact ⟨calls, ⟨whole, wider whole given, part⟩, told, fun ok => wider calls (all ok)⟩

theorem Adds.bind {step : Step σ α} {next : α → Step σ β} (first : Adds log step site due)
    (second : ∀ a, Adds log (next a) site later) (some : ∃ calls, later calls) :
    Adds log (step >>= next) site
      (fun calls => ∃ mine others, due mine ∧ later others ∧ calls = mine ++ others) := by
  intro ws result after ran
  change Attempt.perform (step site >>= fun a => next a site) ws = (result, after) at ran
  rw [Attempt.perform_bind] at ran
  cases made : (step site).perform ws with
  | mk answer middle =>
    rw [made] at ran
    obtain ⟨calls, ⟨whole, given, part⟩, told, all⟩ := first ws answer middle made
    cases answer with
    | error e =>
      cases ran
      obtain ⟨others, further⟩ := some
      exact ⟨calls, ⟨whole ++ others, ⟨whole, others, given, further, rfl⟩,
        part.trans (List.prefix_append whole others)⟩, told, nofun⟩
    | ok a =>
      have mine := all ⟨a, rfl⟩
      obtain ⟨more, ⟨others, further, rest⟩, added, ends⟩ := second a middle result after ran
      refine ⟨calls ++ more, ⟨calls ++ others, ⟨calls, others, mine, further, rfl⟩,
        (List.prefix_append_right_inj calls).mpr rest⟩, ?_, fun ok => ⟨calls, more, mine, ends ok, rfl⟩⟩
      rw [added, told, List.append_assoc]

theorem adds_pure (a : α) : Adds log (pure a : Step σ α) site (· = []) := by
  intro ws result after ran
  cases ran
  exact ⟨[], ⟨[], rfl, List.prefix_rfl⟩, (List.append_nil _).symm, fun _ => rfl⟩

theorem adds_throw (e : ActionError) (some : ∃ calls, due calls) :
    Adds log (throw e : Step σ α) site due := by
  intro ws result after ran
  cases ran
  obtain ⟨whole, given⟩ := some
  exact ⟨[], ⟨whole, given, List.nil_prefix⟩, (List.append_nil _).symm, nofun⟩

theorem adds_forM (due : ActionId → List ActionId → Prop) (ids : List ActionId)
    {callback : ActionId → Step σ Unit} (some : ∀ id, ∃ calls, due id calls)
    (each : ∀ id ∈ ids, Adds log (callback id) site (due id)) :
    Adds log (ids.forM callback) site
      (fun calls => ∃ parts, List.Forall₂ due ids parts ∧ calls = parts.flatten) := by
  induction ids with
  | nil => exact (adds_pure ()).weaken fun _ none => ⟨[], .nil, none⟩
  | cons id ids ih =>
    have rest := ih fun other member => each other (List.mem_cons_of_mem _ member)
    refine ((each id List.mem_cons_self).bind (fun _ => rest) (exists_parts some ids)).weaken ?_
    rintro _ ⟨mine, _, given, ⟨parts, further, rfl⟩, rfl⟩
    exact ⟨mine :: parts, .cons given further, rfl⟩

theorem ok_of_forM {ids : List ActionId} {callback : ActionId → Step σ Unit} {ws after : Workspace σ}
    (ran : Step.perform (ids.forM callback) site ws = (.ok (), after)) :
    ∀ id ∈ ids, ∃ before behind, Step.perform (callback id) site before = (.ok (), behind) := by
  induction ids generalizing ws with
  | nil => nofun
  | cons id ids ih =>
    obtain ⟨_, middle, here, rest⟩ := Attempt.ok_of_bind ran
    intro other member
    obtain rfl | later := List.mem_cons.mp member
    · exact ⟨ws, middle, here⟩
    · exact ih rest other later

end Step

theorem StockAction.family {σ : Type} (actions : ActionId → StockAction) :
    Family .written (fun id => (actions id).nested?)
      (fun id => (actions id).definition id : ActionId → Definition σ) := by
  refine ⟨fun id n nests => ?_, fun id leaf c d => ?_⟩
  · rw [StockAction.nested_of_nested? nests]
    rfl
  · cases kind : actions id with
    | nested n =>
      rw [kind] at leaf
      cases leaf
    | create | link | call | param => rfl

namespace Family
open Step NestedRules
variable {σ κ : Type} {sets : κ → RuleSet σ} {nested : ActionId → Option (RuleChoice κ)}
  {definitions : ActionId → Definition σ} {site : Site} {name : QName} {attrs : Attributes}
  {id : ActionId}

theorem picked?_of_select {n : RuleChoice κ} {set : κ} {m : Mount} (nests : nested id = some n)
    (chosen : n.select m.attrs = .ok set) : picked? nested m id = some set := by
  rw [picked?, nests, Option.bind_some, chosen]
  rfl

theorem select_of_picked? {set : κ} {m : Mount} (picked : picked? nested m id = some set) :
    ∃ n, nested id = some n ∧ n.select m.attrs = .ok set := by
  obtain ⟨n, nests, chosen⟩ := Option.bind_eq_some_iff.mp picked
  refine ⟨n, nests, ?_⟩
  cases select : n.select m.attrs with
  | error e =>
    rw [select] at chosen
    cases chosen
  | ok other =>
    rw [select] at chosen
    cases chosen
    rfl

variable (family : Family sets nested definitions)
include family

theorem start_eq (bottom other : Catalogue σ) (depth : Nat) :
    (Catalogue.tieFrom bottom definitions (depth + 1)).start =
      (Catalogue.tieFrom other definitions (depth + 1)).start := by
  have each : ∀ id, (definitions id (Catalogue.tieFrom bottom definitions depth)).onStart =
      (definitions id (Catalogue.tieFrom other definitions depth)).onStart := by
    intro id
    cases nests : nested id with
    | none => rw [family.plain id nests]
    | some n =>
      rw [family.nests id n nests]
      rfl
  funext ids
  exact congrArg ids.forM (funext each)

theorem begin_eq (bottom other : Catalogue σ) {depth : Nat}
    (shallow : ∀ set, picked? nested (site.mount attrs) id = some set →
      Shallow (MayMount sets nested (site.mount attrs)) depth set) :
    (Catalogue.tieFrom bottom definitions (depth + 1) id).onBegin name attrs site =
      (Catalogue.tieFrom other definitions (depth + 1) id).onBegin name attrs site := by
  induction depth generalizing id with
  | zero =>
    change (definitions id _).onBegin name attrs site = (definitions id _).onBegin name attrs site
    cases nests : nested id with
    | none => rw [family.plain id nests]
    | some n =>
      rw [family.nests id n nests]
      have none : ∀ set, n.select attrs ≠ .ok set :=
        fun set chosen => shallow set (picked?_of_select nests chosen)
      exact RuleChoice.begin_eq (RuleChoice.enter_eq (fun set chosen => absurd chosen (none set))
        (fun set _ _ _ chosen => absurd chosen (none set)) id)
  | succ depth ih =>
    change (definitions id _).onBegin name attrs site = (definitions id _).onBegin name attrs site
    cases nests : nested id with
    | none => rw [family.plain id nests]
    | some n =>
      rw [family.nests id n nests]
      refine RuleChoice.begin_eq (RuleChoice.enter_eq
        (fun _ _ => family.start_eq bottom other depth) ?_ id)
      intro set active journal table chosen found inner member
      exact ih fun next picked => shallow set (picked?_of_select nests chosen) next
        (.of_matched found member picked)

theorem shallow_of_ok {depth : Nat} {ws after : Workspace σ} {set : κ}
    (ran : Step.perform ((Catalogue.tie definitions depth id).onBegin name attrs) site ws =
      (.ok (), after))
    (picked : picked? nested (site.mount attrs) id = some set) :
    Shallow (MustMount sets nested (site.mount attrs)) depth set := by
  induction depth generalizing id ws after set with
  | zero => cases ran
  | succ depth ih =>
    obtain ⟨n, nests, chosen⟩ := select_of_picked? picked
    change Step.perform ((definitions id _).onBegin name attrs) site ws = _ at ran
    rw [family.nests id n nests] at ran
    obtain ⟨same, active, journal, table, before, again, found, mounted⟩ := RuleChoice.ok_of_begin ran
    cases chosen.symm.trans again
    intro inner must
    obtain ⟨next, member, picks⟩ := must active journal table found
    obtain ⟨_, _, _, rest⟩ := Attempt.ok_of_bind mounted
    obtain ⟨_, _, here⟩ := ok_of_forM rest next member
    exact ih here picks

omit family

def noting (tell : ActionId → σ → σ) (definitions : ActionId → Definition σ) :
    ActionId → Definition σ :=
  fun id c => { definitions id c with
    onBegin := fun name attrs => do
      note (tell id)
      (definitions id c).onBegin name attrs }

variable {log : σ → List ActionId} {tell : ActionId → σ → σ}

-- A log that these notes are written in and that no other action touches, nor a set that is asked.
structure Keeps (sets : κ → RuleSet σ) (nested : ActionId → Option (RuleChoice κ))
    (definitions : ActionId → Definition σ) (site : Site) (name : QName) (attrs : Attributes)
    (log : σ → List ActionId) (tell : ActionId → σ → σ) : Prop where
  told : ∀ id journal, log (tell id journal) = log journal ++ [id]
  asked : ∀ set active journal, log (sets set active journal).2 = log journal
  onStart : ∀ id, nested id = none → ∀ c, Adds log (definitions id c).onStart site (· = [])
  onBegin : ∀ id, nested id = none → ∀ c,
    Adds log ((definitions id c).onBegin name attrs) site (· = [])

theorem Keeps.outcome (keeps : Keeps sets nested definitions site name attrs log tell)
    (n : RuleChoice κ) (active : Registry) (journal : σ) :
    log (n.outcome sets attrs active journal).2 = log journal := by
  unfold RuleChoice.outcome
  split
  · rfl
  · exact keeps.asked _ active journal

theorem adds_begin {n : RuleChoice κ} {c : Catalogue σ} {due : List ActionId → Prop}
    (entered : Adds log (n.enter sets id c name attrs) site due) :
    Adds log (n.begin sets id c name attrs) site due := by
  intro ws result after ran
  rw [RuleChoice.perform_begin] at ran
  cases made : Step.perform (n.enter sets id c name attrs) site ws with
  | mk answer middle =>
    rw [made] at ran
    obtain ⟨calls, part, told, whole⟩ := entered ws answer middle made
    cases answer with
    | ok value =>
      cases ran
      exact ⟨calls, part, told, whole⟩
    | error e =>
      cases ran
      exact ⟨calls, part, told, nofun⟩

include family

theorem adds_start (keeps : Keeps sets nested definitions site name attrs log tell) (depth : Nat)
    (ids : List ActionId) :
    Adds log ((Catalogue.tie (noting tell definitions) depth).start ids) site (· = []) := by
  have each : ∀ id,
      Adds log (Catalogue.tie (noting tell definitions) depth id).onStart site (· = []) := by
    intro id
    cases depth with
    | zero => exact adds_throw .tooDeep ⟨[], rfl⟩
    | succ depth =>
      cases nests : nested id with
      | none => exact keeps.onStart id nests _
      | some n =>
        change Adds log (definitions id _).onStart site (· = [])
        rw [family.nests id n nests]
        exact adds_pure ()
  refine (adds_forM (fun _ calls => calls = []) ids (fun _ => ⟨[], rfl⟩)
    fun id _ => each id).weaken ?_
  rintro _ ⟨parts, none, rfl⟩
  induction none with
  | nil => rfl
  | cons first _ ih => rw [List.flatten_cons, first, ih, List.nil_append]

theorem adds_enter (keeps : Keeps sets nested definitions site name attrs log tell) {depth : Nat}
    (single : ∀ inner, Adds log
      ((Catalogue.tie (noting tell definitions) depth inner).onBegin name attrs) site
        (Begun sets nested (site.mount attrs) depth inner))
    {n : RuleChoice κ} (nests : nested id = some n) :
    Adds log (n.enter sets id (Catalogue.tie (noting tell definitions) depth) name attrs) site
      fun calls => Begun sets nested (site.mount attrs) (depth + 1) id (id :: calls) := by
  intro ws result after ran
  let active := topmost site.rules ws.scopes
  have exist := exists_begun sets nested (site.mount attrs) active ws.journal
  have kept := keeps.outcome n active ws.journal
  rw [RuleChoice.perform_enter] at ran
  cases made : n.outcome sets attrs active ws.journal with
  | mk answer journal =>
    rw [made] at ran kept
    cases answer with
    | error e =>
      cases ran
      obtain ⟨calls, first⟩ := exist (depth + 1) id
      obtain ⟨rest, rfl⟩ := first.head
      exact ⟨[], ⟨rest, first, List.nil_prefix⟩, by simpa using kept, nofun⟩
    | ok table =>
      obtain ⟨set, chosen, found⟩ := RuleChoice.outcome_eq_ok (congrArg Prod.fst made)
      have each := adds_forM _ (table.matching site.trail.path) (exist depth) fun inner _ => single inner
      have both := (family.adds_start keeps depth table.actions).bind (fun _ => each)
        (exists_parts (exist depth) _)
      obtain ⟨calls, ⟨whole, given, part⟩, told, all⟩ := both _ result after ran
      have turned : ∀ calls, (∃ mine others, mine = [] ∧ (∃ parts, List.Forall₂
          (Begun sets nested (site.mount attrs) depth) (table.matching site.trail.path) parts ∧
            others = parts.flatten) ∧ calls = mine ++ others) →
          Begun sets nested (site.mount attrs) (depth + 1) id (id :: calls) := by
        rintro _ ⟨_, _, rfl, ⟨parts, begun, rfl⟩, rfl⟩
        refine .inr ⟨set, active, ws.journal, picked?_of_select nests chosen, ?_⟩
        rw [found]
        exact ⟨parts, begun, rfl⟩
      refine ⟨calls, ⟨whole, turned whole given, part⟩, ?_, fun ok => turned calls (all ok)⟩
      rw [told, ← kept]

theorem adds_tie (keeps : Keeps sets nested definitions site name attrs log tell) (depth : Nat)
    (id : ActionId) : Adds log ((Catalogue.tie (noting tell definitions) depth id).onBegin name attrs)
      site (Begun sets nested (site.mount attrs) depth id) := by
  induction depth generalizing id with
  | zero => exact adds_throw .tooDeep ⟨[], rfl⟩
  | succ depth ih =>
    have noted : Adds log (note (tell id)) site (· = [id]) := by
      intro ws result after ran
      cases ran
      exact ⟨[id], ⟨[id], rfl, List.prefix_rfl⟩, keeps.told id ws.journal, fun _ => rfl⟩
    have adds : Adds log ((definitions id (Catalogue.tie (noting tell definitions) depth)).onBegin
        name attrs) site fun calls => Begun sets nested (site.mount attrs) (depth + 1) id (id :: calls) := by
      cases nests : nested id with
      | none =>
        refine (keeps.onBegin id nests _).weaken ?_
        rintro _ rfl
        exact .inl ⟨by rw [picked?, nests]; rfl, rfl⟩
      | some n =>
        rw [family.nests id n nests]
        exact adds_begin (family.adds_enter keeps ih nests)
    intro ws result after ran
    obtain ⟨calls, first⟩ :=
      exists_begun sets nested (site.mount attrs) site.rules ws.journal (depth + 1) id
    obtain ⟨rest, rfl⟩ := first.head
    refine (noted.bind (fun _ => adds) ⟨rest, first⟩).weaken ?_ ws result after ran
    rintro _ ⟨_, _, rfl, given, rfl⟩
    exact given

omit family

theorem begin_through (id : ActionId) (name : QName) {n : RuleChoice κ} {set : κ} {table : RuleTable}
    {inner : ActionId} {c : Catalogue σ} {ws : Workspace σ} (chosen : n.select attrs = .ok set)
    (found : (sets set).table? (topmost site.rules ws.scopes) ws.journal = some table)
    (single : table.matching site.trail.path = [inner]) (quiet : ∀ id, (c id).onStart = pure ()) :
    ∃ middle : Workspace σ,
      middle.journal = (sets set (topmost site.rules ws.scopes) ws.journal).2 ∧
      ∀ after, Step.perform ((c inner).onBegin name attrs) site middle = (.ok (), after) →
        Step.perform (n.begin sets id c name attrs) site ws = (.ok (), after) := by
  have made : n.outcome sets attrs (topmost site.rules ws.scopes) ws.journal =
      (.ok table, (sets set (topmost site.rules ws.scopes) ws.journal).2) := by
    rw [RuleChoice.outcome, chosen]
    exact Prod.ext (RuleSet.outcome_of_table? found) rfl
  have started : c.start table.actions = pure () := by
    induction table.actions with
    | nil => rfl
    | cons id ids ih =>
      change ((c id).onStart >>= fun _ => c.start ids) = _
      rw [quiet, ih]
      rfl
  let opened := (site.mount attrs).scope id table (topmost site.rules ws.scopes) :: ws.scopes
  refine ⟨{ ws with journal := _, scopes := opened }, rfl, fun after ran => ?_⟩
  have entered : Step.perform (n.enter sets id c name attrs) site ws = (.ok (), after) := by
    rw [RuleChoice.perform_enter, made]
    dsimp only
    rw [mount, started, single]
    exact Attempt.perform_bind_ok ran _
  rw [RuleChoice.perform_begin, entered]

def idle : Catalogue σ := fun _ => { name := "" }

-- However many levels there are, what comes of a begin is up to what is beneath them, and it takes
-- another begin on each.
def Endless (definitions : ActionId → Definition σ) (site : Site) (name : QName) (attrs : Attributes)
    (log : σ → List ActionId) (tell : ActionId → σ → σ) (self : ActionId) : Prop :=
  ∀ depth,
    (¬ ∀ (bottom : Catalogue σ) more ws,
      Step.perform ((Catalogue.tieFrom bottom definitions (depth + more) self).onBegin name attrs)
          site ws =
        Step.perform ((Catalogue.tie definitions depth self).onBegin name attrs) site ws) ∧
    ∀ ws, ∃ after calls,
      Step.perform ((Catalogue.tieFrom idle (noting tell definitions) depth self).onBegin name attrs)
        site ws = (.ok (), after) ∧
      log after.journal = log ws.journal ++ calls ∧ calls.length = depth

-- An action that begins as one that picks a set, once it has written something into the log.
def BeginsAs (sets : κ → RuleSet σ) (set : κ) (site : Site) (name : QName) (attrs : Attributes)
    (log : σ → List ActionId) (mark : List ActionId) (id : ActionId) (action : Definition σ) : Prop :=
  ∃ n : RuleChoice κ, n.select attrs = .ok set ∧ ∀ c ws, ∃ noted : Workspace σ,
    log noted.journal = log ws.journal ++ mark ∧
      Step.perform ((action c).onBegin name attrs) site ws =
        Step.perform (n.begin sets id c name attrs) site noted

section Circles
variable (endless : ActionId → Prop) {set : κ}
  (mounted : ∀ active journal, ∃ table inner, (sets set).table? active journal = some table ∧
    table.matching site.trail.path = [inner] ∧ endless inner)
include mounted

theorem perform_circle {actions : ActionId → Definition σ} {log : σ → List ActionId}
    {mark : ActionId → List ActionId} (quiet : ∀ id c, (actions id c).onStart = pure ())
    (asked : ∀ active journal, log (sets set active journal).2 = log journal)
    (begins : ∀ id, endless id → BeginsAs sets set site name attrs log (mark id) id (actions id))
    (depth : Nat) (id : ActionId) (again : endless id) (ws : Workspace σ) :
    ∃ after, ∃ ids : List ActionId,
      Step.perform ((Catalogue.tieFrom idle actions depth id).onBegin name attrs) site ws =
        (.ok (), after) ∧
      log after.journal = log ws.journal ++ ids.flatMap mark ∧ ids.length = depth := by
  have still : ∀ depth id, (Catalogue.tieFrom idle actions depth id).onStart = pure () := by
    intro depth id
    cases depth with
    | zero => rfl
    | succ depth => exact quiet id _
  induction depth generalizing id ws with
  | zero => exact ⟨ws, [], rfl, (List.append_nil _).symm, rfl⟩
  | succ depth ih =>
    obtain ⟨n, picks, begun⟩ := begins id again
    obtain ⟨noted, told, same⟩ := begun (Catalogue.tieFrom idle actions depth) ws
    obtain ⟨table, inner, found, single, further⟩ :=
      mounted (topmost site.rules noted.scopes) noted.journal
    obtain ⟨middle, kept, through⟩ := begin_through id name picks found single (still depth)
    obtain ⟨after, ids, ran, added, many⟩ := ih inner further middle
    refine ⟨after, id :: ids, same.trans (through after ran), ?_, by rw [List.length_cons, many]⟩
    rw [added, kept, asked, told, List.append_assoc, List.flatMap_cons]

-- A set that mounts an action that picks it again, and so on with that one, whether it is the same
-- action each time or not.
theorem endless_of_circle (family : Family sets nested definitions)
    (quiet : ∀ id c, (definitions id c).onStart = pure ())
    (chosen : ∀ id, endless id → ∃ n, nested id = some n ∧ n.select attrs = .ok set)
    {log : σ → List ActionId} {tell : ActionId → σ → σ}
    (told : ∀ id journal, log (tell id journal) = log journal ++ [id])
    (asked : ∀ active journal, log (sets set active journal).2 = log journal)
    {self : ActionId} (again : endless self) (journal : σ) :
    Endless definitions site name attrs log tell self := by
  have picked : ∀ id, endless id → picked? nested (site.mount attrs) id = some set := by
    intro id again
    obtain ⟨n, nests, picks⟩ := chosen id again
    exact picked?_of_select nests picks
  have must : MustMount sets nested (site.mount attrs) set set := by
    intro active journal table found
    obtain ⟨other, inner, same, single, further⟩ := mounted active journal
    cases found.symm.trans same
    exact ⟨inner, by rw [show (site.mount attrs).path = site.trail.path from rfl, single]; simp,
      picked inner further⟩
  have plainly : ∀ id, endless id →
      BeginsAs sets set site name attrs (fun _ => []) [] id (definitions id) := by
    intro id again
    obtain ⟨n, nests, picks⟩ := chosen id again
    exact ⟨n, picks, fun c ws => ⟨ws, rfl, by rw [family.nests id n nests]; rfl⟩⟩
  have noted : ∀ id, endless id →
      BeginsAs sets set site name attrs log [id] id (noting tell definitions id) := by
    intro id again
    obtain ⟨n, nests, picks⟩ := chosen id again
    refine ⟨n, picks, fun c ws => ⟨{ ws with journal := tell id ws.journal }, told id ws.journal, ?_⟩⟩
    change Step.perform (do
      note (tell id)
      (definitions id c).onBegin name attrs) site ws = _
    rw [family.nests id n nests]
    rfl
  refine fun depth => ⟨fun ends => ?_, fun ws => ?_⟩
  · obtain ⟨after, -, ran, -⟩ :=
      perform_circle endless mounted quiet (fun _ _ => rfl) plainly depth self again { journal }
    have fine := (ends idle 0 { journal }).symm.trans ran
    exact (family.shallow_of_ok fine (picked self again)).untangled set .refl (.single must)
  · have starts : ∀ id c, (noting tell definitions id c).onStart = pure () := quiet
    obtain ⟨after, ids, ran, added, many⟩ :=
      perform_circle endless mounted starts asked noted depth self again ws
    exact ⟨after, ids, ran, by rw [added, List.flatMap_singleton'], many⟩

end Circles

-- Whatever a finite family of sets looks like and whatever its sets register when they are asked, the
-- begin of an action comes to an end on an element unless a set may come to be opened within itself
-- there: it asks for no more levels than there are sets, so that what is beneath them makes no
-- difference, and the actions that begin are those that the sets turn out to match, as far as none of
-- them fails. Where a set has to be opened within itself, no begin comes back without an error.
theorem begin_ends (family : Family sets nested definitions) (all : List κ) (site : Site)
    (name : QName) (attrs : Attributes)
    (finite : ∀ id set, picked? nested (site.mount attrs) id = some set → set ∈ all)
    (self : ActionId) :
    let m := site.mount attrs
    let depth := all.length + 1
    ((∀ set, picked? nested m self = some set → Untangled (MayMount sets nested m) set) →
      (∀ (bottom : Catalogue σ) more ws,
        Step.perform ((Catalogue.tieFrom bottom definitions (depth + more) self).onBegin name attrs)
            site ws =
          Step.perform ((Catalogue.tie definitions depth self).onBegin name attrs) site ws) ∧
      ∀ log tell, Keeps sets nested definitions site name attrs log tell → ∀ more,
        Adds log ((Catalogue.tie (noting tell definitions) (depth + more) self).onBegin name attrs)
          site (Begun sets nested m depth self)) ∧
      ∀ levels ws after,
        Step.perform ((Catalogue.tie definitions levels self).onBegin name attrs) site ws =
          (.ok (), after) →
        ∀ set, picked? nested m self = some set → Untangled (MustMount sets nested m) set := by
  intro m depth
  refine ⟨fun untangled => ?_, fun levels ws after ran set picked =>
    (family.shallow_of_ok ran picked).untangled⟩
  have shallow : ∀ set, picked? nested m self = some set →
      Shallow (MayMount sets nested m) all.length set := by
    intro set picked
    refine (untangled set picked).shallow fun outer reached => ?_
    obtain same | ⟨_, _, _, _, _, _, id, _, picks⟩ := reached.cases_tail
    · exact same ▸ finite self set picked
    · exact finite id outer picks
  refine ⟨fun bottom more ws => ?_, fun log tell keeps more => ?_⟩
  · rw [← Catalogue.tieFrom_add, ← Catalogue.tieFrom_exhausted]
    exact congrArg (Attempt.perform · ws) (family.begin_eq _ _ shallow)
  · refine (family.adds_tie keeps (depth + more) self).weaken fun calls begun => ?_
    rw [show depth + more = all.length + more + 1 by omega] at begun
    exact begun.of_shallow more shallow

-- A set of one rule, for the element `a` that it is asked on or for another name.
theorem table?_of_name {set : RuleSet σ} {active : Registry} {journal : σ} (own : Bool)
    (asked : (set active journal).1 = .ok [.rule (if own then "a" else "b") id]) :
    ∃ table, set.table? active journal = some table ∧
      table.matching (Trail.along [⟨"", "a"⟩]).path = if own then [id] else [] := by
  let p : Pattern := ⟨if own then "a" else "b", false, .relative, .exact, if own then "a" else "b"⟩
  have parsed : Pattern.parse {} (if own then "a" else "b") = .ok p := by
    cases own <;> decide +kernel
  have clean : ∀ q ∈ [(⟨"", "a"⟩ : QName)], q.Clean := by decide
  have hit : p.isMatch (Trail.along [⟨"", "a"⟩]).path = own := by
    cases own <;> decide +kernel
  obtain ⟨table, found, matched⟩ := RuleSet.table?_of_rule asked parsed rfl clean
  rw [hit] at matched
  exact ⟨table, found, matched⟩

-- Two sets that register an action of each other, a new one each time, one of them for `a` and the
-- other for `b`. The journal counts the actions that have been made and has the log beside.
theorem begin_ends_of_mutual_sets :
    let sets : Bool → RuleSet (Nat × List ActionId) := fun outer _ journal =>
      (.ok [.rule (if outer then "a" else "b") ⟨2 * journal.1 + if outer then 1 else 0⟩],
        (journal.1 + 1, journal.2))
    let choice : ActionId → RuleChoice Bool := fun id => .single (id.index % 2 == 0)
    let nested : ActionId → Option (RuleChoice Bool) := fun id => some (choice id)
    let definitions : ActionId → Definition (Nat × List ActionId) := fun id =>
      (choice id).behaviour sets id
    let site : Site := { trail := ({} : Trail).enter ⟨"", "a"⟩, rules := .base {}, factory := {} }
    let tell : ActionId → Nat × List ActionId → Nat × List ActionId := fun id journal =>
      (journal.1, journal.2 ++ [id])
    let m := site.mount {}
    (∀ set, picked? nested m ⟨0⟩ = some set → Untangled (MayMount sets nested m) set) ∧
      (∀ bottom more ws,
        Step.perform ((Catalogue.tieFrom bottom definitions (3 + more) ⟨0⟩).onBegin ⟨"", "a"⟩ {})
            site ws =
          Step.perform ((Catalogue.tie definitions 3 ⟨0⟩).onBegin ⟨"", "a"⟩ {}) site ws) ∧
      Adds Prod.snd ((Catalogue.tie (noting tell definitions) 3 ⟨0⟩).onBegin ⟨"", "a"⟩ {}) site
        (Begun sets nested m 3 ⟨0⟩) := by
  intro sets choice nested definitions site tell m
  have family : Family sets nested definitions := by
    refine ⟨fun id n nests => ?_, nofun⟩
    cases nests
    rfl
  have picks : ∀ id, picked? nested m id = some (id.index % 2 == 0) :=
    fun id => picked?_of_select rfl (RuleChoice.select_single _ _)
  have outer : ∀ active journal, ∃ table, (sets true).table? active journal = some table ∧
      table.matching m.path = [⟨2 * journal.1 + 1⟩] :=
    fun active journal => table?_of_name true rfl
  have inner : ∀ active journal, ∃ table, (sets false).table? active journal = some table ∧
      table.matching m.path = [] :=
    fun active journal => table?_of_name false rfl
  have shallow : Shallow (MayMount sets nested m) 2 true := by
    rintro next ⟨active, journal, table, found, id, member, picked⟩
    obtain ⟨other, same, single⟩ := outer active journal
    cases found.symm.trans same
    rw [single, List.mem_singleton] at member
    have odd : next = false := by
      rw [picks, member] at picked
      simpa [Nat.add_mod] using picked.symm
    rw [odd]
    rintro last ⟨active, journal, table, found, id, member, -⟩
    obtain ⟨other, same, none⟩ := inner active journal
    cases found.symm.trans same
    rw [none] at member
    cases member
  have untangled : ∀ set, picked? nested m ⟨0⟩ = some set → Untangled (MayMount sets nested m) set := by
    intro set picked
    cases (picks ⟨0⟩).symm.trans picked
    exact shallow.untangled
  have keeps : Keeps sets nested definitions site ⟨"", "a"⟩ {} Prod.snd tell :=
    ⟨fun _ _ => rfl, fun _ _ _ => rfl, nofun, nofun⟩
  obtain ⟨ends, adds⟩ := (family.begin_ends [true, false] site ⟨"", "a"⟩ {} (by simp) ⟨0⟩).1 untangled
  exact ⟨untangled, ends, adds _ _ keeps 0⟩

-- A set that registers for the name of its own mount element an action that opens the set again: the
-- action that has just begun, or one that has been made for it, begins once more on every level.
theorem begin_of_self_mount :
    let site : Site := { trail := ({} : Trail).enter ⟨"", "a"⟩, rules := .base {}, factory := {} }
    let rules : List Registration := [.rule "a" ⟨0⟩]
    let written : ActionId → Definition (List ActionId) :=
      fun id => (StockAction.nested (.single rules)).definition id
    let sets : Unit → RuleSet (Nat × List ActionId) := fun _ _ journal =>
      (.ok [.rule "a" ⟨journal.1⟩], (journal.1 + 1, journal.2))
    let making : ActionId → Definition (Nat × List ActionId) :=
      fun id => (RuleChoice.single ()).behaviour sets id
    Endless written site ⟨"", "a"⟩ {} (fun begun => begun) (fun id begun => begun ++ [id]) ⟨0⟩ ∧
      Endless making site ⟨"", "a"⟩ {} Prod.snd (fun id journal => (journal.1, journal.2 ++ [id])) ⟨0⟩ := by
  intro site rules written sets making
  have writtenFamily : Family .written (fun _ => some (.single rules)) written :=
    StockAction.family fun _ => .nested (.single rules)
  have makingFamily : Family sets (fun _ => some (.single ())) making := by
    refine ⟨fun id n nests => ?_, nofun⟩
    cases nests
    rfl
  constructor
  · refine endless_of_circle (fun _ => True) (fun active journal => ?_) writtenFamily (fun _ _ => rfl)
      (fun _ _ => ⟨_, rfl, RuleChoice.select_single rules {}⟩) (fun _ _ => rfl) (fun _ _ => rfl)
      trivial []
    obtain ⟨table, here, single⟩ : ∃ table, (RuleSet.written rules).table? active journal = some table ∧
      table.matching site.trail.path = [⟨0⟩] := table?_of_name true rfl
    exact ⟨table, ⟨0⟩, here, single, trivial⟩
  · refine endless_of_circle (fun _ => True) (fun active journal => ?_) makingFamily (fun _ _ => rfl)
      (fun _ _ => ⟨_, rfl, RuleChoice.select_single () {}⟩) (fun _ _ => rfl) (fun _ _ => rfl)
      trivial (0, [])
    obtain ⟨table, here, single⟩ : ∃ table, (sets ()).table? active journal = some table ∧
      table.matching site.trail.path = [⟨journal.1⟩] := table?_of_name true rfl
    exact ⟨table, ⟨journal.1⟩, here, single, trivial⟩

end Family
end XmlRules
