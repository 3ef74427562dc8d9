import XmlRules.Proofs.MountedSets
import XmlRules.Proofs.EveryCall
namespace XmlRules
open Step NestedRules

def ScopeKept (depth : Nat) (before after : List Scope) (id : ActionId) : Prop :=
  ∀ scope, before.find? (ownedHere (.nested id) depth) = some scope →
    after.find? (ownedHere (.nested id) depth) = some scope

namespace ScopeKept
variable {depth : Nat} {before middle after scopes : List Scope} {id : ActionId}

theorem of_eq (same : after = before) : ScopeKept depth before after id := by
  rw [same]
  exact fun _ found => found

theorem trans (first : ScopeKept depth before middle id) (second : ScopeKept depth middle after id) :
    ScopeKept depth before after id :=
  fun scope found => second scope (first scope found)

theorem opened {scope : Scope} (other : ownedHere (.nested id) depth scope = false) :
    ScopeKept depth scopes (scope :: scopes) id := by
  intro found same
  rwa [List.find?_cons_of_neg (by simp [other])]

theorem erased {owner : Owner} {place : Nat} (other : owner ≠ .nested id ∨ place ≠ depth) :
    ScopeKept depth scopes (scopes.eraseP (ownedHere owner place)) id := by
  have apart : ∀ scope, ownedHere owner place scope → ¬ ownedHere (.nested id) depth scope := by
    intro scope owned here
    simp only [ownedHere, Bool.and_eq_true, decide_eq_true_eq] at owned here
    rcases other with somebody | elsewhere
    · exact somebody (Option.some.inj (owned.1.symm.trans here.1))
    · exact elsewhere (owned.2.symm.trans here.2)
  intro found same
  induction scopes with
  | nil => cases same
  | cons scope below ih =>
    by_cases taken : ownedHere owner place scope
    · rw [List.eraseP_cons_of_pos taken]
      rwa [List.find?_cons_of_neg (apart scope taken)] at same
    · rw [List.eraseP_cons_of_neg taken]
      by_cases here : ownedHere (.nested id) depth scope
      · rwa [List.find?_cons_of_pos here] at same ⊢
      · rw [List.find?_cons_of_neg here] at same ⊢
        exact ih same

theorem left {from_ : Nat} (deeper : depth < from_) :
    ScopeKept depth scopes (scopes.dropWhile fun scope => from_ ≤ scope.mountDepth) id := by
  intro found same
  induction scopes with
  | nil => cases same
  | cons scope below ih =>
    by_cases mounted : from_ ≤ scope.mountDepth
    · rw [List.dropWhile_cons_of_pos (by simpa using mounted)]
      have other : ¬ ownedHere (.nested id) depth scope := by
        simp only [ownedHere, Bool.and_eq_true, decide_eq_true_eq]
        omega
      rw [List.find?_cons_of_neg other] at same
      exact ih same
    · rwa [List.dropWhile_cons_of_neg (by simpa using mounted)]

end ScopeKept

-- The calls that count as made for an element of some depth: not those in which an action that nests
-- rules does nothing but pass on what it is told.
def Callback.counts {σ : Type} (nested : ActionId → Option NestedRules) (level : Nat)
    (call : Callback σ) : Bool :=
  call.site.trail.depth = level &&
    ((nested call.actor).isNone || call.occasion = .start || call.occasion = .finish)

-- An element that is watched while it is open: where it stands, the actions there are, and those
-- among them whose scopes on the element matter.
structure Watch (σ : Type) where
  own : Catalogue σ
  nested : ActionId → Option NestedRules
  site : Site
  attrs : Attributes
  held : List ActionId

namespace Watch
variable {σ : Type}

def mount (w : Watch σ) : Mount := w.site.mount w.attrs

def level (w : Watch σ) : Nat := w.site.trail.depth

def actions (w : Watch σ) (depth : Nat) : Catalogue (Logged σ) := .listed w.own w.nested depth

def Spared (w : Watch σ) (besides : List ActionId) (before after : List Scope) : Prop :=
  ∀ id ∈ w.held, id ∉ besides → ScopeKept w.level before after id

-- A call that is not to blame if anything goes wrong. Whether an action that nests rules on the
-- element itself fails is not asked.
structure Harmless (w : Watch σ) (call : Callback σ) : Prop where
  well : w.nested call.actor = none ∨ call.site.trail.depth ≠ w.level → call.result = .ok ()
  spares : w.nested call.actor = none → w.level ≤ call.site.trail.depth →
    w.Spared [] call.work.scopes (call.after w.own).scopes

def heard (w : Watch σ) (calls : List (Callback σ)) : List Duty :=
  (calls.filter (Callback.counts w.nested w.level)).map Callback.duty

variable {w : Watch σ}

theorem Spared.of_eq {besides : List ActionId} {before after : List Scope} (same : after = before) :
    w.Spared besides before after :=
  fun _ _ _ => .of_eq same

theorem Spared.append {besides more : List ActionId} {before middle after : List Scope}
    (first : w.Spared besides before middle) (second : w.Spared more middle after) :
    w.Spared (besides ++ more) before after := by
  intro id held other
  rw [List.mem_append, not_or] at other
  exact (first id held other.1).trans (second id held other.2)

theorem Spared.trans {before middle after : List Scope} (first : w.Spared [] before middle)
    (second : w.Spared [] middle after) : w.Spared [] before after :=
  first.append second

theorem heard_append (calls more : List (Callback σ)) :
    w.heard (calls ++ more) = w.heard calls ++ w.heard more := by
  simp [heard]

theorem heard_elsewhere {calls : List (Callback σ)} {site : Site}
    (away : site.trail.depth ≠ w.level) (there : ∀ call ∈ calls, call.site = site) :
    w.heard calls = [] := by
  rw [heard, List.map_eq_nil_iff, List.filter_eq_nil_iff]
  intro call member counts
  simp only [Callback.counts, there call member, Bool.and_eq_true, decide_eq_true_eq] at counts
  exact away counts.1

end Watch

section Growing
variable {σ ε α β : Type}

def Grows (step : Attempt ε (Workspace (Logged σ)) α) : Prop :=
  ∀ ws, ∃ more : List (Callback σ), (step.perform ws).2.journal.calls = ws.journal.calls ++ more

theorem Grows.bind {step : Attempt ε (Workspace (Logged σ)) α}
    {next : α → Attempt ε (Workspace (Logged σ)) β} (first : Grows step)
    (second : ∀ a, Grows (next a)) : Grows (step >>= next) := by
  intro ws
  obtain ⟨more, calls⟩ := first ws
  rw [Attempt.perform_bind]
  cases run : step.perform ws with
  | mk result after =>
    rw [run] at calls
    cases result with
    | error e => exact ⟨more, calls⟩
    | ok a =>
      obtain ⟨rest, others⟩ := second a after
      exact ⟨more ++ rest, by rw [others, calls, List.append_assoc]⟩

theorem grows_pure (a : α) : Grows (pure a : Attempt ε (Workspace (Logged σ)) α) :=
  fun _ => ⟨[], (List.append_nil _).symm⟩

theorem grows_forM {γ : Type} (items : List γ) {call : γ → Attempt ε (Workspace (Logged σ)) Unit}
    (each : ∀ item, Grows (call item)) : Grows (items.forM call) := by
  induction items with
  | nil => exact grows_pure ()
  | cons item items ih => exact (each item).bind fun _ => ih

end Growing

namespace Watch
variable {σ ε α β : Type} {w : Watch σ} {ws : Workspace (Logged σ)}

-- A step that comes to an end without an error unless one of the calls it puts on record is to blame,
-- with what is then said of its result, of what has been asked for on the element and of the scopes.
def Goes (w : Watch σ) (step : Attempt ε (Workspace (Logged σ)) α) (ws : Workspace (Logged σ))
    (post : α → List Duty → List Scope → Prop) : Prop :=
  ∃ more : List (Callback σ), (step.perform ws).2.journal.calls = ws.journal.calls ++ more ∧
    ((∀ call ∈ more, w.Harmless call) →
      ∃ a, (step.perform ws).1 = .ok a ∧ post a (w.heard more) (step.perform ws).2.scopes)

theorem Goes.bind {step : Attempt ε (Workspace (Logged σ)) α}
    {next : α → Attempt ε (Workspace (Logged σ)) β} {middle : α → List Duty → List Scope → Prop}
    {post : β → List Duty → List Scope → Prop} (first : w.Goes step ws middle)
    (grows : ∀ a, Grows (next a)) (second : ∀ a duties t, middle a duties t.scopes →
      w.Goes (next a) t fun b more scopes => post b (duties ++ more) scopes) :
    w.Goes (step >>= next) ws post := by
  obtain ⟨more, calls, ends⟩ := first
  unfold Goes
  rw [Attempt.perform_bind]
  cases run : step.perform ws with
  | mk result t =>
    rw [run] at calls ends
    cases result with
    | error e =>
      refine ⟨more, calls, fun harmless => ?_⟩
      obtain ⟨_, wrong, _⟩ := ends harmless
      cases wrong
    | ok a =>
      by_cases harmless : ∀ call ∈ more, w.Harmless call
      · obtain ⟨_, same, holds⟩ := ends harmless
        cases same
        obtain ⟨rest, others, further⟩ := second a _ t holds
        refine ⟨more ++ rest, by rw [others, calls, List.append_assoc], fun all => ?_⟩
        obtain ⟨b, fine, last⟩ := further fun call member => all call (List.mem_append_right _ member)
        exact ⟨b, fine, by rwa [heard_append]⟩
      -- Somebody is to blame already, but the rest of the record has to be accounted for.
      · obtain ⟨rest, others⟩ := grows a t
        refine ⟨more ++ rest, by rw [others, calls, List.append_assoc], fun all => ?_⟩
        exact absurd (fun call member => all call (List.mem_append_left _ member)) harmless

theorem Goes.weaken {step : Attempt ε (Workspace (Logged σ)) α}
    {strong weak : α → List Duty → List Scope → Prop} (goes : w.Goes step ws strong)
    (implied : ∀ a duties scopes, strong a duties scopes → weak a duties scopes) :
    w.Goes step ws weak := by
  obtain ⟨more, calls, ends⟩ := goes
  refine ⟨more, calls, fun harmless => ?_⟩
  obtain ⟨a, fine, holds⟩ := ends harmless
  exact ⟨a, fine, implied a _ _ holds⟩

theorem Goes.of_perform {step other : Attempt ε (Workspace (Logged σ)) α} {t : Workspace (Logged σ)}
    {post : α → List Duty → List Scope → Prop} (goes : w.Goes other t post)
    (same : step.perform ws = other.perform t) (calls : t.journal = ws.journal) :
    w.Goes step ws post := by
  unfold Goes at goes ⊢
  rwa [same, ← calls]

theorem Goes.of_ended {ε' : Type} {step : Attempt ε (Workspace (Logged σ)) α}
    {other : Attempt ε' (Workspace (Logged σ)) β} {before : β → List Duty → List Scope → Prop}
    {post : α → List Duty → List Scope → Prop} (goes : w.Goes other ws before)
    (journal : (step.perform ws).2.journal = (other.perform ws).2.journal)
    (ended : ∀ b after, other.perform ws = (.ok b, after) → ∃ a, step.perform ws = (.ok a, after) ∧
      ∀ duties, before b duties after.scopes → post a duties after.scopes) :
    w.Goes step ws post := by
  obtain ⟨more, calls, ends⟩ := goes
  refine ⟨more, by rw [journal, calls], fun harmless => ?_⟩
  obtain ⟨b, fine, holds⟩ := ends harmless
  obtain ⟨a, ran, implied⟩ := ended b _ (Prod.ext fine rfl)
  rw [ran]
  exact ⟨a, rfl, implied _ holds⟩

theorem goes_pure {post : α → List Duty → List Scope → Prop} {a : α} (holds : post a [] ws.scopes) :
    w.Goes (pure a : Attempt ε (Workspace (Logged σ)) α) ws post :=
  ⟨[], (List.append_nil _).symm, fun _ => ⟨a, rfl, holds⟩⟩

theorem goes_forM {ids : List ActionId} {call : ActionId → Attempt ε (Workspace (Logged σ)) Unit}
    (grows : ∀ id, Grows (call id)) {asks : ActionId → List Duty}
    (keeps : List ActionId → List Scope → Prop) (start : keeps [] ws.scopes)
    (each : ∀ done id later t, ids = done ++ id :: later → keeps done t.scopes →
      w.Goes (call id) t fun _ duties scopes => duties = asks id ∧ keeps (done ++ [id]) scopes) :
    w.Goes (ids.forM call) ws fun _ duties scopes => duties = ids.flatMap asks ∧ keeps ids scopes := by
  have rest : ∀ (later done : List ActionId) (t : Workspace (Logged σ)), ids = done ++ later →
      keeps done t.scopes → w.Goes (later.forM call) t fun _ duties scopes =>
        duties = later.flatMap asks ∧ keeps ids scopes := by
    intro later
    induction later with
    | nil =>
      intro done t shape kept
      rw [List.append_nil] at shape
      exact goes_pure ⟨rfl, shape ▸ kept⟩
    | cons id later ih =>
      intro done t shape kept
      refine (each done id later t shape kept).bind (fun _ => grows_forM later grows) ?_
      rintro _ _ u ⟨rfl, next⟩
      refine (ih (done ++ [id]) u (by simp [shape]) next).weaken fun _ _ _ others => ?_
      exact ⟨by rw [others.1]; rfl, others.2⟩
  exact rest ids [] ws rfl start

end Watch

section Recording
variable {σ : Type} {w : Watch σ}

-- What happens at some place while the element is open: on elements further in, nobody but those to
-- blame takes anything of the element away.
def Watch.Beside (w : Watch σ) (site : Site) (ws after : Workspace (Logged σ)) : Prop :=
  ∃ more : List (Callback σ), after.journal.calls = ws.journal.calls ++ more ∧
    (∀ call ∈ more, call.site = site) ∧
    (w.level < site.trail.depth → (∀ call ∈ more, w.Harmless call) →
      w.Spared [] ws.scopes after.scopes)

theorem Watch.Beside.of_kept {site : Site} {ws after : Workspace (Logged σ)}
    (journal : after.journal = ws.journal)
    (kept : w.level < site.trail.depth → ∀ id, ScopeKept w.level ws.scopes after.scopes id) :
    w.Beside site ws after :=
  ⟨[], by simp [journal], by simp, fun deeper _ id _ _ => kept deeper id⟩

theorem Watch.Beside.trans {site : Site} {ws middle after : Workspace (Logged σ)}
    (first : w.Beside site ws middle) (second : w.Beside site middle after) :
    w.Beside site ws after := by
  obtain ⟨more, calls, there, kept⟩ := first
  obtain ⟨rest, others, further, still⟩ := second
  refine ⟨more ++ rest, by rw [others, calls, List.append_assoc], ?_, fun deeper harmless => ?_⟩
  · intro call member
    exact (List.mem_append.mp member).elim (there call) (further call)
  · exact (kept deeper fun call member => harmless call (List.mem_append_left _ member)).trans
      (still deeper fun call member => harmless call (List.mem_append_right _ member))

theorem after_closeOwnedScope (owner : Owner) (site : Site) (ws : Workspace (Logged σ)) :
    (Step.perform (closeOwnedScope owner) site ws).2 =
      { ws with scopes := ws.scopes.eraseP (ownedHere owner site.trail.depth) } := by
  cases found : ws.scopes.find? (ownedHere owner site.trail.depth) with
  | some scope => rw [perform_closeOwnedScope found]
  | none =>
    rw [List.eraseP_of_forall_not (by simpa using found), closeOwnedScope, perform_here, found]
    rfl

theorem lasting_beside : Lasting (w.Beside : Site → Workspace (Logged σ) → _) where
  kept := .of_kept rfl fun _ _ => .of_eq rfl
  chained := .trans
  opens rules ids owner site ws := .of_kept rfl fun deeper id => by
    refine ScopeKept.opened ?_
    simp only [ownedHere, Bool.and_eq_false_imp, decide_eq_false_iff_not]
    omega
  closes owner site ws := by
    rw [after_closeOwnedScope]
    exact .of_kept rfl fun deeper id => .erased (.inr (by omega))

theorem beside_listed {step : Step (Logged σ) Unit} (id : ActionId) (occasion : Occasion)
    (moves : step.Moves w.Beside) : (step.listed id occasion).Moves w.Beside := by
  intro site ws
  obtain ⟨more, calls, there, kept⟩ := moves site ws
  rw [perform_listed]
  refine ⟨more ++ [⟨id, occasion, site, ws.plain, (Step.perform step site ws).1⟩], by simp [calls], ?_,
    fun deeper harmless => ?_⟩
  · simpa [or_imp, forall_and] using there
  · exact kept deeper fun call member => harmless call (List.mem_append_left _ member)

theorem beside_actions (depth : Nat) (id : ActionId) (occasion : Occasion) :
    (occasion.answer (w.actions depth id)).Moves w.Beside := by
  induction depth generalizing id occasion with
  | zero => cases occasion <;> exact lasting_beside.reads (reads_throw .tooDeep)
  | succ depth ih =>
    cases nests : w.nested id with
    | none =>
      intro site ws
      rw [Watch.actions, listed_of_leaf w.own nests, Catalogue.answer_recorded, perform_recorded]
      refine ⟨_, rfl, by simp, fun deeper harmless => ?_⟩
      exact (harmless _ List.mem_cons_self).spares nests (Nat.le_of_lt deeper)
    | some n =>
      rw [Watch.actions, listed_of_nested w.own nests, Behaviour.answer_listed]
      refine beside_listed id occasion ?_
      exact lasting_beside.behaviour (fun id occasion (_ : True) => ih id occasion) trivial trivial n id
        trivial

theorem grows_of_beside {α : Type} {step : Step (Logged σ) α} (moves : step.Moves w.Beside)
    (site : Site) : Grows (step site) := by
  intro ws
  obtain ⟨more, calls, _⟩ := moves site ws
  exact ⟨more, calls⟩

theorem grows_actions (w : Watch σ) (depth : Nat) (id : ActionId) (occasion : Occasion)
    (site : Site) : Grows (occasion.answer (w.actions depth id) site) :=
  grows_of_beside (beside_actions depth id occasion) site

-- Elsewhere an action is not heard, takes nothing away, and fails only if somebody is to blame.
theorem Watch.goes_elsewhere (depth : Nat) (id : ActionId) (occasion : Occasion) {site : Site}
    (away : site.trail.depth ≠ w.level) (ws : Workspace (Logged σ)) :
    w.Goes (occasion.answer (w.actions (depth + 1) id) site) ws fun _ duties scopes =>
      duties = [] ∧ (w.level < site.trail.depth → w.Spared [] ws.scopes scopes) := by
  obtain ⟨more, calls, there, kept⟩ := beside_actions (w := w) (depth + 1) id occasion site ws
  -- The call itself is the last one on record.
  have own : ∃ call ∈ more, call.site = site ∧ call.result =
      (Step.perform (occasion.answer (w.actions (depth + 1) id)) site ws).1 := by
    cases nests : w.nested id with
    | none =>
      rw [actions, listed_of_leaf w.own nests, Catalogue.answer_recorded, perform_recorded] at calls ⊢
      obtain rfl := List.append_cancel_left calls
      exact ⟨_, List.mem_singleton.mpr rfl, rfl, rfl⟩
    | some n =>
      rw [actions, listed_of_nested w.own nests, Behaviour.answer_listed] at calls ⊢
      have inner : (occasion.answer (n.behaviour id (Catalogue.listed w.own w.nested depth))).Moves
          w.Beside := lasting_beside.behaviour (fun id occasion (_ : True) =>
        beside_actions depth id occasion) trivial trivial n id trivial
      obtain ⟨before, others, _⟩ := inner site ws
      rw [perform_listed] at calls ⊢
      rw [Workspace.calls_enter, others, List.append_assoc] at calls
      obtain rfl := List.append_cancel_left calls
      exact ⟨_, List.mem_append_right _ (List.mem_singleton.mpr rfl), rfl, rfl⟩
  refine ⟨more, calls, fun harmless => ⟨(), ?_, ?_, fun deeper => kept deeper harmless⟩⟩
  · obtain ⟨call, member, place, result⟩ := own
    exact result.symm.trans ((harmless call member).well (.inr (place ▸ away)))
  · exact heard_elsewhere away there

end Recording
end XmlRules
