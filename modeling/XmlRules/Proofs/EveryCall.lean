import XmlRules.Proofs.CallChain
import XmlRules.Proofs.LeafCalls
namespace XmlRules

section Listing
variable {σ : Type}

def Workspace.enter (ws : Workspace (Logged σ)) (call : Callback σ) : Workspace (Logged σ) :=
  { ws with journal := { ws.journal with calls := ws.journal.calls ++ [call] } }

@[simp] theorem Workspace.scopes_enter (ws : Workspace (Logged σ)) (call : Callback σ) :
    (ws.enter call).scopes = ws.scopes := rfl

@[simp] theorem Workspace.calls_enter (ws : Workspace (Logged σ)) (call : Callback σ) :
    (ws.enter call).journal.calls = ws.journal.calls ++ [call] := rfl

-- A step of an action with its call on record, behind all calls that it makes itself.
def Step.listed (actor : ActionId) (occasion : Occasion) (step : Step (Logged σ) Unit) :
    Step (Logged σ) Unit := fun site => do
  let ws ← get
  let (result, after) := Step.perform step site ws
  set (after.enter ⟨actor, occasion, site, ws.plain, result⟩)
  ofExcept result

def Behaviour.listed (self : ActionId) (b : Behaviour (Logged σ)) : Behaviour (Logged σ) where
  name := b.name
  onStart := b.onStart.listed self .start
  onBegin name attrs := (b.onBegin name attrs).listed self (.begin name attrs)
  onSegment name text := (b.onSegment name text).listed self (.segment name text)
  onBody name text := (b.onBody name text).listed self (.body name text)
  onEnd name := (b.onEnd name).listed self (.ending name)
  onFinish := b.onFinish.listed self .finish

theorem Behaviour.answer_listed (b : Behaviour (Logged σ)) (self : ActionId) (occasion : Occasion) :
    occasion.answer (b.listed self) = (occasion.answer b).listed self occasion := by
  cases occasion <;> rfl

theorem Step.perform_listed (actor : ActionId) (occasion : Occasion) (step : Step (Logged σ) Unit)
    (site : Site) (ws : Workspace (Logged σ)) :
    let ran := Step.perform step site ws
    Step.perform (step.listed actor occasion) site ws =
      (ran.1, ran.2.enter ⟨actor, occasion, site, ws.plain, ran.1⟩) := by
  intro ran
  have settled : ∀ (result : Except ActionError Unit) (t : Workspace (Logged σ)),
      Attempt.perform (ofExcept result) t = (result, t) := by
    intro result t
    cases result <;> rfl
  unfold Step.listed Step.perform
  rw [Attempt.perform_bind, Attempt.perform_get]
  dsimp only
  rw [Attempt.perform_bind, Attempt.perform_set]
  exact settled _ _

theorem Step.shadows_listed (actor : ActionId) (occasion : Occasion) {step : Step (Logged σ) Unit}
    {own : Step σ Unit} (same : Step.Shadows Logged.own step own) :
    Step.Shadows Logged.own (step.listed actor occasion) own := by
  intro site ws
  have made := Step.perform_listed actor occasion step site ws
  have here := same site ws
  unfold Attempt.Shadows at here ⊢
  change _ = ((Step.perform (step.listed actor occasion) site ws).1,
    (Step.perform (step.listed actor occasion) site ws).2.viewed Logged.own)
  rw [here, made]
  rfl

end Listing

section Mixing
variable {σ : Type} (own : Catalogue σ) (nested : ActionId → Option NestedRules)

-- Actions of which some nest rules, and the others do whatever they like.
def mixed (id : ActionId) : Definition σ :=
  match nested id with
  | none => fun _ => own id
  | some n => n.behaviour id

-- The same with a record of every call that the dispatcher makes, or an action that nests rules.
def listedMixed (id : ActionId) : Definition (Logged σ) :=
  match nested id with
  | none => fun _ => own.recorded id
  | some n => fun c => (n.behaviour id c).listed id

def Catalogue.mixed (depth : Nat) : Catalogue σ := .tie (XmlRules.mixed own nested) depth

def Catalogue.listed (depth : Nat) : Catalogue (Logged σ) := .tie (listedMixed own nested) depth

-- All calls in a sequence of events. One made by another stands before it.
def Event.everyCall (depth : Nat) (es : List Event) (d : Dispatcher σ) : List (Callback σ) :=
  (feed (Catalogue.listed own nested depth) es d.logging).2.progress.journal.calls

variable {nested} {id : ActionId}

theorem listed_of_leaf (leaf : nested id = none) (depth : Nat) :
    Catalogue.listed own nested (depth + 1) id = own.recorded id := by
  change listedMixed own nested id _ = _
  unfold listedMixed
  rw [leaf]

theorem listed_of_nested {n : NestedRules} (nests : nested id = some n) (depth : Nat) :
    Catalogue.listed own nested (depth + 1) id =
      (n.behaviour id (Catalogue.listed own nested depth)).listed id := by
  change listedMixed own nested id _ = _
  unfold listedMixed
  rw [nests]
  rfl

theorem mixed_of_leaf (leaf : nested id = none) (depth : Nat) :
    Catalogue.mixed own nested (depth + 1) id = own id := by
  change XmlRules.mixed own nested id _ = _
  unfold mixed
  rw [leaf]

theorem mixed_of_nested {n : NestedRules} (nests : nested id = some n) (depth : Nat) :
    Catalogue.mixed own nested (depth + 1) id =
      n.behaviour id (Catalogue.mixed own nested depth) := by
  change XmlRules.mixed own nested id _ = _
  unfold mixed
  rw [nests]
  rfl

variable (nested)

theorem Catalogue.shadows_listed (depth : Nat) :
    Catalogue.Shadows Logged.own (Catalogue.listed own nested depth)
      (Catalogue.mixed own nested depth) := by
  induction depth with
  | zero => exact ⟨fun _ => rfl, fun _ occasion _ _ => by cases occasion <;> rfl⟩
  | succ depth ih =>
    refine ⟨fun id => ?_, fun id occasion site ws => ?_⟩
    · cases leaf : nested id with
      | none => rw [listed_of_leaf own leaf, mixed_of_leaf own leaf]; rfl
      | some n => rw [listed_of_nested own leaf, mixed_of_nested own leaf]; rfl
    · cases leaf : nested id with
      | none =>
        rw [listed_of_leaf own leaf, mixed_of_leaf own leaf, Catalogue.answer_recorded]
        exact Step.shadows_recorded id occasion _ site ws
      | some n =>
        rw [listed_of_nested own leaf, mixed_of_nested own leaf, Behaviour.answer_listed]
        exact Step.shadows_listed id occasion (NestedRules.shadows_behaviour ih n id occasion) site ws

theorem Event.feed_listed (depth : Nat) (es : List Event) (d : Dispatcher (Logged σ)) :
    feed (Catalogue.mixed own nested depth) es d.plain =
      ((feed (Catalogue.listed own nested depth) es d).1,
        (feed (Catalogue.listed own nested depth) es d).2.plain) := by
  rw [Dispatcher.plain_eq, Dispatcher.plain_eq]
  exact feed_viewed (Catalogue.shadows_listed own nested depth) es d

end Mixing
end XmlRules
