import XmlRules.Action.Nested
import XmlRules.Proofs.Callbacks
namespace XmlRules

def topmost (base : Registry) : List Scope → Registry
  | [] => base
  | scope :: _ => scope.rules

theorem topmost_append (base : Registry) (scopes below : List Scope) :
    topmost base (scopes ++ below) = topmost (topmost base below) scopes := by
  cases scopes <;> rfl

namespace Step
variable {σ α β : Type}

-- What holds of the result and of the scopes whenever the step succeeds from the scopes given.
def Yields (step : Step σ α) (site : Site) (before : List Scope) (post : α → List Scope → Prop) :
    Prop :=
  ∀ ws a after, ws.scopes = before → Step.perform step site ws = (.ok a, after) → post a after.scopes

def Quiet (step : Step σ α) : Prop :=
  ∀ site before, step.Yields site before fun _ after => after = before

variable {site : Site} {before : List Scope}

theorem Yields.bind {step : Step σ α} {next : α → Step σ β} {middle : α → List Scope → Prop}
    {post : β → List Scope → Prop} (first : step.Yields site before middle)
    (second : ∀ a scopes, middle a scopes → (next a).Yields site scopes post) :
    Yields (step >>= next) site before post := by
  intro ws b last same ran
  have ran : Attempt.perform (step site >>= fun a => next a site) ws = (.ok b, last) := ran
  obtain ⟨a, after, made, rest⟩ := Attempt.ok_of_bind ran
  exact second a after.scopes (first ws a after same made) after b last rfl rest

theorem Yields.weaken {step : Step σ α} {strong weak : α → List Scope → Prop}
    (yields : step.Yields site before strong) (implied : ∀ a after, strong a after → weak a after) :
    step.Yields site before weak :=
  fun ws a after same ran => implied a _ (yields ws a after same ran)

theorem yields_pure {post : α → List Scope → Prop} {a : α} (holds : post a before) :
    Yields (pure a : Step σ α) site before post := by
  intro ws b after same ran
  cases ran
  rwa [same]

theorem yields_throw (e : ActionError) (post : α → List Scope → Prop) :
    Yields (throw e : Step σ α) site before post := by
  intro ws a after _ ran
  cases ran

theorem yields_ofExcept (result : Except ActionError α) :
    Yields (ofExcept result : Step σ α) site before fun a after => result = .ok a ∧ after = before := by
  cases result with
  | ok a => exact yields_pure ⟨rfl, rfl⟩
  | error e => exact yields_throw e _

theorem yields_path :
    Yields (path : Step σ String) site before fun p after => p = site.trail.path ∧ after = before := by
  intro ws a after same ran
  cases ran
  exact ⟨rfl, same⟩

theorem yields_depth :
    Yields (depth : Step σ Nat) site before fun n after => n = site.trail.depth ∧ after = before := by
  intro ws a after same ran
  cases ran
  exact ⟨rfl, same⟩

theorem yields_get : Yields (get : Step σ (Workspace σ)) site before
    fun ws after => before = ws.scopes ∧ after = ws.scopes := by
  intro ws a after same ran
  cases ran
  exact ⟨same.symm, rfl⟩

theorem yields_set (ws : Workspace σ) :
    Yields (set ws : Step σ PUnit) site before fun _ after => after = ws.scopes := by
  intro old a after _ ran
  cases ran
  rfl

theorem yields_activeRules : Yields (activeRules : Step σ Registry) site before
    fun rules after => rules = topmost site.rules before ∧ after = before := by
  intro ws a after same ran
  cases ws with
  | mk store objects named params scopes root journal =>
    cases same
    cases scopes <;> cases ran <;> exact ⟨rfl, rfl⟩

theorem yields_openScope (rules : Registry) (mountActions : List ActionId) (owner : Option Owner) :
    Yields (openScope rules mountActions owner : Step σ Unit) site before
      fun _ after => after = ⟨rules, site.trail.depth, mountActions, owner⟩ :: before := by
  intro ws a after same ran
  cases ran
  rw [← same]

theorem yields_ownedScope? (owner : Owner) :
    Yields (ownedScope? owner : Step σ (Option Scope)) site before fun found after =>
      found = before.find? (ownedHere owner site.trail.depth) ∧ after = before := by
  intro ws a after same ran
  cases ran
  rw [← same]
  exact ⟨rfl, rfl⟩

theorem yields_closeOwnedScope (owner : Owner) :
    Yields (closeOwnedScope owner : Step σ Scope) site before fun scope after =>
      before.find? (ownedHere owner site.trail.depth) = some scope ∧
        after = before.eraseP (ownedHere owner site.trail.depth) := by
  refine yields_depth.bind fun here scopes measured => ?_
  obtain ⟨rfl, rfl⟩ := measured
  refine yields_get.bind fun ws scopes read => ?_
  obtain ⟨rfl, rfl⟩ := read
  split
  · exact yields_path.bind fun path _ _ => yields_throw _ _
  · rename_i scope found
    refine (yields_set _).bind fun _ after erased => ?_
    exact yields_pure ⟨found, erased⟩

theorem yields_tryCatch {step : Step σ α} {handler : ActionError → Step σ α}
    {post : α → List Scope → Prop} (yields : step.Yields site before post)
    (handled : ∀ e scopes, (handler e).Yields site scopes post) :
    Yields (tryCatch step handler) site before post := by
  intro ws a after same ran
  have split := Attempt.perform_tryCatch (step site) (fun e => handler e site) ws
  change Attempt.perform ((tryCatch step handler) site) ws = _ at ran
  cases run : (step site).perform ws with
  | mk result middle =>
    rw [run] at split
    cases result with
    | ok b =>
      have both := split.symm.trans ran
      cases both
      exact yields ws a after same run
    | error e => exact handled e middle.scopes middle a after rfl (split.symm.trans ran)

theorem yields_forM (ids : List ActionId) {callback : ActionId → Step σ Unit}
    (holds : List ActionId → List Scope → Prop) (start : holds [] before)
    (each : ∀ done id later scopes, ids = done ++ id :: later → holds done scopes →
      (callback id).Yields site scopes fun _ after => holds (done ++ [id]) after) :
    Yields (ids.forM callback) site before fun _ after => holds ids after := by
  have rest : ∀ (later done : List ActionId) (scopes : List Scope), ids = done ++ later →
      holds done scopes → Yields (later.forM callback) site scopes fun _ after => holds ids after := by
    intro later
    induction later with
    | nil =>
      intro done scopes shape given
      rw [List.append_nil] at shape
      exact yields_pure (shape ▸ given)
    | cons id later ih =>
      intro done scopes shape given
      refine (each done id later scopes shape given).bind fun _ after next => ?_
      exact ih (done ++ [id]) after (by simp [shape]) next
  exact rest ids [] before rfl start

theorem quiet_forM (ids : List ActionId) {callback : ActionId → Step σ Unit}
    (quiet : ∀ id ∈ ids, (callback id).Quiet) : Quiet (ids.forM callback) := by
  intro site before
  refine yields_forM ids (fun _ after => after = before) rfl ?_
  intro done id later scopes shape same
  subst same
  exact quiet id (by simp [shape]) site scopes

theorem Quiet.bind {step : Step σ α} {next : α → Step σ β} (first : step.Quiet)
    (second : ∀ a, (next a).Quiet) : Quiet (step >>= next) := by
  intro site before
  refine (first site before).bind fun a scopes same => ?_
  rw [same]
  exact second a site before

theorem quiet_pure (a : α) : Quiet (pure a : Step σ α) := fun _ _ => yields_pure rfl

theorem quiet_throw (e : ActionError) : Quiet (throw e : Step σ α) := fun _ _ => yields_throw e _

end Step
end XmlRules
