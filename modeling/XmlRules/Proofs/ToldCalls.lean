import XmlRules.Proofs.ElementStacks
import XmlRules.Proofs.PendingCalls
namespace XmlRules
open Step NestedRules

-- The actions have been called on one occasion at one place, and on idle ones besides, and each call
-- has found the frames of parameters as the ones before have left them.
def Workspace.Told {σ : Type} (actions : ActionId → StockAction) (occasion : Occasion) (site : Site)
    (ws after : Workspace (Logged σ)) : Prop :=
  ∃ more : List (Callback σ), after.journal.calls = ws.journal.calls ++ more ∧
    Tracks actions ws.params more after.params ∧
      ∀ call ∈ more, call.occasion.idle ∨ call.site = site ∧ call.occasion = occasion

section Telling
variable {σ : Type} {actions : ActionId → StockAction} {site : Site}
  {ws middle after : Workspace (Logged σ)}

theorem Workspace.Told.of_same {occasion : Occasion} (journal : after.journal = ws.journal)
    (params : after.params = ws.params) : ws.Told actions occasion site after :=
  ⟨[], by simp [journal], params, by simp⟩

theorem Workspace.Told.trans {occasion : Occasion} (first : ws.Told actions occasion site middle)
    (second : middle.Told actions occasion site after) : ws.Told actions occasion site after := by
  obtain ⟨more, calls, tracks, told⟩ := first
  obtain ⟨rest, others, further, still⟩ := second
  refine ⟨more ++ rest, by rw [others, calls, List.append_assoc], tracks.append further, ?_⟩
  intro call member
  rcases List.mem_append.mp member with early | late
  · exact told call early
  · exact still call late

theorem lasting_told (occasion : Occasion) :
    Lasting (Workspace.Told actions occasion : Site → Workspace (Logged σ) → _) where
  kept := .of_same rfl rfl
  chained := .trans
  opens _ _ _ _ _ := .of_same rfl rfl
  closes owner := by
    refine Moves.bind (fun here there => here.trans there)
      (reads_depth.moves fun _ _ => .of_same rfl rfl) fun here => ?_
    apply moves_get
    intro ws site
    split <;> exact .of_same rfl rfl

theorem told_stock (actions : ActionId → StockAction) (told : Occasion) (depth : Nat) (id : ActionId)
    {occasion : Occasion} (on : occasion = told ∨ occasion.idle) :
    (occasion.answer (recordedStock actions depth id : Behaviour (Logged σ))).Moves
      (Workspace.Told actions told) := by
  induction depth generalizing id occasion with
  | zero => cases occasion <;> exact (lasting_told told).reads (reads_throw .tooDeep)
  | succ depth ih =>
    cases leaf : (actions id).nested? with
    | none =>
      intro site ws
      rw [recordedStock_of_leaf leaf, Catalogue.answer_recorded, Step.perform_recorded]
      refine ⟨_, rfl, ⟨rfl, StockAction.does leaf occasion site ws.plain⟩, ?_⟩
      simpa using on.symm
    | some n =>
      rw [recordedStock_of_nested leaf]
      exact (lasting_told told).behaviour (fun id occasion on => ih id on) (.inr rfl) (.inr rfl) n id on

end Telling

def Workspace.Reaches {σ : Type} (actions : ActionId → StockAction) (occasion : Occasion)
    (ids : List ActionId) (ws after : Workspace (Logged σ)) : Prop :=
  ∃ more : List (Callback σ), after.journal.calls = ws.journal.calls ++ more ∧
    ∀ id, (actions id).holds →
      ((∃ call ∈ more, call.actor = id ∧ call.occasion = occasion) ↔ id ∈ ids)

section Reaching
variable {σ : Type} {actions : ActionId → StockAction} {site : Site} {m : Mount}
  {ws middle after : Workspace (Logged σ)} {name : QName} {text : String}

theorem Workspace.Reaches.append {occasion : Occasion} {ids others : List ActionId}
    (first : ws.Reaches actions occasion ids middle)
    (second : middle.Reaches actions occasion others after) :
    ws.Reaches actions occasion (ids ++ others) after := by
  obtain ⟨more, calls, reached⟩ := first
  obtain ⟨rest, further, still⟩ := second
  refine ⟨more ++ rest, by rw [further, calls, List.append_assoc], fun id holds => ?_⟩
  rw [List.mem_append, ← reached id holds, ← still id holds]
  simp only [List.mem_append, or_and_right, exists_or]

theorem reaches_each {depth : Nat}
    (single : ∀ (id : ActionId) (ws : Workspace (Logged σ)), Mounted actions m ws.scopes →
      ((recordedStock actions depth id).onBody name text).Ends site ws
        (fun _ t => t.scopes = ws.scopes ∧
          ws.Reaches actions (.body name text) (holders actions m depth id) t) fun _ => True)
    (ids : List ActionId) (mounted : Mounted actions m ws.scopes) :
    Step.Ends (ids.forM fun id => (recordedStock actions depth id).onBody name text) site ws
      (fun _ t => t.scopes = ws.scopes ∧
        ws.Reaches actions (.body name text) (ids.flatMap (holders actions m depth)) t)
      fun _ => True := by
  induction ids generalizing ws with
  | nil => exact ends_pure ⟨rfl, [], by simp, by simp⟩
  | cons id ids ih =>
    refine (single id ws mounted).bind fun _ t told => ?_
    refine (ih (told.1 ▸ mounted)).weaken fun _ _ others => ?_
    exact ⟨others.1.trans told.1, told.2.append others.2⟩

theorem reaches_leaf {id : ActionId} (leaf : (actions id).nested? = none) (depth : Nat) :
    ((recordedStock actions (depth + 1) id).onBody name text).Ends site ws
      (fun _ => ws.Reaches actions (.body name text) (holders actions m (depth + 1) id))
      fun _ => True := by
  have ran := Step.perform_recorded id (.body name text)
    (Occasion.answer (leaves actions id) (.body name text)) site ws
  rw [← Catalogue.answer_recorded, ← recordedStock_of_leaf leaf depth] at ran
  refine ⟨fun _ t ended => ?_, fun _ _ _ => trivial⟩
  obtain ⟨_, rfl⟩ := Prod.mk.inj (ran.symm.trans ended)
  refine ⟨_, rfl, fun other holds => ?_⟩
  rw [holders_of_leaf leaf]
  by_cases same : id = other
  · simp [same, holds]
  · have away : other ≠ id := fun equal => same equal.symm
    split <;> simp [same, away]

theorem reaches_body (here : m.depth = site.trail.depth) (depth : Nat) (name : QName) (text : String)
    (id : ActionId) (mounted : Mounted actions m ws.scopes) :
    ((recordedStock actions depth id).onBody name text).Ends site ws
      (fun _ t => t.scopes = ws.scopes ∧
        ws.Reaches actions (.body name text) (holders actions m depth id) t) fun _ => True := by
  induction depth generalizing id ws with
  | zero => exact ends_throw .tooDeep trivial
  | succ depth ih =>
    cases nests : (actions id).nested? with
    | none =>
      exact (reaches_leaf nests depth).yielding
        ((nesting_recorded actions).quiet_aside (.body name text) rfl (depth + 1) id _ _) rfl
    | some n =>
      rw [recordedStock_of_nested nests]
      have read : (NestedRules.mounted id).Ends site ws (fun _ t => t = ws) fun _ => True :=
        ⟨fun _ _ ran => Moves.ran (reads_mounted id) ran, fun _ _ _ => trivial⟩
      refine (read.yielding (yields_mounted id) rfl).bind fun ids t known => ?_
      obtain ⟨⟨⟨scope, found, rfl⟩, _⟩, rfl⟩ := known
      rw [← here] at found
      rw [holders_of_mounted mounted found]
      exact reaches_each (fun id _ => ih id) scope.mountActions mounted

end Reaching

def Workspace.EndsWell {σ : Type} (ws after : Workspace (Logged σ)) : Prop :=
  ∃ more : List (Callback σ), after.journal.calls = ws.journal.calls ++ more ∧
    ∀ call ∈ more, ∀ name, call.occasion = .ending name → call.result = .ok ()

section Ending
variable {σ : Type} {actions : ActionId → StockAction} {site : Site}
  {ws middle after : Workspace (Logged σ)}

theorem Workspace.EndsWell.trans (first : ws.EndsWell middle) (second : middle.EndsWell after) :
    ws.EndsWell after := by
  obtain ⟨more, calls, well⟩ := first
  obtain ⟨rest, others, still⟩ := second
  refine ⟨more ++ rest, by rw [others, calls, List.append_assoc], fun call member => ?_⟩
  exact (List.mem_append.mp member).elim (well call) (still call)

theorem Workspace.Told.endsWell {occasion : Occasion} (told : ws.Told actions occasion site after)
    (other : ∀ name, occasion ≠ .ending name) : ws.EndsWell after := by
  obtain ⟨more, calls, _, told⟩ := told
  refine ⟨more, calls, fun call member name ends => ?_⟩
  rcases told call member with idle | ⟨_, same⟩
  · rw [ends] at idle
    cases idle
  · exact absurd (same.symm.trans ends) (other name)

theorem Workspace.Idle.endsWell (idle : ws.Idle after) : ws.EndsWell after := by
  obtain ⟨more, calls, idle⟩ := idle.calls
  refine ⟨more, calls, fun call member name ends => ?_⟩
  have aside := idle call member
  rw [ends] at aside
  cases aside

theorem Step.Idles.endsWell {α : Type} {step : Step (Logged σ) α} (idles : step.Idles) :
    step.Ends site ws (fun _ => ws.EndsWell) fun _ => True :=
  ⟨fun _ _ ran => (Moves.ran idles ran).endsWell, fun _ _ _ => trivial⟩

theorem endsWell_each {step : ActionId → Step (Logged σ) Unit}
    (single : ∀ id (ws : Workspace (Logged σ)),
      (step id).Ends site ws (fun _ => ws.EndsWell) fun _ => True) (ids : List ActionId) :
    Step.Ends (ids.forM step) site ws (fun _ => ws.EndsWell) fun _ => True :=
  ends_forM (fun id _ t well => (single id t).weaken fun _ _ further => well.trans further)
    ⟨[], by simp, by simp⟩

-- An end that is answered well has not failed anywhere inside.
theorem endsWell_ending (depth : Nat) (name : QName) (id : ActionId) :
    ((recordedStock actions depth id).onEnd name).Ends site ws (fun _ => ws.EndsWell)
      fun _ => True := by
  induction depth generalizing id ws with
  | zero => exact ends_throw .tooDeep trivial
  | succ depth ih =>
    cases nests : (actions id).nested? with
    | none =>
      have ran := Step.perform_recorded id (.ending name)
        (Occasion.answer (leaves actions id) (.ending name)) site ws
      rw [← Catalogue.answer_recorded, ← recordedStock_of_leaf nests depth] at ran
      refine ⟨fun _ t ended => ?_, fun _ _ _ => trivial⟩
      obtain ⟨fine, rfl⟩ := Prod.mk.inj (ran.symm.trans ended)
      exact ⟨_, rfl, by simpa using fine⟩
    | some n =>
      rw [recordedStock_of_nested nests]
      refine ((reads_mounted id).idles.endsWell).bind fun ids t before => ?_
      refine (ends_failure? (endsWell_each (fun id _ => ih id) ids.reverse)).bind ?_
      intro failed t ended
      refine ((idles_closeOwnedScope _).endsWell).bind fun scope t closed => ?_
      refine (ends_failure? (idles_finish actions depth scope.rules.actions).endsWell).bind ?_
      intro unfinished t finished
      rcases ended with ⟨rfl, ended⟩ | ⟨⟨e, rfl⟩, _⟩
      · rcases finished with ⟨rfl, finished⟩ | ⟨⟨e, rfl⟩, _⟩
        · exact ends_pure (before.trans (ended.trans (closed.trans finished)))
        · exact ends_throw e trivial
      · exact ends_throw e trivial

end Ending
end XmlRules
