import XmlRules.Proofs.Holdings
namespace XmlRules

-- A lookup has gone past the end of what there is.
inductive OutOfBounds {α : Type} : Except ActionError α → Prop where
  | intro (index size : Nat) : OutOfBounds (.error (.outOfRange index size))

def Workspace.Stocked {σ : Type} (ws : Workspace σ) : Prop :=
  ∀ ref ∈ ws.objects, ∃ o, ws.store.get? ref = some o

namespace Step
variable {σ α : Type}

theorem placeBelow_inside (objects : List Ref) (n : Nat) : ¬OutOfBounds (placeBelow objects n) := by
  unfold placeBelow
  split <;> exact nofun

-- Changes an object, which must be of a type, and tells what comes of it.
def alter (type : ObjectType) (f : Object → Object × α) (ref : Ref) : Step σ α := do
  let before ← expect type ref
  let (after, answer) := f before
  put ref after
  return answer

def withTop (type : ObjectType) (f : Object → Object × α) : Step σ α := do
  alter type f (← peek)

section Places
variable {site : Site} {ws : Workspace σ} {ref : Ref} {o : Object}

-- Behind the largest word the count starts again at zero, which is the place behind the bottom.
theorem peekAt_largest {n : UInt64} (largest : n.toNat + 1 = UInt64.size) :
    Step.perform (peekAt n) site ws =
      (.error (.outOfRange ws.objects.length ws.objects.length), ws) := by
  have next : (n + 1).toNat = 0 := by
    rw [UInt64.toNat_add]
    change (n.toNat + 1) % UInt64.size = 0
    rw [largest, Nat.mod_self]
  rw [perform_peekAt, next, if_neg (Nat.not_lt_zero _), Nat.sub_zero,
    List.getElem?_eq_none (by simp)]

theorem perform_withTop (type : ObjectType) (f : Object → Object × α) (site : Site)
    (ws : Workspace σ) : Step.perform (withTop type f) site ws =
      match ws.objects with
      | [] => (.error (.emptyStack "objects"), ws)
      | top :: _ => Step.perform (alter type f top) site ws := by
  have found := perform_peek site ws
  cases objects : ws.objects with
  | nil =>
    rw [objects] at found
    exact Attempt.perform_bind_error found fun top => alter type f top site
  | cons top rest =>
    rw [objects] at found
    exact Attempt.perform_bind_ok found fun top => alter type f top site

theorem perform_expect (type : ObjectType) (site : Site) (here : ws.store.get? ref = some o) :
    Step.perform (expect type ref) site ws =
      (if o.type = type then .ok o else .error (.typeMismatch type), ws) := by
  have seen : Step.perform (look ref) site ws = (.ok o, ws) := by
    rw [look, perform_get, here]
    rfl
  have went := Attempt.perform_bind_ok seen fun o =>
    (if o.type = type then pure o else throw (.typeMismatch type) : Step σ Object) site
  refine went.trans ?_
  split <;> rfl

theorem expect_inside (type : ObjectType) (site : Site) (here : ws.store.get? ref = some o) :
    ¬OutOfBounds (Step.perform (expect type ref) site ws).1 := by
  rw [perform_expect type site here]
  dsimp only
  split <;> exact nofun

theorem inside_bind {β : Type} {step : Step σ α} {next : α → Step σ β}
    (first : ¬OutOfBounds (Step.perform step site ws).1)
    (second : ∀ a middle, Step.perform step site ws = (.ok a, middle) →
      ¬OutOfBounds (Step.perform (next a) site middle).1) :
    ¬OutOfBounds (Step.perform (step >>= next) site ws).1 := by
  intro out
  cases run : Step.perform (step >>= next) site ws with
  | mk result last =>
    rw [run] at out
    obtain ⟨index, size⟩ := out
    rcases error_of_bind run with early | ⟨a, middle, ran, late⟩
    · rw [early] at first
      exact first (.intro index size)
    · have inside := second a middle ran
      rw [late] at inside
      exact inside (.intro index size)

theorem perform_alter (type : ObjectType) (f : Object → Object × α) (site : Site)
    (here : ws.store.get? ref = some o) : Step.perform (alter type f ref) site ws =
      if o.type = type then (.ok (f o).2, { ws with store := ws.store.put ref (f o).1 })
      else (.error (.typeMismatch type), ws) := by
  have read := perform_expect type site here
  split
  · rename_i typed
    rw [if_pos typed] at read
    exact Attempt.perform_bind_ok read fun before => (do
      let (after, answer) := f before
      put ref after
      return answer : Step σ α) site
  · rename_i mistyped
    rw [if_neg mistyped] at read
    exact Attempt.perform_bind_error read _

theorem alter_inside (type : ObjectType) (f : Object → Object × α) (site : Site)
    (here : ws.store.get? ref = some o) : ¬OutOfBounds (Step.perform (alter type f ref) site ws).1 := by
  rw [perform_alter type f site here]
  split <;> exact nofun

theorem withTop_inside (type : ObjectType) (f : Object → Object × α) (site : Site)
    (stocked : ws.Stocked) : ¬OutOfBounds (Step.perform (withTop type f) site ws).1 := by
  rw [perform_withTop]
  cases objects : ws.objects with
  | nil => exact nofun
  | cons top rest =>
    obtain ⟨o, here⟩ := stocked top (by simp [objects])
    exact alter_inside type f site here

end Places
end Step

section Uses
open Step
variable {σ : Type}

theorem Call.deliver_eq (c : Call) (frame : ParamFrame) :
    (c.deliver frame : Step σ Unit) =
      withTop c.target (fun target => c.invoke target frame) >>= fun result => ofExcept result := by
  simp only [Call.deliver, withTop, alter, bind_assoc, pure_bind]

def Link.connect (l : Link) (child parent : Ref) : Step σ Unit := do
  if child = parent then throw (.failed "cannot link an object to itself" none)
  let given ← expect l.child child
  let target ← expect l.parent parent
  put parent (l.join target given)

theorem Link.perform_end (l : Link) (name : QName) (site : Site) (ws : Workspace σ) :
    Step.perform ((l.behaviour : Behaviour σ).onEnd name) site ws =
      match ws.objects with
      | child :: parent :: _ => Step.perform (l.connect child parent) site ws
      | _ => (.error (.emptyStack "objects"), ws) := by
  have first := perform_peek site ws
  have second : Step.perform (peekAt 1) site ws = (placeBelow ws.objects 1, ws) :=
    peekAt_within (by decide)
  have shape : (l.behaviour : Behaviour σ).onEnd name = (do
      let child ← peek
      let parent ← peekAt 1
      l.connect child parent) := rfl
  rw [shape]
  cases objects : ws.objects with
  | nil =>
    rw [objects] at first
    exact Attempt.perform_bind_error first _
  | cons child rest =>
    rw [objects] at first second
    refine (Attempt.perform_bind_ok first fun child => (do
      let parent ← peekAt 1
      l.connect child parent : Step σ Unit) site).trans ?_
    cases rest with
    | nil => exact Attempt.perform_bind_error second _
    | cons parent rest =>
      exact Attempt.perform_bind_ok second fun parent => l.connect child parent site

theorem Link.connect_inside (l : Link) {child parent : Ref} (site : Site) {ws : Workspace σ}
    {given target : Object} (childHere : ws.store.get? child = some given)
    (parentHere : ws.store.get? parent = some target) :
    ¬OutOfBounds (Step.perform (l.connect child parent) site ws).1 := by
  change ¬OutOfBounds (Step.perform (ite _ _ _) site ws).1
  split
  · exact nofun
  · refine inside_bind (expect_inside l.child site childHere) fun given middle read => ?_
    obtain rfl := Moves.ran (reads_expect _ _) read
    exact inside_bind (expect_inside l.parent site parentHere) fun target middle _ => nofun

theorem Link.end_inside (l : Link) (name : QName) (site : Site) {ws : Workspace σ}
    (stocked : ws.Stocked) :
    ¬OutOfBounds (Step.perform ((l.behaviour : Behaviour σ).onEnd name) site ws).1 := by
  rw [l.perform_end]
  match objects : ws.objects with
  | [] => exact nofun
  | [child] => exact nofun
  | child :: parent :: rest =>
    obtain ⟨given, childHere⟩ := stocked child (by simp [objects])
    obtain ⟨target, parentHere⟩ := stocked parent (by simp [objects])
    exact l.connect_inside site childHere parentHere

-- For every stack and every word but the largest: what stands so many places below the top is found,
-- or the stack is said to be empty, and nothing is changed. With the largest word the lookup leaves
-- the stack behind. What goes through it asks for the first two places only: it is refused on a
-- stack too short for it, works on the objects that it has found on any other, and never misses it.
theorem places_below_top (n : UInt64) (site : Site) (ws : Workspace σ) :
    Step.perform (peekAt n) site ws =
        (if n.toNat + 1 < UInt64.size then placeBelow ws.objects n.toNat
          else .error (.outOfRange ws.objects.length ws.objects.length), ws) ∧
      Step.perform peek site ws = (placeBelow ws.objects 0, ws) ∧
      (∀ (α : Type) (type : ObjectType) (f : Object → Object × α),
        Step.perform (withTop type f) site ws =
          match ws.objects with
          | [] => (.error (.emptyStack "objects"), ws)
          | top :: _ => Step.perform (alter type f top) site ws) ∧
      (∀ (c : Call) (frame : ParamFrame), (c.deliver frame : Step σ Unit) =
        withTop c.target (fun target => c.invoke target frame) >>= fun result => ofExcept result) ∧
      (∀ (l : Link) (name : QName), Step.perform ((l.behaviour : Behaviour σ).onEnd name) site ws =
        match ws.objects with
        | child :: parent :: _ => Step.perform (l.connect child parent) site ws
        | _ => (.error (.emptyStack "objects"), ws)) ∧
      (ws.Stocked →
        ¬OutOfBounds (Step.perform peek site ws).1 ∧
        (∀ (α : Type) (type : ObjectType) (f : Object → Object × α),
          ¬OutOfBounds (Step.perform (withTop type f) site ws).1) ∧
        ∀ (l : Link) (name : QName),
          ¬OutOfBounds (Step.perform ((l.behaviour : Behaviour σ).onEnd name) site ws).1) := by
  refine ⟨?_, perform_peek site ws, fun α type f => perform_withTop type f site ws,
    Call.deliver_eq, fun l name => l.perform_end name site ws, fun stocked => ⟨?_, ?_, ?_⟩⟩
  · by_cases within : n.toNat + 1 < UInt64.size
    · rw [if_pos within]
      exact peekAt_within within
    · have bound : n.toNat < UInt64.size := n.toNat_lt_size
      rw [if_neg within]
      exact peekAt_largest (by omega)
  · rw [perform_peek]
    exact placeBelow_inside ws.objects 0
  · exact fun α type f => withTop_inside type f site stocked
  · exact fun l name => l.end_inside name site stocked

theorem places_below_top_of_two :
    let ws : Workspace Unit :=
      { store := ⟨#[.int 1, .int 2]⟩, objects := [⟨1⟩, ⟨0⟩], journal := () }
    let site : Site := { rules := .base {}, factory := {} }
    ws.Stocked ∧ Step.perform (peekAt 1) site ws = (.ok ⟨0⟩, ws) ∧
      ∀ (l : Link) (name : QName),
        ¬OutOfBounds (Step.perform ((l.behaviour : Behaviour Unit).onEnd name) site ws).1 := by
  intro ws site
  have stocked : ws.Stocked := by
    intro ref member
    have places : ref = ⟨1⟩ ∨ ref = ⟨0⟩ := by simpa [ws] using member
    rcases places with rfl | rfl
    · exact ⟨.int 2, rfl⟩
    · exact ⟨.int 1, rfl⟩
  obtain ⟨found, -, -, -, -, inside⟩ := places_below_top 1 site ws
  rw [if_pos (by decide)] at found
  exact ⟨stocked, found, (inside stocked).2.2⟩

theorem largest_place_behind_bottom :
    let ws : Workspace Unit := { store := ⟨#[.int 1]⟩, objects := [⟨0⟩], journal := () }
    let site : Site := { rules := .base {}, factory := {} }
    let n : UInt64 := 18446744073709551615
    ws.objects.length ≤ n.toNat ∧
      (Step.perform (peekAt n) site ws).1 = .error (.outOfRange 1 1) ∧
      (Step.perform (peekAt n) site ws).1 ≠ .error (.emptyStack "objects") := by
  intro ws site n
  have answer : Step.perform (peekAt n) site ws = (.error (.outOfRange 1 1), ws) :=
    peekAt_largest rfl
  rw [answer]
  exact ⟨by decide, rfl, by simp⟩

end Uses

end XmlRules
