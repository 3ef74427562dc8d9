import XmlRules.Proofs.ParamFrames
namespace XmlRules

-- A call that waits for the end of its element: how it began, whether another one has begun on the
-- same element since, and what has filled its frame so far.
structure Pending (σ : Type) where
  own : Callback σ
  crowded : Bool := false
  writers : List (Callback σ) := []

section Waiting
variable {σ : Type} (actions : ActionId → StockAction)

def Callback.deed (call : Callback σ) : Deed := (actions call.actor).deed call.occasion

def Callback.fill (frame : ParamFrame) (call : Callback σ) : ParamFrame :=
  (call.deed actions).onFrame frame

namespace Pending

def trail (p : Pending σ) : Trail := p.own.site.trail

def frame (p : Pending σ) : ParamFrame :=
  p.writers.foldl (Callback.fill actions) (p.own.deed actions).made

def beside (call : Callback σ) (p : Pending σ) : Pending σ :=
  { p with crowded := p.crowded || decide (p.trail = call.site.trail) }

def filledBy (calls : List (Callback σ)) (p : Pending σ) : Pending σ :=
  { p with writers := p.writers ++ calls }

end Pending

def Callback.await (pend : List (Pending σ)) (call : Callback σ) : List (Pending σ) :=
  match call.deed actions with
  | .opens _ => { own := call } :: pend.modifyHead (.beside call)
  | .fills _ _ => pend.modifyHead (.filledBy [call])
  | .closes => pend.tail
  | .nothing => pend

def awaiting (calls : List (Callback σ)) : List (Pending σ) :=
  calls.foldl (Callback.await actions) []

-- Calls that find the frames as the ones before have left them.
def Tracks : List ParamFrame → List (Callback σ) → List ParamFrame → Prop
  | frames, [], after => after = frames
  | frames, call :: calls, after =>
    call.work.params = frames ∧ Tracks ((call.deed actions).onFrames frames) calls after

variable {actions}

theorem awaiting_append (calls more : List (Callback σ)) :
    awaiting actions (calls ++ more) = more.foldl (Callback.await actions) (awaiting actions calls) :=
  List.foldl_append

theorem awaiting_snoc (calls : List (Callback σ)) (call : Callback σ) :
    awaiting actions (calls ++ [call]) = call.await actions (awaiting actions calls) :=
  awaiting_append calls [call]

theorem Tracks.append {frames middle after : List ParamFrame} {calls more : List (Callback σ)}
    (first : Tracks actions frames calls middle) (second : Tracks actions middle more after) :
    Tracks actions frames (calls ++ more) after := by
  induction calls generalizing frames with
  | nil =>
    obtain rfl : middle = frames := first
    exact second
  | cons call calls ih => exact ⟨first.1, ih first.2⟩

@[simp] theorem Pending.frame_beside (p : Pending σ) (call : Callback σ) :
    (p.beside call).frame actions = p.frame actions := rfl

theorem Pending.frame_filledBy (p : Pending σ) (calls : List (Callback σ)) :
    (p.filledBy calls).frame actions =
      calls.foldl (Callback.fill actions) (p.frame actions) :=
  List.foldl_append

theorem frames_await (pend : List (Pending σ)) (call : Callback σ) :
    (call.await actions pend).map (·.frame actions) =
      (call.deed actions).onFrames (pend.map (·.frame actions)) := by
  unfold Callback.await
  cases deed : call.deed actions with
  | opens size =>
    have fresh : Pending.frame actions { own := call } = List.replicate size none := by
      simp [Pending.frame, deed, Deed.made]
    cases pend <;> simp [Deed.onFrames, fresh]
  | fills index value =>
    cases pend <;> simp [Deed.onFrames, Pending.frame_filledBy, Callback.fill, deed, Deed.onFrame]
  | closes => exact List.map_tail
  | nothing => rfl

theorem Tracks.frames {pend : List (Pending σ)} {calls : List (Callback σ)} {after : List ParamFrame}
    (tracks : Tracks actions (pend.map (·.frame actions)) calls after) :
    after = (calls.foldl (Callback.await actions) pend).map (·.frame actions) := by
  induction calls generalizing pend with
  | nil => exact tracks
  | cons call calls ih =>
    have rest := tracks.2
    rw [← frames_await] at rest
    exact ih rest

theorem deed_idle {call : Callback σ} (idle : call.occasion.idle) : call.deed actions = .nothing := by
  unfold Callback.deed
  cases occasion : call.occasion with
  | start | segment | finish => cases actions call.actor <;> rfl
  | begin | body | ending =>
    rw [occasion] at idle
    cases idle

theorem await_idle {pend : List (Pending σ)} {more : List (Callback σ)}
    (idle : ∀ call ∈ more, call.occasion.idle) : more.foldl (Callback.await actions) pend = pend := by
  induction more with
  | nil => rfl
  | cons call more ih =>
    have rests : call.await actions pend = pend := by
      simp only [Callback.await, deed_idle (idle call (by simp))]
    rw [List.foldl_cons, rests]
    exact ih fun other member => idle other (List.mem_cons_of_mem _ member)

def Callback.Calls (actions : ActionId → StockAction) (own : Callback σ) : Bool :=
  match actions own.actor with
  | .call _ => true
  | _ => false

def Deed.Calm : Deed → Prop
  | .fills _ _ | .nothing => True
  | .opens _ | .closes => False

theorem Param.calm (p : Param) (occasion : Occasion) : (p.deed occasion).Calm := by
  obtain ⟨index, source⟩ := p
  cases occasion with
  | begin | body => cases source <;> trivial
  | start | segment | ending | finish => trivial

theorem Call.calm (c : Call) {occasion : Occasion} (aside : occasion.aside) :
    (c.deed occasion).Calm := by
  cases occasion with
  | begin | ending => cases aside
  | body name text =>
    change (if c.arity = 0 then Deed.fills 0 (some text) else .nothing).Calm
    split <;> trivial
  | start | segment | finish => trivial

theorem own_await_calm {pend : List (Pending σ)} {call : Callback σ} (calm : (call.deed actions).Calm) :
    (call.await actions pend).map Pending.own = pend.map Pending.own := by
  unfold Callback.await
  cases deed : call.deed actions with
  | fills index value => cases pend <;> rfl
  | nothing => rfl
  | opens | closes =>
    rw [deed] at calm
    cases calm

theorem own_await_call {pend : List (Pending σ)} {held : List (Callback σ)} {call : Callback σ}
    {c : Call} (kind : actions call.actor = .call c)
    (same : pend.map Pending.own = held.filter (Callback.Calls actions))
    (proper : call.Proper actions held) :
    (call.await actions pend).map Pending.own =
      (call.tally actions held).filter (Callback.Calls actions) := by
  have holds : (actions call.actor).holds := by rw [kind]; rfl
  have calls : call.Calls actions := by rw [Callback.Calls, kind]
  cases occasion : call.occasion with
  | begin name attrs =>
    have opens : call.deed actions = .opens c.frameSize := by
      rw [Callback.deed, kind, occasion]
      rfl
    rw [Callback.tally_begin holds occasion, List.filter_cons_of_pos calls, ← same]
    unfold Callback.await
    rw [opens]
    cases pend <;> rfl
  | ending name =>
    have closes : call.deed actions = .closes := by
      rw [Callback.deed, kind, occasion]
      rfl
    simp only [Callback.Proper, kind, occasion] at proper
    obtain ⟨own, rest, rfl, popped⟩ := proper
    have first : own.Calls actions := by rw [Callback.Calls, popped.actor, kind]
    rw [List.filter_cons_of_pos first] at same
    rw [Callback.tally_ending holds occasion]
    unfold Callback.await
    rw [closes]
    exact List.map_tail.trans (congrArg List.tail same)
  | start | segment | body | finish =>
    have aside : call.occasion.aside := by rw [occasion]; rfl
    have calm : (call.deed actions).Calm := by
      rw [Callback.deed, kind]
      exact c.calm aside
    rw [own_await_calm calm, Callback.tally_calm fun _ => aside, same]

theorem own_await {pend : List (Pending σ)} {held : List (Callback σ)} {call : Callback σ}
    (same : pend.map Pending.own = held.filter (Callback.Calls actions))
    (proper : call.Proper actions held) :
    (call.await actions pend).map Pending.own =
      (call.tally actions held).filter (Callback.Calls actions) := by
  cases kind : actions call.actor with
  | call c => exact own_await_call kind same proper
  | create c =>
    have calm : (call.deed actions).Calm := by
      rw [Callback.deed, kind]
      trivial
    have holds : (actions call.actor).holds := by rw [kind]; rfl
    have makes : ¬ call.Calls actions := by simp [Callback.Calls, kind]
    rw [own_await_calm calm, same]
    cases occasion : call.occasion with
    | begin name attrs =>
      rw [Callback.tally_begin holds occasion, List.filter_cons_of_neg makes]
    | ending name =>
      simp only [Callback.Proper, kind, occasion] at proper
      obtain ⟨own, rest, rfl, popped⟩ := proper
      have first : ¬ own.Calls actions := by simp [Callback.Calls, popped.actor, kind]
      rw [Callback.tally_ending holds occasion, List.filter_cons_of_neg first]
      rfl
    | start | segment | body | finish =>
      rw [Callback.tally_calm fun _ => by rw [occasion]; rfl]
  | link | param | nested =>
    have calm : (call.deed actions).Calm := by
      rw [Callback.deed, kind]
      first | trivial | exact Param.calm _ _
    have free : ¬ (actions call.actor).holds := by simp [kind, StockAction.holds]
    rw [own_await_calm calm, same, Callback.tally_calm fun holds => absurd holds free]

theorem own_awaiting {calls : List (Callback σ)} (proper : AllProper actions calls) :
    (awaiting actions calls).map Pending.own =
      (unended actions calls).filter (Callback.Calls actions) := by
  induction calls using List.reverseRecOn with
  | nil => rfl
  | append_singleton calls call ih =>
    have earlier : AllProper actions calls := by
      intro before other later shape
      exact proper before other (later ++ [call]) (by simp [shape])
    rw [awaiting_snoc, unended_snoc]
    exact own_await (ih earlier) (proper calls call [] rfl)

theorem fills_cases {call : Callback σ} {index : Nat} {value : Option String}
    (fills : call.deed actions = .fills index value) :
    (∃ p, actions call.actor = .param p) ∨
      ∃ c name text, actions call.actor = .call c ∧ c.arity = 0 ∧ call.occasion = .body name text := by
  unfold Callback.deed at fills
  cases kind : actions call.actor with
  | param p => exact .inl ⟨p, rfl⟩
  | create | link | nested =>
    rw [kind] at fills
    cases fills
  | call c =>
    rw [kind] at fills
    cases occasion : call.occasion with
    | body name text =>
      rw [occasion] at fills
      change (if c.arity = 0 then Deed.fills 0 (some text) else .nothing) = _ at fills
      split at fills
      · rename_i alone
        exact .inr ⟨c, name, text, rfl, alone, rfl⟩
      · cases fills
    | start | begin | segment | ending | finish =>
      rw [occasion] at fills
      cases fills

theorem closes_cases {call : Callback σ} (closes : call.deed actions = .closes) :
    (∃ c, actions call.actor = .call c) ∧ ∃ name, call.occasion = .ending name := by
  unfold Callback.deed at closes
  cases kind : actions call.actor with
  | create | link | nested =>
    rw [kind] at closes
    cases closes
  | param p =>
    rw [kind] at closes
    have calm := p.calm call.occasion
    rw [show p.deed call.occasion = .closes from closes] at calm
    cases calm
  | call c =>
    refine ⟨⟨c, rfl⟩, ?_⟩
    cases occasion : call.occasion with
    | ending name => exact ⟨name, rfl⟩
    | begin name attrs =>
      rw [kind, occasion] at closes
      cases closes
    | start | segment | body | finish =>
      have calm := c.calm (show call.occasion.aside by rw [occasion]; rfl)
      rw [kind] at closes
      rw [show c.deed call.occasion = .closes from closes] at calm
      cases calm

theorem calm_body {call : Callback σ} {name : QName} {text : String}
    (told : call.occasion = .body name text) : call.deed actions = .nothing ∨
      ∃ index, call.deed actions = .fills index (some text) := by
  unfold Callback.deed
  rw [told]
  cases actions call.actor with
  | create | link | nested => exact .inl rfl
  | param p =>
    obtain ⟨index, source⟩ := p
    cases source with
    | body => exact .inr ⟨index, rfl⟩
    | _ => exact .inl rfl
  | call c =>
    change (if c.arity = 0 then Deed.fills 0 (some text) else .nothing) = _ ∨ _
    by_cases alone : c.arity = 0
    · exact .inr ⟨0, if_pos alone⟩
    · exact .inl (if_neg alone)

def Deed.isFill : Deed → Bool
  | .fills _ _ => true
  | _ => false

theorem Pending.filledBy_filledBy (p : Pending σ) (calls more : List (Callback σ)) :
    (p.filledBy calls).filledBy more = p.filledBy (calls ++ more) := by
  simp [filledBy]

-- While an element is told its body text, only the innermost frame is filled.
theorem await_bodies {pend : List (Pending σ)} {more : List (Callback σ)} {name : QName}
    {text : String} (told : ∀ call ∈ more, call.occasion.idle ∨ call.occasion = .body name text) :
    more.foldl (Callback.await actions) pend =
      pend.modifyHead (.filledBy (more.filter fun call => (call.deed actions).isFill)) := by
  induction more generalizing pend with
  | nil => cases pend <;> simp [Pending.filledBy]
  | cons call more ih =>
    have later := fun other member => told other (List.mem_cons_of_mem call member)
    rw [List.foldl_cons, ih later]
    have deeds : call.deed actions = .nothing ∨ ∃ index, call.deed actions = .fills index (some text) :=
      (told call List.mem_cons_self).elim (fun idle => .inl (deed_idle idle)) calm_body
    rcases deeds with rests | ⟨index, fills⟩
    · simp only [Callback.await, rests, List.filter_cons, Deed.isFill, Bool.false_eq_true, if_false]
    · cases pend <;> simp [Callback.await, fills, Deed.isFill, Pending.filledBy_filledBy]

theorem closed_of_gone {pend : List (Pending σ)} {more : List (Callback σ)} {own : Callback σ}
    (waits : own ∈ pend.map Pending.own)
    (gone : own ∉ (more.foldl (Callback.await actions) pend).map Pending.own) :
    ∃ early call late p rest, more = early ++ call :: late ∧ call.deed actions = .closes ∧
      early.foldl (Callback.await actions) pend = p :: rest ∧ p.own = own := by
  induction more generalizing pend with
  | nil => exact absurd waits gone
  | cons call more ih =>
    by_cases still : own ∈ (call.await actions pend).map Pending.own
    · obtain ⟨early, closer, late, p, rest, rfl, closes, first, same⟩ := ih still gone
      exact ⟨call :: early, closer, late, p, rest, rfl, closes, first, same⟩
    · refine ⟨[], call, more, ?_⟩
      cases deed : call.deed actions with
      | fills | nothing =>
        rw [own_await_calm (by rw [deed]; trivial)] at still
        exact absurd waits still
      | opens size =>
        have kept : (call.await actions pend).map Pending.own = call :: pend.map Pending.own := by
          rw [Callback.await, deed]
          cases pend <;> rfl
        rw [kept] at still
        exact absurd (List.mem_cons_of_mem call waits) still
      | closes =>
        cases pend with
        | nil => cases waits
        | cons p rest =>
          rw [Callback.await, deed] at still
          exact ⟨p, rest, rfl, rfl, rfl, ((List.mem_cons.mp waits).resolve_right still).symm⟩

end Waiting

end XmlRules
