import XmlRules.Proofs.SettledCalls
import XmlRules.Proofs.ToldCalls
namespace XmlRules

-- All calls that have ended were fair, and those that wait stand in order, each with its frame.
structure Attended {σ : Type} (actions : ActionId → StockAction) (ws : Workspace (Logged σ)) :
    Prop where
  fair : AllFair actions ws.journal.calls
  orderly : Orderly actions (awaiting actions ws.journal.calls)
  frames : ws.params = (awaiting actions ws.journal.calls).map (·.frame actions)

section Attending
open Step
variable {σ : Type} {actions : ActionId → StockAction} {occasion : Occasion} {site : Site}
  {ws after : Workspace (Logged σ)}

def Fairly (actions : ActionId → StockAction) (ws : Workspace (Logged σ)) : Prop :=
  AllFair actions ws.journal.calls

theorem Workspace.Told.fairly (told : ws.Told actions occasion site after)
    (other : ∀ name, occasion ≠ .ending name) (fair : Fairly actions ws) : Fairly actions after := by
  obtain ⟨more, calls, _, told⟩ := told
  unfold Fairly
  rw [calls]
  refine AllFair.append fair fun call member name ends => ?_
  rcases told call member with idle | ⟨_, same⟩
  · rw [ends] at idle
    cases idle
  · exact other name (same.symm.trans ends)

theorem Workspace.Told.frames (told : ws.Told actions occasion site after)
    (frames : ws.params = (awaiting actions ws.journal.calls).map (·.frame actions)) :
    after.params = (awaiting actions after.journal.calls).map (·.frame actions) := by
  obtain ⟨more, calls, tracks, _⟩ := told
  rw [frames] at tracks
  rw [calls, awaiting_append]
  exact tracks.frames

theorem Attended.idle (attended : Attended actions ws) (told : ws.Told actions occasion site after)
    (idle : occasion.idle) : Attended actions after := by
  have other : ∀ name, occasion ≠ .ending name := by
    rintro name rfl
    cases idle
  refine ⟨told.fairly other attended.fair, ?_, told.frames attended.frames⟩
  obtain ⟨more, calls, _, told⟩ := told
  rw [calls, awaiting_append, await_idle]
  · exact attended.orderly
  · exact fun call member => (told call member).elim id fun same => same.2 ▸ idle

theorem Attended.begun (attended : Attended actions ws) {name : QName} {attrs : Attributes}
    (fresh : ∀ p ∈ awaiting actions ws.journal.calls, p.trail ≠ site.trail)
    (told : ws.Told actions (.begin name attrs) site after) : Attended actions after := by
  refine ⟨told.fairly (by simp) attended.fair, ?_, told.frames attended.frames⟩
  obtain ⟨more, calls, _, told⟩ := told
  rw [calls, awaiting_append]
  refine ((attended.orderly.opening fresh).begins fun call member => ?_).toOrderly
  exact (told call member).imp id fun same => ⟨congrArg Site.trail same.1, name, attrs, same.2⟩

theorem told_each (actions : ActionId → StockAction) (depth : Nat) (occasion : Occasion)
    (ids : List ActionId) : Step.Moves (Workspace.Told actions occasion : Site → Workspace (Logged σ) → _)
      (ids.forM fun id => occasion.answer (recordedStock actions depth id)) :=
  (lasting_told occasion).forM (fun id _ on => told_stock actions occasion depth id on) (.inl rfl) ids

theorem Step.Moves.ends {α : Type} {allowed : Site → Workspace σ → Workspace σ → Prop}
    {step : Step σ α} (moves : step.Moves allowed) (site : Site) (ws : Workspace σ) :
    step.Ends site ws (fun _ => allowed site ws) (allowed site ws) :=
  ⟨fun _ _ ran => Moves.ran moves ran, fun _ _ ran => Moves.ran moves ran⟩

end Attending

theorem Attempt.Ends.and {ε τ α : Type} {step : Attempt ε τ α} {s : τ} {after other : α → τ → Prop}
    {failed fault : τ → Prop} (left : Ends step s after failed) (right : Ends step s other fault) :
    Ends step s (fun a t => after a t ∧ other a t) fun t => failed t ∧ fault t :=
  ⟨fun a t ran => ⟨left.1 a t ran, right.1 a t ran⟩, fun e t ran => ⟨left.2 e t ran, right.2 e t ran⟩⟩

theorem Step.Ends.and {τ α : Type} {step : Step τ α} {site : Site} {ws : Workspace τ}
    {after other : α → Workspace τ → Prop} {failed fault : Workspace τ → Prop}
    (left : step.Ends site ws after failed) (right : step.Ends site ws other fault) :
    step.Ends site ws (fun a t => after a t ∧ other a t) fun t => failed t ∧ fault t :=
  Attempt.Ends.and left right

theorem Attempt.Ends.fails {ε τ α : Type} {step : Attempt ε τ α} {s : τ} {after : α → τ → Prop}
    {failed fault : τ → Prop} (ends : Ends step s after failed) (implied : ∀ t, failed t → fault t) :
    Ends step s after fault :=
  ⟨ends.1, fun e t ran => implied t (ends.2 e t ran)⟩

namespace Context
open Step
variable {σ : Type} {actions : ActionId → StockAction} {depth : Nat} {base : Workspace σ}
  {root : Registry} {tags : List OpenTag} {held : List (Callback σ)} {ctx : Context (Logged σ)}

theorem ends_told (occasion : Occasion) {phase : Phase} {path : String} (ids : List ActionId) :
    Attempt.Ends (performAll (recordedStock actions depth) phase path (occasion.answer ·) ids) ctx
      (fun _ next => ∃ work, next = { ctx with work } ∧ ctx.work.Told actions occasion ctx.site work)
      (fun next => ctx.work.Told actions occasion ctx.site next.work) :=
  ends_performAll ((told_each actions depth occasion ids).ends ctx.site ctx.work)

theorem attended_flush (depth : Nat) (attended : Attended actions ctx.work) :
    Attempt.Ends (flush (recordedStock actions depth)) ctx (fun _ next => Attended actions next.work)
      (fun next => Fairly actions next.work) := by
  apply Attempt.Ends.get
  split
  · exact .pure attended
  · rename_i frame frames shape
    split
    · exact .pure attended
    · apply Attempt.Ends.set
      refine ((ends_told (.segment frame.name frame.segment) _).weaken fun _ next told => ?_).fails ?_
      · obtain ⟨work, rfl, told⟩ := told
        exact attended.idle told rfl
      · exact fun next told => told.fairly (by simp) attended.fair

theorem depth_of_keeper {id : ActionId} {trail : Trail}
    (keeps : (id, trail) ∈ keepers actions depth root tags) : trail.depth ≤ tags.length := by
  induction tags with
  | nil => cases keeps
  | cons tag tags ih =>
    rcases List.mem_append.mp keeps with own | further
    · obtain ⟨_, _, same⟩ := List.mem_map.mp (List.mem_reverse.mp own)
      rw [← (Prod.mk.inj same).2, depth_trailOf]
    · exact Nat.le_succ_of_le (ih further)

theorem Stands.own_awaiting (stands : Stands actions depth base root tags held ctx) :
    (awaiting actions ctx.work.journal.calls).map Pending.own =
      held.filter (Callback.Calls actions) := by
  rw [XmlRules.own_awaiting stands.holding.proper, stands.holding.record]

theorem Stands.depth_of_waiting (stands : Stands actions depth base root tags held ctx) :
    ∀ p ∈ awaiting actions ctx.work.journal.calls, p.trail.depth ≤ tags.length := by
  intro p member
  have own := List.mem_map_of_mem (f := Pending.own) member
  rw [stands.own_awaiting] at own
  have keeps := List.mem_map_of_mem (f := Callback.holder) (List.mem_of_mem_filter own)
  rw [stands.kept] at keeps
  exact depth_of_keeper keeps

theorem Stands.attended_openElement (stands : Stands actions depth base root tags held ctx)
    (attended : Attended actions ctx.work) (name : QName) (attrs : Attributes)
    (declared : List (String × String)) :
    Attempt.Ends (Context.openElement (recordedStock actions depth) name attrs declared) ctx
      (fun _ next => Attended actions next.work) (fun next => Fairly actions next.work) := by
  unfold Attempt.Ends
  rw [perform_openElement]
  have flushed := (stands.ends_flush.and (attended_flush depth attended)).fails fun _ => And.right
  refine flushed.bind fun _ t between => ?_
  obtain ⟨stands, attended⟩ := between
  have fresh : ∀ p ∈ awaiting actions t.work.journal.calls,
      p.trail ≠ (t.site.enter name declared).trail := by
    intro p member same
    have within := stands.depth_of_waiting p member
    rw [same, stands.follows.trail_enter (name, attrs), depth_trailOf,
      List.length_cons] at within
    omega
  apply Attempt.Ends.get
  apply Attempt.Ends.set
  refine ((ends_told (.begin name attrs) _).weaken fun _ next told => ?_).fails ?_
  · obtain ⟨work, rfl, told⟩ := told
    exact attended.begun fresh told
  · exact fun next told => told.fairly (by simp) attended.fair

structure Parted (actions : ActionId → StockAction) (trail : Trail) (ids : List ActionId)
    (pend top outer : List (Pending σ)) : Prop where
  pend : pend = top ++ outer
  here : ∀ p ∈ top, p.trail = trail
  apart : ∀ p ∈ outer, p.trail ≠ trail
  known : ∀ p ∈ top, p.own.actor ∈ ids
  found : ∀ id ∈ ids, ∀ c, actions id = .call c → ∃ p ∈ top, p.own.actor = id

theorem Stands.parted {tag : OpenTag} (stands : Stands actions depth base root (tag :: tags) held ctx) :
    let level := innermost actions depth root tags tag
    ∃ top outer closed rest, held = closed ++ rest ∧
      rest.map Callback.holder = keepers actions depth root tags ∧
      outer.map Pending.own = rest.filter (Callback.Calls actions) ∧
      Parted actions ctx.site.trail (level.actions.flatMap (holders actions level.mount depth))
        (awaiting actions ctx.work.journal.calls) top outer := by
  intro level
  have waits := stands.own_awaiting
  obtain ⟨closed, rest, rfl, own, further⟩ := List.map_eq_append_iff.mp stands.kept
  rw [List.filter_append] at waits
  obtain ⟨top, outer, shape, first, second⟩ := List.map_eq_append_iff.mp waits
  have holder {p : Pending σ} (member : p ∈ top) :
      p.own ∈ closed ∧ ∃ id ∈ level.actions.flatMap (holders actions level.mount depth),
        (id, trailOf (tag :: tags)) = p.own.holder := by
    have kept := List.mem_map_of_mem (f := Pending.own) member
    rw [first] at kept
    have inside := List.mem_of_mem_filter kept
    have known := List.mem_map_of_mem (f := Callback.holder) inside
    rw [own] at known
    exact ⟨inside, List.mem_map.mp (List.mem_reverse.mp known)⟩
  refine ⟨top, outer, closed, rest, rfl, further, second, shape, ?_, ?_, ?_, ?_⟩
  · intro p member
    obtain ⟨_, _, _, same⟩ := holder member
    rw [stands.follows.trail]
    exact (congrArg Prod.snd same).symm
  · intro p member same
    have kept := List.mem_map_of_mem (f := Pending.own) member
    rw [second] at kept
    have keeps := List.mem_map_of_mem (f := Callback.holder) (List.mem_of_mem_filter kept)
    rw [further] at keeps
    have within := depth_of_keeper keeps
    change p.trail.depth ≤ _ at within
    rw [same, stands.follows.trail, depth_trailOf, List.length_cons] at within
    omega
  · intro p member
    obtain ⟨_, id, known, same⟩ := holder member
    have actor : id = p.own.actor := congrArg Prod.fst same
    exact actor ▸ known
  · intro id known c calls
    have listed : (id, trailOf (tag :: tags)) ∈ closed.map Callback.holder := by
      rw [own]
      exact List.mem_reverse.mpr (List.mem_map.mpr ⟨id, known, rfl⟩)
    obtain ⟨began, inside, same⟩ := List.mem_map.mp listed
    have actor : began.actor = id := congrArg Prod.fst same
    have waiting : began ∈ top.map Pending.own := by
      rw [first]
      exact List.mem_filter.mpr ⟨inside, by rw [Callback.Calls, actor, calls]⟩
    obtain ⟨p, member, rfl⟩ := List.mem_map.mp waiting
    exact ⟨p, member, actor⟩

section Bodies
variable {site : Site} {ids : List ActionId} {pend top outer : List (Pending σ)}
  {more : List (Callback σ)} {name : QName} {text : String}

theorem tells_of_told (actions : ActionId → StockAction) (told : ∀ call ∈ more, call.occasion.idle ∨
      call.site = site ∧ call.occasion = .body name text) :
    ∀ w ∈ more.filter (fun call => (call.deed actions).isFill),
      w.Tells actions site.trail name text := by
  intro w member
  obtain ⟨known, fills⟩ := List.mem_filter.mp member
  rcases told w known with idle | ⟨here, body⟩
  · simp [deed_idle idle, Deed.isFill] at fills
  · have deeds : w.deed actions = .nothing ∨ ∃ index, w.deed actions = .fills index (some text) :=
      calm_body body
    refine ⟨deeds.resolve_left fun rests => ?_, body, congrArg Site.trail here⟩
    simp [rests, Deed.isFill] at fills

theorem Parted.bodies (parted : Parted actions site.trail ids pend top outer)
    (orderly : Orderly actions pend)
    (told : ∀ call ∈ more, call.occasion.idle ∨ call.site = site ∧ call.occasion = .body name text)
    (reached : ∀ id, (actions id).holds →
      ((∃ call ∈ more, call.actor = id ∧ call.occasion = .body name text) ↔ id ∈ ids)) :
    (∀ p ∈ more.foldl (Callback.await actions) pend, p.trail = site.trail → p.Settled actions) ∧
      ∃ left, left <:+ more.foldl (Callback.await actions) pend ∧ Orderly actions left ∧
        left.map Pending.own = outer.map Pending.own := by
  have tells := tells_of_told actions told
  rw [await_bodies fun call member => (told call member).imp id And.right]
  generalize shape : more.filter (fun call => (call.deed actions).isFill) = writers at tells ⊢
  obtain rfl := parted.pend
  refine ⟨orderly.settled parted.here parted.apart tells ?_, _, List.drop_suffix top.length _,
    orderly.closed parted.here parted.apart ?_, ?_⟩
  · intro p member c calls alone
    have holds : (actions p.own.actor).holds := by rw [calls]; rfl
    obtain ⟨call, made, actor, body⟩ := (reached _ holds).mpr (parted.known p member)
    refine ⟨call, ?_, actor⟩
    rw [← shape, List.mem_filter, Callback.deed, actor, calls, body]
    exact ⟨made, by simp [StockAction.deed, Call.deed, alone, Deed.isFill]⟩
  · rintro rfl w member
    obtain ⟨index, fills⟩ := (tells w member).fills
    rcases fills_cases fills with param | ⟨c, _, _, calls, _, _⟩
    · exact param
    · have holds : (actions w.actor).holds := by rw [calls]; rfl
      have made : w ∈ more := List.mem_of_mem_filter (shape ▸ member)
      have known := (reached _ holds).mp ⟨w, made, rfl, (tells w member).told⟩
      obtain ⟨p, absent, _⟩ := parted.found _ known c calls
      cases absent
  · cases top with
    | nil => cases outer <;> rfl
    | cons p top => simp

end Bodies

structure Settling (actions : ActionId → StockAction) (held : List (Callback σ))
    (kept : List (ActionId × Trail)) (trail : Trail) (ws : Workspace (Logged σ)) : Prop where
  fair : Fairly actions ws
  frames : ws.params = (awaiting actions ws.journal.calls).map (·.frame actions)
  settled : ∀ p ∈ awaiting actions ws.journal.calls, p.trail = trail → p.Settled actions
  parts : ∃ left closed rest, held = closed ++ rest ∧ rest.map Callback.holder = kept ∧
    left <:+ awaiting actions ws.journal.calls ∧ Orderly actions left ∧
      left.map Pending.own = rest.filter (Callback.Calls actions)

def Departing (actions : ActionId → StockAction) (held : List (Callback σ))
    (kept : List (ActionId × Trail)) (name : QName) (after : Workspace (Logged σ)) : Prop :=
  ∃ ws site, Settling actions held kept site.trail ws ∧ ws.Told actions (.ending name) site after

section Departing
variable {kept : List (ActionId × Trail)} {trail : Trail} {name : QName}
  {after : Workspace (Logged σ)}

theorem Settling.ended {ws : Workspace (Logged σ)} {site : Site}
    (settling : Settling actions held kept site.trail ws)
    (told : ws.Told actions (.ending name) site after)
    (proper : AllProper actions after.journal.calls) :
    Fairly actions after ∧
      awaiting actions after.journal.calls <:+ awaiting actions ws.journal.calls := by
  obtain ⟨more, calls, tracks, told⟩ := told
  rw [settling.frames] at tracks
  unfold Fairly
  rw [calls] at proper ⊢
  refine fair_endings settling.fair proper tracks settling.settled fun call member => ?_
  exact (told call member).imp id fun same => ⟨congrArg Site.trail same.1, name, same.2⟩

theorem Departing.fairly (departing : Departing actions held kept name after)
    (proper : AllProper actions after.journal.calls) : Fairly actions after := by
  obtain ⟨ws, site, settling, told⟩ := departing
  exact (settling.ended told proper).1

theorem Departing.attended (departing : Departing actions held kept name after)
    (proper : AllProper actions after.journal.calls) {closed rest : List (Callback σ)}
    (shape : held = closed ++ rest) (same : rest.map Callback.holder = kept)
    (record : unended actions after.journal.calls = rest) : Attended actions after := by
  obtain ⟨ws, site, settling, told⟩ := departing
  obtain ⟨fair, shrinks⟩ := settling.ended told proper
  obtain ⟨left, gone, remains, split, again, suffix, orderly, owns⟩ := settling.parts
  have size : rest.length = remains.length := by
    have sizes := congrArg List.length (same.trans again.symm)
    rwa [List.length_map, List.length_map] at sizes
  obtain ⟨_, rfl⟩ := List.append_inj' (shape.symm.trans split) size
  have waits := XmlRules.own_awaiting proper
  rw [record, ← owns] at waits
  have equal : awaiting actions after.journal.calls = left := by
    have sizes := congrArg List.length waits
    rw [List.length_map, List.length_map] at sizes
    have within := List.suffix_of_suffix_length_le shrinks suffix (Nat.le_of_eq sizes)
    exact within.eq_of_length sizes
  exact ⟨fair, equal ▸ orderly, told.frames settling.frames⟩

end Departing

theorem Stands.settles {tag : OpenTag}
    (stands : Stands actions depth base root (tag :: tags) held ctx)
    (attended : Attended actions ctx.work) (name : QName) (text : String) (path : String) :
    Attempt.Ends (performAll (recordedStock actions depth) .body path (·.onBody name text)
        (innermost actions depth root tags tag).actions) ctx
      (fun _ next => Settling actions held (keepers actions depth root tags) next.site.trail next.work)
      (fun next => Fairly actions next.work) := by
  have reached := reaches_each (fun id _ => reaches_body stands.here depth name text id)
    (innermost actions depth root tags tag).actions stands.mounted
  have each : Step.Ends ((innermost actions depth root tags tag).actions.forM fun id =>
      (recordedStock actions depth id).onBody name text) ctx.site ctx.work
      (fun _ => ctx.work.Told actions (.body name text) ctx.site)
      (ctx.work.Told actions (.body name text) ctx.site) :=
    (told_each actions depth (.body name text) _).ends ctx.site ctx.work
  refine ((ends_performAll (each.and reached)).fails ?_).weaken ?_
  · exact fun next failed => failed.1.fairly (by simp) attended.fair
  · rintro _ next ⟨work, rfl, told, _, more, calls, reached⟩
    have fair := told.fairly (by simp) attended.fair
    have frames := told.frames attended.frames
    obtain ⟨top, outer, closed, rest, shape, kept, left, parted⟩ := stands.parted
    obtain ⟨_, others, _, bodies⟩ := told
    obtain rfl := List.append_cancel_left (others.symm.trans calls)
    obtain ⟨settled, remains, suffix, orderly, owns⟩ := parted.bodies attended.orderly bodies reached
    rw [← awaiting_append, ← calls] at settled suffix
    exact ⟨fair, frames, settled, remains, closed, rest, shape, kept, suffix, orderly, owns.trans left⟩

theorem Stands.departs {tag : OpenTag}
    (stands : Stands actions depth base root (tag :: tags) held ctx)
    (attended : Attended actions ctx.work) (name : QName) (text : String) (path : String) :
    Attempt.Ends (do
      flush (recordedStock actions depth)
      performAll (recordedStock actions depth) .body path (·.onBody name text)
        (innermost actions depth root tags tag).actions
      performAll (recordedStock actions depth) .ending path (·.onEnd name)
        (innermost actions depth root tags tag).actions.reverse
      modify leave) ctx
      (fun _ next => Departing actions held (keepers actions depth root tags) name next.work)
      (fun next => Fairly actions next.work ∨
        Departing actions held (keepers actions depth root tags) name next.work) := by
  have flushed := (stands.ends_flush.and (attended_flush depth attended)).fails fun t failed =>
    Or.inl (b := Departing actions held (keepers actions depth root tags) name t.work) failed.2
  refine flushed.bind fun _ t between => ?_
  obtain ⟨stands, attended⟩ := between
  refine ((stands.settles attended name text path).fails fun _ => .inl).bind fun _ u settling => ?_
  refine ((ends_told (.ending name) _).fails fun _ told => .inr ⟨_, _, settling, told⟩).bind ?_
  rintro _ _ ⟨work, rfl, told⟩
  refine ⟨fun _ next ran => ?_, fun _ _ ran => (nomatch ran)⟩
  cases ran
  exact ⟨_, _, settling, told.trans (.of_same rfl rfl)⟩

theorem Stands.attended_closeElement (stands : Stands actions depth base root tags held ctx)
    (attended : Attended actions ctx.work) (trims : Bool) (name : QName) :
    Attempt.Ends (Context.closeElement (recordedStock actions depth) trims name) ctx
      (fun _ next => Attended actions next.work) (fun next => Fairly actions next.work) := by
  suffices ends : Attempt.Ends (Context.closeElement (recordedStock actions depth) trims name) ctx
      (fun _ next => Departing actions held (keepers actions depth root tags.tail) name next.work)
      (fun next => Fairly actions next.work ∨
        Departing actions held (keepers actions depth root tags.tail) name next.work) by
    refine (((stands.closeElement trims name).and ends).weaken fun _ next closed => ?_).fails ?_
    · obtain ⟨⟨closed, rest, shape, stands⟩, departing⟩ := closed
      exact departing.attended stands.holding.proper shape stands.kept stands.holding.record
    · exact fun next failed => failed.2.elim id fun departing => departing.fairly failed.1
  refine stands.closing trims name (.inl attended.fair) ?_
  rintro tag tags rfl text path
  exact stands.departs attended name text path

theorem endsWell_told (occasion : Occasion) (other : ∀ name, occasion ≠ .ending name)
    {phase : Phase} {path : String} (ids : List ActionId) :
    Attempt.Ends (performAll (recordedStock actions depth) phase path (occasion.answer ·) ids) ctx
      (fun _ next => ctx.work.EndsWell next.work) fun _ => True := by
  refine ((ends_told occasion ids).weaken fun _ next told => ?_).fails fun _ _ => trivial
  obtain ⟨work, rfl, told⟩ := told
  exact told.endsWell other

theorem endsWell_flush (depth : Nat) :
    Attempt.Ends (flush (recordedStock actions depth)) ctx
      (fun _ next => ctx.work.EndsWell next.work) fun _ => True := by
  have nothing : ctx.work.EndsWell ctx.work := ⟨[], by simp, by simp⟩
  apply Attempt.Ends.get
  split
  · exact .pure nothing
  · rename_i frame frames shape
    split
    · exact .pure nothing
    · apply Attempt.Ends.set
      exact endsWell_told (.segment frame.name frame.segment) (by simp) frame.actions

theorem endsWell_closeElement (depth : Nat) (trims : Bool) (name : QName) :
    Attempt.Ends (closeElement (recordedStock actions depth) trims name) ctx
      (fun _ next => ctx.work.EndsWell next.work) fun _ => True := by
  unfold closeElement
  apply Attempt.Ends.get
  split
  · exact .throw _ trivial
  · rename_i frame frames shape
    dsimp only
    by_cases wrong : frame.name ≠ name
    · rw [if_pos wrong]
      exact .bind (.throw _ trivial) fun _ _ (impossible : False) => impossible.elim
    · rw [if_neg wrong]
      refine (endsWell_flush depth).bind fun _ t first => ?_
      refine (endsWell_told (.body name _) (by simp) frame.actions).bind fun _ u second => ?_
      have each : Step.Ends (frame.actions.reverse.forM fun id =>
          (recordedStock actions depth id).onEnd name) u.site u.work (fun _ => u.work.EndsWell)
          fun _ => True :=
        endsWell_each (fun id _ => endsWell_ending depth name id) _
      have ended : Attempt.Ends (performAll (recordedStock actions depth) .ending ctx.path
          (·.onEnd name) frame.actions.reverse) u
          (fun _ next => ∃ work, next = { u with work } ∧ u.work.EndsWell work) fun _ => True :=
        Attempt.Ends.fails (ends_performAll each) fun _ _ => trivial
      refine ended.bind ?_
      rintro _ _ ⟨work, rfl, third⟩
      refine ⟨fun _ next ran => ?_, fun _ _ ran => (nomatch ran)⟩
      cases ran
      exact first.trans (second.trans third)

theorem attended_perform (attended : Attended actions ctx.work) (occasion : Occasion)
    (idle : occasion.idle) (wrap : ActionError → DispatchError) (ids : List ActionId) :
    Attempt.Ends (perform wrap (ids.forM fun id => occasion.answer (recordedStock actions depth id)))
      ctx (fun _ next => Attended actions next.work) (fun next => Fairly actions next.work) := by
  have told := Context.ends_perform wrap ((told_each actions depth occasion ids).ends ctx.site ctx.work)
  refine (told.weaken fun _ next told => ?_).fails fun next told => (attended.idle told idle).fair
  obtain ⟨work, rfl, told⟩ := told
  exact attended.idle told idle

end Context

-- A call ends with the frame of a waiting call, which is the first of all.
structure Pending.Serves {σ : Type} (actions : ActionId → StockAction) (c : Call)
    (call : Callback σ) (rest : List (Pending σ)) (p : Pending σ) : Prop where
  actor : p.own.actor = call.actor
  element : p.own.site.trail = call.site.trail
  settled : p.Settled actions
  size : (p.frame actions).length = max c.arity 1
  params : call.work.params = p.frame actions :: rest.map (·.frame actions)
  delivers : Step.perform (call.occasion.answer (leaves actions call.actor)) call.site call.work =
    Step.perform (c.deliver (p.frame actions)) call.site
      { call.work with params := rest.map (·.frame actions) }
  written : ∀ index value, (p.frame actions)[index]? = some (some value) →
    ∃ w ∈ p.writers, w.deed actions = .fills index (some value)
  empty : ∀ index < max c.arity 1,
    (∀ w ∈ p.writers, ∀ value, w.deed actions ≠ .fills index value) →
      (p.frame actions)[index]? = some none

def Dispatcher.Attends {σ : Type} (actions : ActionId → StockAction) (d : Dispatcher (Logged σ)) :
    Prop :=
  AllFair actions d.progress.journal.calls ∧ ∀ ctx, d.progress = .live ctx → Attended actions ctx.work

namespace Event
open Context
variable {σ : Type} {actions : ActionId → StockAction} {depth : Nat} {base : Workspace σ}
  {root : Registry} {tags : List OpenTag} {held : List (Callback σ)} {d : Dispatcher (Logged σ)}
  {ctx : Context (Logged σ)}

theorem attends_of_live (live : d.progress = .live ctx) (attended : Attended actions ctx.work) :
    d.Attends actions := by
  refine ⟨by rw [live]; exact attended.fair, fun other going => ?_⟩
  cases live.symm.trans going
  exact attended

theorem attends_of_stopped (stopped : d.state ≠ .documentStarted)
    (fair : AllFair actions d.progress.journal.calls) : d.Attends actions :=
  ⟨fair, fun _ live => absurd (Dispatcher.state_of_live live) stopped⟩

theorem attends_withContext (live : d.progress = .live ctx) {step : ContextM (Logged σ) Unit}
    (ends : Attempt.Ends step ctx (fun _ next => Attended actions next.work)
      (fun next => Fairly actions next.work)) :
    ((Dispatcher.withContext step).perform d).2.Attends actions := by
  rw [Dispatcher.perform_withContext live]
  cases run : step.perform ctx with
  | mk result next =>
    cases result with
    | ok value => exact attends_of_live rfl (ends.1 value next run)
    | error e => exact attends_of_stopped (by rintro ⟨⟩) (ends.2 e next run)

theorem attends_run (live : d.progress = .live ctx)
    (stands : Stands actions depth base root tags held ctx) (attended : Attended actions ctx.work)
    {e : Event} (inner : e ≠ .startDocument) :
    ((e.run (recordedStock actions depth)).perform d).2.Attends actions := by
  cases e with
  | startDocument => exact absurd rfl inner
  | declare label uri => exact attends_of_live live attended
  | start name attrs =>
    rw [perform_start]
    exact attends_withContext (d := { d with pending := [] }) live
      (stands.attended_openElement attended name attrs d.pending)
  | text content =>
    refine attends_withContext live ⟨fun _ next ran => ?_, fun _ _ ran => (nomatch ran)⟩
    cases ran
    exact work_addText ctx content ▸ attended
  | finish name =>
    rw [perform_finish]
    exact attends_withContext live (stands.attended_closeElement attended d.trims name)
  | endDocument =>
    have finished : Attempt.Ends (Dispatcher.finishRules (recordedStock actions depth)) ctx
        (fun _ next => Attended actions next.work) (fun next => Fairly actions next.work) := by
      apply Attempt.Ends.get
      dsimp only
      split
      · exact .bind (.throw _ attended.fair) fun _ _ (impossible : False) => impossible.elim
      · exact attended_perform attended .finish rfl (.lifecycle .finishParse) ctx.site.rules.actions
    rw [run, Dispatcher.endDocument, Attempt.perform_bind, Dispatcher.perform_withContext live]
    cases made : (Dispatcher.finishRules (recordedStock actions depth)).perform ctx with
    | mk result next =>
      cases result with
      | ok value => exact attends_of_stopped (by rintro ⟨⟩) (finished.1 value next made).fair
      | error e => exact attends_of_stopped (by rintro ⟨⟩) (finished.2 e next made)
  | setRoot object => exact attends_of_live live attended
  | takeRoot =>
    change d.takeRoot.Attends actions
    rw [Dispatcher.takeRoot, live]
    exact attends_of_live live attended
  | abort =>
    change d.abort.Attends actions
    rw [Dispatcher.abort, live]
    exact attends_of_stopped (by rintro ⟨⟩) attended.fair

theorem attends_startDocument (actions : ActionId → StockAction) (depth : Nat) (d : Dispatcher σ)
    (idle : d.state ≠ .documentStarted) :
    ((Event.startDocument.run (recordedStock actions depth)).perform d.logging).2.Attends actions := by
  have empty : Attended actions d.logging.fresh.work := by
    rw [work_logging]
    refine ⟨fun before call later shape => by simp [Workspace.logged] at shape,
      ⟨.nil, by simp [Workspace.logged, awaiting], by simp [Workspace.logged, awaiting]⟩, ?_⟩
    change (Dispatcher.freshWork d.initialRoot d.progress.journal).params = []
    cases d.initialRoot <;> rfl
  rw [perform_startDocument _ (by rwa [Dispatcher.state_logging])]
  exact attends_withContext rfl
    (attended_perform empty .start rfl (.lifecycle .startParse) d.rules.actions)

theorem attends_document (actions : ActionId → StockAction) (depth : Nat) (d : Dispatcher σ)
    (idle : d.state ≠ .documentStarted) {es : List Event} (inner : ∀ e ∈ es, e ≠ .startDocument) :
    (feed (recordedStock actions depth) (.startDocument :: es) d.logging).2.Attends actions := by
  induction es using List.reverseRecOn with
  | nil => exact attends_startDocument actions depth d idle
  | append_singleton es e ih =>
    have earlier : ∀ f ∈ es, f ≠ .startDocument := fun f member => inner f (by simp [member])
    have last : e ≠ .startDocument := inner e (by simp)
    obtain ⟨fair, going⟩ := ih earlier
    rw [← List.cons_append, feed_snoc]
    rcases stands_document actions depth d idle earlier with finished | ⟨ctx, held, live, stands⟩
    · obtain ⟨stopped, same⟩ := idle_run (c := recordedStock actions depth) finished.1 last
      exact attends_of_stopped stopped (same ▸ fair)
    · exact attends_run live stands (going ctx live) last

-- A call ends on a frame of its own. What stands there has been filled in while the frame was the
-- innermost, and a place that nothing has filled is empty.
theorem serves_of_fair {before : List (Callback σ)} {call : Callback σ} {c : Call} {name : QName}
    (fair : call.Fair actions before) (calls : actions call.actor = .call c)
    (ends : call.occasion = .ending name) :
    ∃ p rest, awaiting actions before = p :: rest ∧ p.Serves actions c call rest := by
  obtain ⟨p, rest, waits, actor, element, size, settled, params⟩ := fair c name calls ends
  have made := made_of_begun (actor ▸ calls) settled.begun
  refine ⟨p, rest, waits, actor, element, settled, size, params, ?_, fun index value stands => ?_, ?_⟩
  · rw [ends, leaves_call calls]
    exact c.end_eq name call.site params
  · refine (of_filled stands).resolve_left fun opened => ?_
    rw [made, List.getElem?_replicate] at opened
    split at opened <;> cases opened
  · intro index within untouched
    rw [Pending.frame, of_untouched untouched, made]
    exact List.getElem?_replicate_of_lt within

theorem closed_of_finish (stands : Stands actions depth base root tags held ctx)
    {next : Context (Logged σ)} {trims : Bool} {name : QName}
    (ran : (Context.closeElement (recordedStock actions depth) trims name).perform ctx = (.ok (), next))
    (fair : AllFair actions next.work.journal.calls) {p : Pending σ}
    (waits : p ∈ awaiting actions ctx.work.journal.calls) (here : p.own.site.trail = ctx.site.trail) :
    ∃ early call late q rest, next.work.journal.calls =
        (ctx.work.journal.calls ++ early) ++ call :: late ∧
      awaiting actions (ctx.work.journal.calls ++ early) = q :: rest ∧ q.own = p.own ∧
        call.actor = p.own.actor ∧ call.result = .ok () ∧ ∃ name, call.occasion = .ending name := by
  obtain ⟨_, _, _, after⟩ := (stands.closeElement trims name).1 () next ran
  obtain ⟨more, calls, well⟩ := (endsWell_closeElement depth trims name).1 () next ran
  have gone : p.own ∉ (more.foldl (Callback.await actions)
      (awaiting actions ctx.work.journal.calls)).map Pending.own := by
    rw [← awaiting_append, ← calls]
    intro still
    obtain ⟨q, member, same⟩ := List.mem_map.mp still
    have outer := after.depth_of_waiting q member
    rw [Pending.trail, same, here, stands.follows.trail, depth_trailOf] at outer
    cases tags with
    | nil =>
      have none := stands.own_awaiting
      obtain rfl := List.map_eq_nil_iff.mp stands.kept
      rw [List.map_eq_nil_iff.mp none] at waits
      cases waits
    | cons tag tags =>
      rw [List.length_cons, List.tail_cons] at outer
      omega
  obtain ⟨early, call, late, q, rest, rfl, closes, first, same⟩ :=
    closed_of_gone (List.mem_map_of_mem waits) gone
  rw [← awaiting_append] at first
  rw [← List.append_assoc] at calls
  obtain ⟨⟨c, kind⟩, ending, ends⟩ := closes_cases closes
  obtain ⟨_, _, again, actor, _⟩ := fair _ call late calls c ending kind ends
  obtain ⟨rfl, _⟩ := List.cons.inj (first.symm.trans again)
  exact ⟨early, call, late, q, rest, calls, first, same, actor.symm.trans (congrArg _ same),
    well call (by simp) ending ends, ending, ends⟩

-- When a call ends, the method gets the frame that the call itself has opened when the element
-- began, with as many places as it has parameters, or one. The latest call to begin on an element is
-- settled by parameters and by the body text; the body text never reaches those that began before it
-- there. And when an element ends well, each call that has waited for it has ended so.
theorem call_gets_own_frame (actions : ActionId → StockAction) (depth : Nat) (d : Dispatcher σ)
    (idle : d.state ≠ .documentStarted) (es : List Event) (inner : ∀ e ∈ es, e ≠ .startDocument) :
    (∀ before call later c name,
      leafCalls actions depth (.startDocument :: es) d = before ++ call :: later →
        actions call.actor = .call c → call.occasion = .ending name →
          ∃ p rest, awaiting actions before = p :: rest ∧ p.Serves actions c call rest) ∧
    ∀ ctx name, (feed (stock actions depth) (.startDocument :: es) d).2.progress = .live ctx →
      (((Event.finish name).run (stock actions depth)).perform
        (feed (stock actions depth) (.startDocument :: es) d).2).1 = .ok () →
      let earlier := leafCalls actions depth (.startDocument :: es) d
      ∀ p ∈ awaiting actions earlier, p.own.site.trail = ctx.site.trail →
        ∃ early call late q rest,
          leafCalls actions depth (.startDocument :: (es ++ [.finish name])) d =
            (earlier ++ early) ++ call :: late ∧
          awaiting actions (earlier ++ early) = q :: rest ∧ q.own = p.own ∧
            call.actor = p.own.actor ∧ call.result = .ok () ∧ ∃ name, call.occasion = .ending name := by
  refine ⟨fun before call later c name shape calls ends => ?_, ?_⟩
  · exact serves_of_fair ((attends_document actions depth d idle inner).1 before call later shape)
      calls ends
  · intro ctx name live fine earlier p waits here
    have told := feed_stock actions depth (.startDocument :: es) d.logging
    rw [Dispatcher.plain_logging] at told
    rw [told] at live fine
    rw [perform_stock] at fine
    obtain ⟨top, next, going, ran, after⟩ := finish_of_ok fine
    rcases stands_document actions depth d idle inner with finished | ⟨other, held, again, stands⟩
    · exact absurd (Dispatcher.state_of_live going) finished.1
    cases going.symm.trans again
    change Progress.plain _ = _ at live
    rw [going] at live
    cases live
    have whole : leafCalls actions depth (.startDocument :: (es ++ [.finish name])) d =
        next.work.journal.calls := by
      rw [leafCalls, ← List.cons_append, feed_snoc, after]
      rfl
    have parts : earlier = top.work.journal.calls := by
      change leafCalls actions depth (.startDocument :: es) d = _
      rw [leafCalls, going]
      rfl
    have all : ∀ e ∈ es ++ [.finish name], e ≠ .startDocument := by
      simpa [or_imp, forall_and] using inner
    have fair : AllFair actions next.work.journal.calls := by
      rw [← whole]
      exact (attends_document actions depth d idle all).1
    rw [parts] at waits ⊢
    rw [whole]
    exact closed_of_finish stands ran fair waits here

-- A call of two parameters, one of them filled from an attribute, and then one of none on the same
-- element: the second one gets the body text, and the first one is called as well.
theorem call_gets_own_frame_behind_another :
    let actions : ActionId → StockAction := fun id => match id.index with
      | 0 => .create { type := "t" }
      | 1 => .call { arity := 2, target := .node, invoke := fun o _ => (o, .ok ()) }
      | 2 => .param ⟨1, .attribute "k"⟩
      | _ => .call { arity := 0, target := .node, invoke := fun o _ => (o, .ok ()) }
    let table : RuleTable := ((RuleTable.registerAll
      [.rule "r" ⟨0⟩, .rule "r" ⟨1⟩, .rule "r" ⟨2⟩, .rule "r" ⟨3⟩]).perform {}).2
    let d : Dispatcher Unit :=
      .new (.base table) (({} : Factory).register "t" Constructor.blank) true ()
    let r : QName := ⟨"", "r"⟩
    let es : List Event := [.start r ⟨[{ name := "k", value := "v" }]⟩, .text "one"]
    (∃ before call later p rest, leafCalls actions 1 (.startDocument :: (es ++ [.finish r])) d =
        before ++ call :: later ∧ call.actor = ⟨3⟩ ∧
      awaiting actions before = p :: rest ∧ p.Settled actions ∧ p.frame actions = [some "one"] ∧
        rest.map (·.frame actions) = [[none, some "v"]]) ∧
    ∃ call ∈ leafCalls actions 1 (.startDocument :: (es ++ [.finish r])) d,
      call.actor = ⟨1⟩ ∧ call.result = .ok () ∧ ∃ name, call.occasion = .ending name := by
  intro actions table d r es
  have idle : d.state ≠ .documentStarted := by decide
  refine ⟨?_, ?_⟩
  · have found : (leafCalls actions 1 (.startDocument :: (es ++ [.finish r])) d).any fun call =>
        call.actor = ⟨3⟩ ∧ call.occasion = .ending r ∧
          call.work.params = [[some "one"], [none, some "v"]] := by decide +kernel
    obtain ⟨call, member, known⟩ := List.any_eq_true.mp found
    obtain ⟨actor, ends, params⟩ := of_decide_eq_true known
    obtain ⟨before, later, shape⟩ := List.append_of_mem member
    have served := (call_gets_own_frame actions 1 d idle (es ++ [.finish r]) (by simp [es])).1
    obtain ⟨p, rest, waits, serves⟩ := served before call later _ r shape (congrArg actions actor) ends
    obtain ⟨first, others⟩ := List.cons.inj (params.symm.trans serves.params)
    exact ⟨before, call, later, p, rest, shape, actor, waits, serves.settled, first.symm, others.symm⟩
  · have started : (feed (stock actions 1) (.startDocument :: es) d).2.state = .documentStarted := by
      decide +kernel
    obtain ⟨ctx, live⟩ := Dispatcher.live_of_started started
    have open_at : (feed (stock actions 1) (.startDocument :: es) d).2.context?.map (·.site.trail) =
        some ⟨"/r", [0]⟩ := by decide +kernel
    rw [Dispatcher.context?_of_live live] at open_at
    have found : (awaiting actions (leafCalls actions 1 (.startDocument :: es) d)).any fun p =>
        p.own.actor = ⟨1⟩ ∧ p.own.site.trail = ⟨"/r", [0]⟩ := by decide +kernel
    obtain ⟨p, waits, known⟩ := List.any_eq_true.mp found
    obtain ⟨actor, trail⟩ := of_decide_eq_true known
    obtain ⟨early, call, late, _, _, shape, _, _, same, fine, ends⟩ :=
      (call_gets_own_frame actions 1 d idle es (by simp [es])).2 ctx r live (by decide +kernel) p
        waits (trail.trans (Option.some.inj open_at).symm)
    exact ⟨call, by simp [shape], same.trans actor, fine, ends⟩

-- Of two calls without parameters on one element the first is told the body text as well, but its
-- method gets nothing.
theorem first_call_gets_nothing :
    let actions : ActionId → StockAction := fun id => match id.index with
      | 0 => .create { type := "t" }
      | _ => .call { arity := 0, target := .node, invoke := fun o _ => (o, .ok ()) }
    let table : RuleTable :=
      ((RuleTable.registerAll [.rule "a" ⟨0⟩, .rule "a" ⟨1⟩, .rule "a" ⟨2⟩]).perform {}).2
    let d : Dispatcher Unit :=
      .new (.base table) (({} : Factory).register "t" Constructor.blank) true ()
    let a : QName := ⟨"", "a"⟩
    let es : List Event := [.start a {}, .text "t", .finish a]
    (∃ told ∈ leafCalls actions 1 (.startDocument :: es) d,
      told.actor = ⟨1⟩ ∧ told.occasion = .body a "t") ∧
    ∃ call ∈ leafCalls actions 1 (.startDocument :: es) d, call.actor = ⟨1⟩ ∧
      call.occasion = .ending a ∧ call.result = .ok () ∧ call.work.params = [[none]] := by
  intro actions table d a es
  have told : (leafCalls actions 1 (.startDocument :: es) d).any fun call =>
      call.actor = ⟨1⟩ ∧ call.occasion = .body a "t" := by decide +kernel
  have given : (leafCalls actions 1 (.startDocument :: es) d).any fun call =>
      call.actor = ⟨1⟩ ∧ call.occasion = .ending a ∧ call.result = .ok () ∧
        call.work.params = [[none]] := by decide +kernel
  obtain ⟨body, first, heard⟩ := List.any_eq_true.mp told
  obtain ⟨call, second, empty⟩ := List.any_eq_true.mp given
  exact ⟨⟨body, first, of_decide_eq_true heard⟩, call, second, of_decide_eq_true empty⟩

end Event
end XmlRules
