import Mathlib.Data.List.TakeWhile
import XmlRules.Proofs.CallChain
import XmlRules.Proofs.ScopeMoves
namespace XmlRules

-- From the last scope down, each is mounted at least as deep as those beneath it, and none is mounted
-- deeper than the elements go.
def Layered (depth : Nat) (scopes : List Scope) : Prop :=
  scopes.Pairwise (fun upper lower => lower.mountDepth ≤ upper.mountDepth) ∧
    ∀ scope ∈ scopes, scope.mountDepth ≤ depth

namespace Layered
variable {depth deeper : Nat} {scopes after : List Scope}

theorem nil (depth : Nat) : Layered depth [] := ⟨.nil, by simp⟩

theorem mono (layered : Layered depth scopes) (below : depth ≤ deeper) : Layered deeper scopes :=
  ⟨layered.1, fun scope member => (layered.2 scope member).trans below⟩

theorem sublist (layered : Layered depth scopes) (part : after.Sublist scopes) :
    Layered depth after :=
  ⟨layered.1.sublist part, fun scope member => layered.2 scope (part.subset member)⟩

-- A scope is opened where the elements end, which is above everything that is open.
theorem move (layered : Layered depth scopes) (moved : ScopeMove depth scopes after) :
    Layered depth after := by
  cases moved with
  | opened scope here _ =>
    refine ⟨List.pairwise_cons.mpr ⟨fun lower member => ?_, layered.1⟩, fun other member => ?_⟩
    · rw [here]
      exact layered.2 lower member
    · rcases List.mem_cons.mp member with rfl | further
      · exact Nat.le_of_eq here
      · exact layered.2 other further
  | closed scope _ => exact layered.sublist (List.sublist_cons_self scope after)
  | closedOwned owner _ => exact layered.sublist List.eraseP_sublist

theorem moves (layered : Layered depth scopes) (moved : ScopeMoves depth scopes after) :
    Layered depth after := by
  induction moved with
  | refl => exact layered
  | tail _ last ih => exact ih.move last

theorem dropWhile_eq (layered : Layered deeper scopes) (depth : Nat) :
    scopes.dropWhile (fun scope => depth ≤ scope.mountDepth) =
      scopes.filter fun scope => scope.mountDepth < depth := by
  induction scopes with
  | nil => rfl
  | cons scope below ih =>
    obtain ⟨upper, rest⟩ := List.pairwise_cons.mp layered.1
    by_cases mounted : depth ≤ scope.mountDepth
    · have dropped : ¬ scope.mountDepth < depth := by omega
      rw [List.dropWhile_cons_of_pos (by simpa using mounted),
        List.filter_cons_of_neg (by simpa using dropped)]
      exact ih (layered.sublist (List.sublist_cons_self scope below))
    · have kept : ∀ other ∈ scope :: below, other.mountDepth < depth := by
        intro other member
        rcases List.mem_cons.mp member with rfl | further
        · omega
        · have := upper other further
          omega
      rw [List.dropWhile_cons_of_neg (by simpa using mounted),
        List.filter_eq_self.mpr fun other member => by simpa using kept other member]

theorem closeScopesFrom {σ : Type} {ws : Workspace σ} (layered : Layered deeper ws.scopes)
    (depth : Nat) :
    (ws.closeScopesFrom depth).scopes = ws.scopes.filter fun scope => scope.mountDepth < depth :=
  layered.dropWhile_eq depth

end Layered

section Chains
variable {σ : Type} {c : Catalogue σ} {ws last : Workspace σ} {calls : List (Callback σ)}

def Callback.depth (call : Callback σ) : Nat := call.site.trail.depth

def Duty.depth (duty : Duty) : Nat := duty.site.trail.depth

-- Calls that go ever deeper, or stay where they are, find the scopes in order and leave them so.
theorem Chain.layered (guarded : c.Guarded) (chain : Chain c ws calls last) {depth deepest : Nat}
    (rising : (depth :: calls.map Callback.depth).Pairwise (· ≤ ·))
    (within : ∀ d ∈ depth :: calls.map Callback.depth, d ≤ deepest)
    (layered : Layered depth ws.scopes) :
    (∀ call ∈ calls, Layered call.depth call.work.scopes) ∧ Layered deepest last.scopes := by
  induction chain generalizing depth with
  | nil ws => exact ⟨by simp, layered.mono (within depth (by simp))⟩
  | @cons call rest last result later ih =>
    obtain ⟨lowest, further⟩ := List.pairwise_cons.mp rising
    have here : Layered call.depth call.work.scopes := layered.mono (lowest _ (by simp))
    have left : Layered call.depth (call.after c).scopes :=
      here.moves (guarded call.actor call.occasion call.site call.work)
    obtain ⟨others, ends⟩ := ih further
      (fun d member => within d (List.mem_cons_of_mem _ member)) left
    refine ⟨fun other member => ?_, ends⟩
    rcases List.mem_cons.mp member with rfl | early
    · exact here
    · exact others other early

theorem Chain.keeps (chain : Chain c ws calls last) {scope : Scope} (member : scope ∈ ws.scopes) :
    scope ∈ last.scopes ∨
      ∃ call ∈ calls, scope ∈ call.work.scopes ∧ scope ∉ (call.after c).scopes := by
  induction chain with
  | nil ws => exact .inl member
  | @cons call rest last result later ih =>
    by_cases still : scope ∈ (call.after c).scopes
    · rcases ih still with ends | ⟨other, among, lost⟩
      · exact .inl ends
      · exact .inr ⟨other, List.mem_cons_of_mem _ among, lost⟩
    · exact .inr ⟨call, List.mem_cons_self, member, still⟩

end Chains

def Occasion.opens : Occasion → Nat
  | .begin _ _ => 1
  | _ => 0

def Event.opens : Event → Nat
  | .start _ _ => 1
  | _ => 0

section Levels
variable {σ : Type} {c : Catalogue σ} {d : Dispatcher σ} {e : Event} {ctx : Context σ}
  {due : List Duty} {settled : Workspace σ → Progress σ}

-- A document whose path goes through the open elements, and whose scopes are in order.
structure Context.Leveled (ctx : Context σ) : Prop where
  depth : ctx.depth = ctx.frames.length
  scopes : Layered ctx.depth ctx.work.scopes

def Dispatcher.Leveled (d : Dispatcher σ) : Prop := ∀ ctx, d.progress = .live ctx → ctx.Leveled

theorem Dispatcher.depth_of_live (live : d.progress = .live ctx) : d.depth = ctx.depth := by
  unfold depth context?
  rw [live]
  rfl

theorem Dispatcher.depth_of_idle (idle : d.state ≠ .documentStarted) : d.depth = 0 := by
  obtain ⟨rules, factory, trims, pending, initialRoot, progress⟩ := d
  cases progress with
  | live ctx => exact absurd rfl idle
  | idle journal => rfl
  | ended root store journal => rfl
  | aborted store journal => rfl

theorem Dispatcher.leveled_of_idle (idle : d.state ≠ .documentStarted) : d.Leveled :=
  fun _ live => absurd (state_of_live live) idle

theorem Dispatcher.leveled_fresh (d : Dispatcher σ) : d.fresh.Leveled := by
  refine ⟨rfl, ?_⟩
  change Layered 0 (Dispatcher.freshWork d.initialRoot d.progress.journal).scopes
  cases d.initialRoot <;> exact .nil 0

theorem Context.mem_waiting {site : Site} {frames : List Frame} {duty : Duty}
    (member : duty ∈ waiting site frames) : duty.site = site ∧ duty.occasion.opens = 0 := by
  cases frames with
  | nil => cases member
  | cons frame frames =>
    by_cases empty : frame.segment = ""
    · rw [waiting, if_pos empty] at member
      cases member
    · rw [waiting, if_neg empty] at member
      obtain ⟨id, _, rfl⟩ := List.mem_map.mp member
      exact ⟨rfl, rfl⟩

theorem Context.length_delivered (frames : List Frame) :
    (delivered frames).length = frames.length := by
  cases frames <;> rfl

theorem Trail.depth_leave (t : Trail) : (t.leave?.getD t).depth = t.depth - 1 := by
  obtain ⟨path, marks⟩ := t
  cases marks <;> rfl

theorem Context.leveled_leave (depth : ctx.depth = ctx.frames.length)
    (layered : Layered ctx.depth ctx.work.scopes) : ctx.leave.Leveled := by
  have left : ctx.leave.depth = ctx.depth - 1 := ctx.site.trail.depth_leave
  refine ⟨?_, ?_⟩
  · rw [left, depth]
    exact List.length_tail.symm
  · change Layered ctx.leave.depth (ctx.work.closeScopesFrom ctx.depth).scopes
    rw [layered.closeScopesFrom, left]
    refine ⟨(layered.sublist List.filter_sublist).1, fun scope member => ?_⟩
    have above := List.of_mem_filter member
    simp only [decide_eq_true_eq] at above
    omega

namespace Event

theorem Asks.leveled (asks : Asks c d e ctx due settled) (leveled : d.Leveled) :
    ctx.Leveled ∧ ctx.depth = d.depth := by
  cases asks with
  | startDocument idle => exact ⟨d.leveled_fresh, (Dispatcher.depth_of_idle idle).symm⟩
  | start live | text live | finish live | endDocument live =>
    exact ⟨leveled ctx live, (Dispatcher.depth_of_live live).symm⟩

theorem Asks.depth_duty (asks : Asks c d e ctx due settled) :
    ∀ duty ∈ due, duty.depth = ctx.depth + duty.occasion.opens ∧ duty.occasion.opens ≤ e.opens := by
  intro duty member
  cases asks with
  | startDocument idle | endDocument live closed =>
    obtain ⟨id, _, rfl⟩ := List.mem_map.mp member
    exact ⟨rfl, Nat.le_refl 0⟩
  | text live => cases member
  | start live name attrs =>
    rcases List.mem_append.mp member with early | late
    · obtain ⟨here, none⟩ := Context.mem_waiting early
      rw [Duty.depth, here, none]
      exact ⟨rfl, Nat.zero_le 1⟩
    · obtain ⟨id, _, rfl⟩ := List.mem_map.mp late
      exact ⟨rfl, Nat.le_refl 1⟩
  | finish live innermost =>
    rcases List.mem_append.mp member with early | late
    · obtain ⟨here, none⟩ := Context.mem_waiting early
      rw [Duty.depth, here, none]
      exact ⟨rfl, Nat.le_refl 0⟩
    · rcases List.mem_append.mp late with told | ended
      · obtain ⟨id, _, rfl⟩ := List.mem_map.mp told
        exact ⟨rfl, Nat.le_refl 0⟩
      · obtain ⟨id, _, rfl⟩ := List.mem_map.mp ended
        exact ⟨rfl, Nat.le_refl 0⟩

-- The text before an element is delivered first, one level further up.
theorem Asks.rising (asks : Asks c d e ctx due settled) :
    (ctx.depth :: due.map Duty.depth).Pairwise (· ≤ ·) := by
  have level : ∀ (depth : Nat) (duties : List Duty), (∀ duty ∈ duties, duty.depth = depth) →
      (depth :: duties.map Duty.depth).Pairwise (· ≤ ·) := by
    intro depth duties same
    have all : ∀ n ∈ depth :: duties.map Duty.depth, n = depth := by simpa using same
    exact List.pairwise_of_forall_mem_list fun n left m right => by rw [all n left, all m right]
  by_cases flat : e.opens = 0
  · apply level
    intro duty member
    have placed := asks.depth_duty duty member
    omega
  · cases asks with
    | startDocument | text | finish | endDocument => exact absurd rfl flat
    | start live name attrs =>
      have before : ∀ duty ∈ Context.waiting ctx.site ctx.frames, duty.depth = ctx.depth := by
        intro duty member
        rw [Duty.depth, (Context.mem_waiting member).1]
        rfl
      have behind := level (ctx.depth + 1)
        ((matched c (.start name attrs) d).map (⟨·, .begin name attrs, ctx.site.enter name d.pending⟩))
        fun duty member => by
          obtain ⟨id, _, rfl⟩ := List.mem_map.mp member
          rfl
      rw [List.map_append, ← List.cons_append]
      refine List.pairwise_append.mpr ⟨level ctx.depth _ before, (List.pairwise_cons.mp behind).2, ?_⟩
      intro n early m late
      have low : n = ctx.depth := by
        rcases List.mem_cons.mp early with rfl | waits
        · rfl
        · obtain ⟨duty, member, rfl⟩ := List.mem_map.mp waits
          exact before duty member
      have high := (List.pairwise_cons.mp behind).1 m late
      omega

theorem Asks.settles (asks : Asks c d e ctx due settled) (leveled : ctx.Leveled) {ws : Workspace σ}
    (layered : Layered (ctx.depth + e.opens) ws.scopes) {after : Context σ}
    (live : settled ws = .live after) : after.Leveled := by
  cases asks with
  | startDocument idle =>
    cases live
    exact ⟨leveled.depth, layered⟩
  | start _ name attrs =>
    cases live
    refine ⟨?_, layered⟩
    change ctx.depth + 1 = (Context.delivered ctx.frames).length + 1
    rw [leveled.depth, Context.length_delivered]
  | text _ content =>
    cases live
    obtain ⟨site, frames, work⟩ := ctx
    cases frames <;> exact ⟨leveled.depth, layered⟩
  | finish _ innermost =>
    cases live
    exact Context.leveled_leave (by rw [Context.length_delivered]; exact leveled.depth) layered
  | endDocument _ closed => cases live

variable (guarded : c.Guarded)
include guarded

theorem Asks.layered (asks : Asks c d e ctx due settled) (leveled : ctx.Leveled)
    {calls : List (Callback σ)} {ws : Workspace σ} (chain : Chain c ctx.work calls ws)
    (part : calls.map Callback.duty <+: due) :
    (∀ call ∈ calls, call.depth = ctx.depth + call.occasion.opens ∧
      Layered call.depth call.work.scopes) ∧ Layered (ctx.depth + e.opens) ws.scopes := by
  have placed : ∀ call ∈ calls, call.depth = ctx.depth + call.occasion.opens ∧
      call.occasion.opens ≤ e.opens := fun call member =>
    asks.depth_duty call.duty (part.subset (List.mem_map_of_mem member))
  have depths : calls.map Callback.depth <+: due.map Duty.depth := by
    have := part.map Duty.depth
    rwa [List.map_map] at this
  have rising : (ctx.depth :: calls.map Callback.depth).Pairwise (· ≤ ·) :=
    asks.rising.sublist (depths.sublist.cons_cons _)
  have within : ∀ n ∈ ctx.depth :: calls.map Callback.depth, n ≤ ctx.depth + e.opens := by
    intro n member
    rcases List.mem_cons.mp member with rfl | further
    · omega
    · obtain ⟨call, among, rfl⟩ := List.mem_map.mp further
      have := placed call among
      omega
  obtain ⟨found, left⟩ := chain.layered guarded rising within leveled.scopes
  exact ⟨fun call member => ⟨(placed call member).1, found call member⟩, left⟩

theorem leveled_run (leveled : d.Leveled) (e : Event) :
    (∀ call ∈ callbacks c [e] d, call.depth = d.depth + call.occasion.opens ∧
      Layered call.depth call.work.scopes) ∧ ((e.run c).perform d).2.Leveled := by
  cases outcome c e d with
  | silent none same =>
    refine ⟨by simp [none], fun ctx live => ?_⟩
    exact leveled ctx (same ctx live).1
  | @asked ctx due settled ws asks chain verdict part well badly =>
    obtain ⟨start, here⟩ := asks.leveled leveled
    obtain ⟨found, left⟩ := asks.layered guarded start chain part
    rw [here] at found
    refine ⟨found, fun after live => ?_⟩
    by_cases ok : ((e.run c).perform d).1 = .ok ()
    · rw [(well ok).2] at live
      exact asks.settles start left live
    · rw [badly ok] at live
      cases live

theorem leveled_feed (leveled : d.Leveled) (es : List Event) : (feed c es d).2.Leveled := by
  induction es generalizing d with
  | nil => exact leveled
  | cons e es ih => exact ih (leveled_run guarded leveled e).2

theorem closed_finish (leveled : d.Leveled) {name : QName} (live : d.progress = .live ctx)
    {after : Context σ} (lives : (((Event.finish name).run c).perform d).2.progress = .live after) :
    ∃ ws, Chain c ctx.work (callbacks c [.finish name] d) ws ∧
      after.work.scopes = ws.scopes.filter (fun scope => scope.mountDepth < ctx.depth) ∧
      after.depth + 1 = ctx.depth := by
  cases outcome c (.finish name) d with
  | silent none same => cases (same after lives).2
  | @asked open_ due settled ws asks chain verdict part well badly =>
    obtain ⟨start, here⟩ := asks.leveled leveled
    obtain ⟨found, left⟩ := asks.layered guarded start chain part
    by_cases ok : (((Event.finish name).run c).perform d).1 = .ok ()
    · rw [(well ok).2] at lives
      cases asks with
      | finish same innermost =>
        cases live.symm.trans same
        cases lives
        refine ⟨ws, chain, left.closeScopesFrom ctx.depth, ?_⟩
        have opens : 0 < ctx.depth := by
          rw [start.depth, innermost]
          exact Nat.succ_pos _
        change (ctx.site.trail.leave?.getD ctx.site.trail).depth + 1 = ctx.depth
        rw [Trail.depth_leave]
        exact Nat.succ_pred_eq_of_pos opens
    · rw [badly ok] at lives
      cases lives

theorem stays_run (leveled : d.Leveled) (live : d.progress = .live ctx) {scope : Scope}
    (mounted : scope.mountDepth = 0) (member : scope ∈ ctx.work.scopes) (e : Event)
    {after : Context σ} (lives : ((e.run c).perform d).2.progress = .live after) :
    scope ∈ after.work.scopes ∨
      ∃ call ∈ callbacks c [e] d, scope ∈ call.work.scopes ∧ scope ∉ (call.after c).scopes := by
  cases outcome c e d with
  | silent none same =>
    cases live.symm.trans (same after lives).1
    exact .inl member
  | @asked begun due settled ws asks chain verdict part well badly =>
    obtain ⟨start, here⟩ := asks.leveled leveled
    obtain ⟨found, left⟩ := asks.layered guarded start chain part
    by_cases ok : ((e.run c).perform d).1 = .ok ()
    · rw [(well ok).2] at lives
      cases asks with
      | startDocument idle => exact absurd (Dispatcher.state_of_live live) idle
      | start same name attrs =>
        cases live.symm.trans same
        cases lives
        exact chain.keeps member
      | text same content =>
        cases live.symm.trans same
        cases lives
        exact chain.keeps member
      | finish same innermost =>
        cases live.symm.trans same
        cases lives
        have opens : 0 < ctx.depth := by
          rw [start.depth, innermost]
          exact Nat.succ_pos _
        refine (chain.keeps member).imp_left fun kept => ?_
        change scope ∈ (ws.closeScopesFrom ctx.depth).scopes
        rw [left.closeScopesFrom]
        exact List.mem_filter.mpr ⟨kept, by simpa [mounted] using opens⟩
      | endDocument same closed => cases lives
    · rw [badly ok] at lives
      cases lives

theorem stays_feed (leveled : d.Leveled) (live : d.progress = .live ctx) {scope : Scope}
    (mounted : scope.mountDepth = 0) (member : scope ∈ ctx.work.scopes) (es : List Event)
    (going : ∀ soon, soon <+: es → (feed c soon d).2.state = .documentStarted) {after : Context σ}
    (lives : (feed c es d).2.progress = .live after) :
    scope ∈ after.work.scopes ∨
      ∃ call ∈ callbacks c es d, scope ∈ call.work.scopes ∧ scope ∉ (call.after c).scopes := by
  induction es generalizing d ctx with
  | nil =>
    cases live.symm.trans lives
    exact .inl member
  | cons e es ih =>
    obtain ⟨middle, first⟩ := Dispatcher.live_of_started (going [e] (List.prefix_append [e] es))
    rw [show e :: es = [e] ++ es from rfl, callbacks_append]
    rcases stays_run guarded leveled live mounted member e first with kept | ⟨call, among, closed⟩
    · refine (ih (leveled_run guarded leveled e).2 first kept ?_ lives).imp_right ?_
      · exact fun soon part => going (e :: soon) (List.cons_prefix_cons.mpr ⟨rfl, part⟩)
      · rintro ⟨call, among, closed⟩
        exact ⟨call, List.mem_append_right _ among, closed⟩
    · exact .inr ⟨call, List.mem_append_left _ among, closed⟩

-- Whatever the actions open and close, and wherever, the scopes stand in the order of their elements
-- at all times. So an element ends with its own scopes and all above them, and only with these, and a
-- scope from before the first element is there until an action closes it or the document is over.
theorem scopes_layered (d : Dispatcher σ) (idle : d.state ≠ .documentStarted) (es : List Event) :
    let now := (feed c es d).2
    (∀ e, ∀ call ∈ callbacks c [e] now, call.site.trail.depth = now.depth + call.occasion.opens ∧
      ∀ scopes, ScopeMoves call.site.trail.depth call.work.scopes scopes →
        Layered call.site.trail.depth scopes) ∧
    ∀ ctx, now.progress = .live ctx →
      ctx.depth = ctx.frames.length ∧ Layered ctx.depth ctx.work.scopes ∧
      (∀ name after, (((Event.finish name).run c).perform now).2.progress = .live after →
        ∃ ws, Chain c ctx.work (callbacks c [.finish name] now) ws ∧
          after.work.scopes = ws.scopes.filter (fun scope => scope.mountDepth < ctx.depth) ∧
          after.depth + 1 = ctx.depth) ∧
      ∀ scope ∈ ctx.work.scopes, scope.mountDepth = 0 →
        ∀ later, (∀ soon, soon <+: later → (feed c soon now).2.state = .documentStarted) →
        ∀ after, (feed c later now).2.progress = .live after → scope ∈ after.work.scopes ∨
          ∃ call ∈ callbacks c later now,
            scope ∈ call.work.scopes ∧ scope ∉ (call.after c).scopes := by
  intro now
  have leveled : now.Leveled := leveled_feed guarded (Dispatcher.leveled_of_idle idle) es
  refine ⟨fun e call member => ?_, fun ctx live => ?_⟩
  · obtain ⟨depth, layered⟩ := (leveled_run guarded leveled e).1 call member
    exact ⟨depth, fun scopes moved => layered.moves moved⟩
  · refine ⟨(leveled ctx live).depth, (leveled ctx live).scopes, ?_, ?_⟩
    · exact fun name after lives => closed_finish guarded leveled live lives
    · intro scope member mounted later going after lives
      exact stays_feed guarded leveled live mounted member later going lives

omit guarded in
-- Scripts that open scopes out of turn: one before the first element, two on an element, of which the
-- lower one is taken out, and two at the end of an element that nobody closes.
theorem scopes_layered_of_scripts :
    let order (owner : Nat) : ScopeOrder := { rules := [.fallback ⟨1⟩], owner := some owner }
    let actions : ActionId → Moment → List Journal.Instruction := fun id moment =>
      match id.index, moment with
      | 0, .starting => [⟨"first", .openScope (order 0), false⟩]
      | 1, .beginning => [⟨"lower", .openScope (order 1), false⟩,
          ⟨"upper", .openScope (order 2), false⟩, ⟨"take", .closeOwned 1, false⟩]
      | 1, .ending => [⟨"late", .openScope (order 3), false⟩, ⟨"late", .openScope (order 4), false⟩]
      | _, _ => []
    let c := Catalogue.tie (fun id => Journal.scripted id "script" (actions id)) 2
    let table := ((RuleTable.registerAll [.fallback ⟨0⟩]).perform {}).2
    let d : Dispatcher Journal := .new (.base table) {} false #[]
    let es : List Event :=
      [.startDocument, .start ⟨"", "r"⟩ {}, .start ⟨"", "x"⟩ {}, .finish ⟨"", "x"⟩]
    c.Guarded ∧ ∃ ctx, (feed c es d).2.progress = .live ctx ∧
      ctx.work.scopes.map (fun scope => (scope.mountDepth, scope.owner)) =
        [(1, some (.other 2)), (0, some (.other 0))] ∧ Layered ctx.depth ctx.work.scopes := by
  intro order actions c table d es
  have guarded : c.Guarded := Catalogue.guarded_tie (fun id _ others =>
    Journal.guarded_scripted others id "script" (actions id)) 2
  have started : (feed c es d).2.state = .documentStarted := by decide +kernel
  obtain ⟨ctx, live⟩ := Dispatcher.live_of_started started
  obtain ⟨_, layered, _⟩ := (scopes_layered guarded d (by decide) es).2 ctx live
  refine ⟨guarded, ctx, live, ?_, layered⟩
  have found : (feed c es d).2.context?.map (fun ctx => ctx.work.scopes.map fun scope =>
      (scope.mountDepth, scope.owner)) = some [(1, some (.other 2)), (0, some (.other 0))] := by
    decide +kernel
  rw [Dispatcher.context?, live] at found
  exact Option.some.inj found

end Event

end Levels
end XmlRules
