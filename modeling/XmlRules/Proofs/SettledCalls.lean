import Mathlib.Data.List.Chain
import XmlRules.Proofs.PendingCalls
namespace XmlRules

section Order
variable {σ : Type} (actions : ActionId → StockAction)

structure Callback.Early (trail : Trail) (call : Callback σ) : Prop where
  param : ∃ p, actions call.actor = .param p
  begins : call.occasion.phase = .begin
  here : call.site.trail = trail

structure Pending.Kept (p : Pending σ) : Prop where
  begun : ∃ name attrs, p.own.occasion = .begin name attrs
  params : ∀ w ∈ p.writers, ∃ param, actions w.actor = .param param
  early : p.crowded → ∀ w ∈ p.writers, w.Early actions p.trail

def Pending.Beneath (above p : Pending σ) : Prop := p.crowded ↔ above.trail = p.trail

-- Waiting calls as they are between two events.
structure Orderly (pend : List (Pending σ)) : Prop where
  chain : pend.IsChain Pending.Beneath
  free : ∀ p ∈ pend.head?, p.crowded = false
  kept : ∀ p ∈ pend, p.Kept actions

structure Opening (trail : Trail) (pend : List (Pending σ)) : Prop extends Orderly actions pend where
  early : ∀ p ∈ pend, p.trail = trail → ∀ w ∈ p.writers, w.Early actions trail

variable {actions} {pend : List (Pending σ)}

theorem beneath_modifyHead (f : Pending σ → Pending σ) (same : ∀ p, (f p).trail = p.trail)
    (chain : pend.IsChain Pending.Beneath) : (pend.modifyHead f).IsChain Pending.Beneath := by
  cases pend with
  | nil => exact chain
  | cons p pend =>
    obtain ⟨next, chain⟩ := List.isChain_cons.mp chain
    refine List.isChain_cons.mpr ⟨fun below first => ?_, chain⟩
    unfold Pending.Beneath
    rw [same]
    exact next below first

theorem forall_modifyHead {f : Pending σ → Pending σ} {property : Pending σ → Prop}
    (head : ∀ p ∈ pend.head?, property (f p)) (all : ∀ p ∈ pend, property p) :
    ∀ p ∈ pend.modifyHead f, property p := by
  cases pend with
  | nil => exact all
  | cons p pend =>
    intro q member
    rcases List.mem_cons.mp member with rfl | further
    · exact head p rfl
    · exact all q (List.mem_cons_of_mem _ further)

theorem Orderly.filled (orderly : Orderly actions pend) {calls : List (Callback σ)}
    (params : ∀ call ∈ calls, ∃ param, actions call.actor = .param param) :
    Orderly actions (pend.modifyHead (.filledBy calls)) := by
  refine ⟨beneath_modifyHead _ (fun _ => rfl) orderly.chain, ?_, ?_⟩
  · cases pend with
    | nil => simp
    | cons p pend => simpa [Pending.filledBy] using orderly.free
  · refine forall_modifyHead (fun p first => ?_) orderly.kept
    have kept := orderly.kept p (List.mem_of_head? first)
    refine ⟨kept.begun, fun w member => ?_, fun crowded => ?_⟩
    · rcases List.mem_append.mp member with old | new
      · exact kept.params w old
      · exact params w new
    · have free := orderly.free p first
      exact absurd crowded (by simp [Pending.filledBy, free])

section Begun
variable {trail : Trail} {call : Callback σ} {name : QName} {attrs : Attributes}

theorem Opening.opened (opening : Opening actions trail pend) (here : call.site.trail = trail)
    (begins : call.occasion = .begin name attrs) :
    Opening actions trail ({ own := call } :: pend.modifyHead (.beside call)) := by
  have chain := beneath_modifyHead (.beside call) (fun _ => rfl) opening.chain
  refine ⟨⟨List.isChain_cons.mpr ⟨fun p first => ?_, chain⟩, by simp, ?_⟩, ?_⟩
  · cases pend with
    | nil => cases first
    | cons q pend =>
      obtain rfl : q.beside call = p := Option.some.inj first
      simp [Pending.Beneath, Pending.beside, opening.free q rfl, Pending.trail, eq_comm]
  · refine List.forall_mem_cons.mpr ⟨⟨⟨name, attrs, begins⟩, by simp, by simp⟩, ?_⟩
    refine forall_modifyHead (fun p first => ?_) opening.kept
    have known := List.mem_of_head? first
    refine ⟨(opening.kept p known).begun, (opening.kept p known).params, fun crowded => ?_⟩
    have same : p.trail = trail := by
      simpa [Pending.beside, opening.free p first, here] using crowded
    change ∀ w ∈ p.writers, w.Early actions p.trail
    rw [same]
    exact opening.early p known same
  · refine List.forall_mem_cons.mpr ⟨by simp, ?_⟩
    exact forall_modifyHead (fun p first => opening.early p (List.mem_of_head? first)) opening.early

theorem Opening.await (opening : Opening actions trail pend) (here : call.site.trail = trail)
    (begins : call.occasion = .begin name attrs) : Opening actions trail (call.await actions pend) := by
  unfold Callback.await
  cases deed : call.deed actions with
  | nothing => exact opening
  | opens size => exact opening.opened here begins
  | closes =>
    unfold Callback.deed at deed
    rw [begins] at deed
    cases kind : actions call.actor with
    | call | create | link | nested =>
      rw [kind] at deed
      cases deed
    | param p =>
      rw [kind] at deed
      have calm := p.calm (.begin name attrs)
      rw [show p.deed (.begin name attrs) = .closes from deed] at calm
      cases calm
  | fills index value =>
    have param : ∃ p, actions call.actor = .param p := by
      rcases fills_cases deed with param | ⟨_, _, _, _, _, told⟩
      · exact param
      · rw [begins] at told
        cases told
    refine ⟨opening.filled (by simpa using param), ?_⟩
    refine forall_modifyHead (fun p first same w member => ?_) opening.early
    rcases List.mem_append.mp member with old | new
    · exact opening.early p (List.mem_of_head? first) same w old
    · obtain rfl := List.mem_singleton.mp new
      exact ⟨param, by rw [begins]; rfl, here⟩

end Begun

theorem Orderly.opening (orderly : Orderly actions pend) {trail : Trail}
    (fresh : ∀ p ∈ pend, p.trail ≠ trail) : Opening actions trail pend :=
  ⟨orderly, fun p member same => absurd same (fresh p member)⟩

theorem Opening.begins {trail : Trail} (opening : Opening actions trail pend) {more : List (Callback σ)}
    (told : ∀ call ∈ more, call.occasion.idle ∨
      call.site.trail = trail ∧ ∃ name attrs, call.occasion = .begin name attrs) :
    Opening actions trail (more.foldl (Callback.await actions) pend) := by
  induction more generalizing pend with
  | nil => exact opening
  | cons call more ih =>
    refine ih ?_ fun other member => told other (List.mem_cons_of_mem _ member)
    rcases told call List.mem_cons_self with idle | ⟨here, name, attrs, begins⟩
    · simpa only [Callback.await, deed_idle idle] using opening
    · exact opening.await here begins

-- What is given to a call in the end, when the body text has been told. A call that another one has
-- followed on its element has been filled by attributes of the element alone; any other call has been
-- given the body text as well, where it has no parameters itself.
structure Pending.Settled (actions : ActionId → StockAction) (p : Pending σ) : Prop where
  begun : ∃ name attrs, p.own.occasion = .begin name attrs
  crowded : p.crowded → ∀ w ∈ p.writers, w.Early actions p.trail
  filled : ¬ p.crowded → ∀ w ∈ p.writers, (∃ param, actions w.actor = .param param) ∨
    ∃ c name text, actions w.actor = .call c ∧ c.arity = 0 ∧ w.occasion = .body name text ∧
      w.site.trail = p.trail
  text : ¬ p.crowded → ∀ c, actions p.own.actor = .call c → c.arity = 0 →
    ∃ w ∈ p.writers, w.actor = p.own.actor ∧ w.site.trail = p.trail ∧
      ∃ name text, w.occasion = .body name text ∧ p.frame actions = [some text]

structure Callback.Tells (actions : ActionId → StockAction) (trail : Trail) (name : QName)
    (text : String) (call : Callback σ) : Prop where
  fills : ∃ index, call.deed actions = .fills index (some text)
  told : call.occasion = .body name text
  here : call.site.trail = trail

section Closing
variable {trail : Trail} {top rest : List (Pending σ)} {writers : List (Callback σ)} {name : QName}
  {text : String}

theorem crowded_of_chain {p : Pending σ} (chain : (p :: top).IsChain Pending.Beneath)
    (here : ∀ q ∈ p :: top, q.trail = trail) : ∀ q ∈ top, q.crowded := by
  induction top generalizing p with
  | nil => simp
  | cons next top ih =>
    obtain ⟨beneath, further⟩ := List.isChain_cons_cons.mp chain
    obtain ⟨first, others⟩ := List.forall_mem_cons.mp here
    refine List.forall_mem_cons.mpr ⟨beneath.mpr ?_, ih further others⟩
    rw [first, others next List.mem_cons_self]

theorem filled_alone {frame : ParamFrame} (size : frame.length = 1)
    (tells : ∀ w ∈ writers, w.Tells actions trail name text)
    (some_first : frame = [some text] ∨ ∃ w ∈ writers, w.deed actions = .fills 0 (some text)) :
    writers.foldl (Callback.fill actions) frame = [some text] := by
  induction writers generalizing frame with
  | nil => simpa using some_first
  | cons w writers ih =>
    obtain ⟨value, rfl⟩ := List.length_eq_one_iff.mp size
    obtain ⟨first, others⟩ := List.forall_mem_cons.mp tells
    obtain ⟨index, fills⟩ := first.fills
    rw [List.foldl_cons, Callback.fill, fills]
    refine ih (by simp [Deed.onFrame]) others ?_
    cases index with
    | zero => exact .inl rfl
    | succ index => simpa [fills, Deed.onFrame] using some_first

theorem Pending.length_frame (p : Pending σ) :
    (p.frame actions).length = (p.own.deed actions).made.length := by
  unfold Pending.frame
  generalize (p.own.deed actions).made = frame
  induction p.writers generalizing frame with
  | nil => rfl
  | cons w writers ih =>
    rw [List.foldl_cons, ih, Callback.fill]
    cases w.deed actions <;> simp [Deed.onFrame]

theorem made_of_begun {own : Callback σ} {c : Call} (calls : actions own.actor = .call c)
    (begun : ∃ name attrs, own.occasion = .begin name attrs) :
    (own.deed actions).made = List.replicate c.frameSize none := by
  obtain ⟨name, attrs, begun⟩ := begun
  rw [Callback.deed, calls, begun]
  rfl

theorem Pending.length_of_begun {p : Pending σ} {c : Call} (calls : actions p.own.actor = .call c)
    (begun : ∃ name attrs, p.own.occasion = .begin name attrs) :
    (p.frame actions).length = c.frameSize := by
  rw [Pending.length_frame, made_of_begun calls begun, List.length_replicate]

theorem Pending.Kept.settled {p : Pending σ} (kept : p.Kept actions) (free : p.crowded = false)
    (here : p.trail = trail) (tells : ∀ w ∈ writers, w.Tells actions trail name text)
    (told : ∀ c, actions p.own.actor = .call c → c.arity = 0 → ∃ w ∈ writers, w.actor = p.own.actor) :
    (p.filledBy writers).Settled actions := by
  refine ⟨kept.begun, fun crowded => absurd crowded (by simp [Pending.filledBy, free]), ?_, ?_⟩
  · intro _ w member
    rcases List.mem_append.mp member with old | new
    · exact .inl (kept.params w old)
    · have tell := tells w new
      obtain ⟨index, fills⟩ := tell.fills
      rcases fills_cases fills with param | ⟨c, name, text, calls, alone, body⟩
      · exact .inl param
      · exact .inr ⟨c, name, text, calls, alone, body, tell.here.trans here.symm⟩
  · intro _ c calls alone
    change actions p.own.actor = .call c at calls
    obtain ⟨w, known, same⟩ := told c calls alone
    have tell := tells w known
    refine ⟨w, List.mem_append_right _ known, same, tell.here.trans here.symm, name, text, tell.told, ?_⟩
    have fills : w.deed actions = .fills 0 (some text) := by
      rw [Callback.deed, same, calls, tell.told]
      exact if_pos alone
    have size : (p.frame actions).length = 1 := by
      rw [Pending.length_of_begun calls kept.begun, Call.frameSize, alone]
      rfl
    rw [Pending.frame_filledBy]
    exact filled_alone size tells (.inr ⟨w, known, fills⟩)

theorem Orderly.settled (orderly : Orderly actions (top ++ rest)) (here : ∀ p ∈ top, p.trail = trail)
    (apart : ∀ p ∈ rest, p.trail ≠ trail) (tells : ∀ w ∈ writers, w.Tells actions trail name text)
    (told : ∀ p ∈ top, ∀ c, actions p.own.actor = .call c → c.arity = 0 →
      ∃ w ∈ writers, w.actor = p.own.actor) :
    ∀ p ∈ (top ++ rest).modifyHead (.filledBy writers), p.trail = trail → p.Settled actions := by
  cases top with
  | nil =>
    have others : ∀ p ∈ rest.modifyHead (.filledBy writers), p.trail ≠ trail :=
      forall_modifyHead (fun p first => apart p (List.mem_of_head? first)) apart
    exact fun p member same => absurd same (others p member)
  | cons p top =>
    refine List.forall_mem_cons.mpr ⟨fun _ => ?_, fun q member same => ?_⟩
    · have known : p ∈ p :: top ++ rest := List.mem_cons_self
      exact (orderly.kept p known).settled (orderly.free p rfl) (here p List.mem_cons_self) tells
        (told p List.mem_cons_self)
    · rcases List.mem_append.mp member with own | further
      · have crowded := crowded_of_chain (List.isChain_append.mp orderly.chain).1 here q own
        have kept := orderly.kept q (List.mem_cons_of_mem _ member)
        exact ⟨kept.begun, kept.early, fun free => absurd crowded free, fun free => absurd crowded free⟩
      · exact absurd same (apart q further)

theorem Orderly.closed (orderly : Orderly actions (top ++ rest)) (here : ∀ p ∈ top, p.trail = trail)
    (apart : ∀ p ∈ rest, p.trail ≠ trail)
    (params : top = [] → ∀ w ∈ writers, ∃ param, actions w.actor = .param param) :
    Orderly actions (((top ++ rest).modifyHead (.filledBy writers)).drop top.length) := by
  cases top with
  | nil => exact orderly.filled (params rfl)
  | cons p top =>
    have left : ((p :: top ++ rest).modifyHead (.filledBy writers)).drop (p :: top).length = rest := by
      simp
    obtain ⟨_, chain, meets⟩ := List.isChain_append.mp orderly.chain
    rw [left]
    refine ⟨chain, fun q first => ?_, fun q member => orderly.kept q (by simp [member])⟩
    obtain ⟨last, ends⟩ : ∃ last, (p :: top).getLast? = some last := by simp [List.getLast?_cons]
    have beneath := meets last ends q first
    have away : ¬ q.crowded := fun crowded => by
      have same := (beneath.mp crowded).symm.trans (here last (List.mem_of_getLast? ends))
      exact apart q (List.mem_of_head? first) same
    simpa using away

end Closing

theorem of_filled {frame : ParamFrame} {writers : List (Callback σ)} {index : Nat} {value : String}
    (stands : (writers.foldl (Callback.fill actions) frame)[index]? = some (some value)) :
    frame[index]? = some (some value) ∨ ∃ w ∈ writers, w.deed actions = .fills index (some value) := by
  induction writers generalizing frame with
  | nil => exact .inl stands
  | cons w writers ih =>
    rcases ih stands with before | ⟨other, member, fills⟩
    · unfold Callback.fill at before
      cases deed : w.deed actions with
      | opens | closes | nothing =>
        rw [deed] at before
        exact .inl before
      | fills place given =>
        simp only [deed, Deed.onFrame, List.getElem?_set] at before
        split at before
        · rename_i same
          subst same
          split at before
          · obtain rfl : given = some value := Option.some.inj before
            exact .inr ⟨w, List.mem_cons_self, deed⟩
          · cases before
        · exact .inl before
    · exact .inr ⟨other, List.mem_cons_of_mem _ member, fills⟩

theorem of_untouched {frame : ParamFrame} {writers : List (Callback σ)} {index : Nat}
    (untouched : ∀ w ∈ writers, ∀ value, w.deed actions ≠ .fills index value) :
    (writers.foldl (Callback.fill actions) frame)[index]? = frame[index]? := by
  induction writers generalizing frame with
  | nil => rfl
  | cons w writers ih =>
    obtain ⟨first, others⟩ := List.forall_mem_cons.mp untouched
    rw [List.foldl_cons, ih others, Callback.fill]
    cases deed : w.deed actions with
    | opens | closes | nothing => rfl
    | fills place given =>
      have away : place ≠ index := by
        rintro rfl
        exact first given deed
      simp [Deed.onFrame, List.getElem?_set_ne away]

theorem deed_ending {call : Callback σ} {name : QName} (ends : call.occasion = .ending name) :
    call.deed actions = .nothing ∨ call.deed actions = .closes := by
  unfold Callback.deed
  rw [ends]
  cases actions call.actor with
  | call c => exact .inr rfl
  | create | link | param | nested => exact .inl rfl

-- A call ends on its own frame, the first of all, with what has been given to it.
def Callback.Fair (actions : ActionId → StockAction) (before : List (Callback σ))
    (call : Callback σ) : Prop :=
  ∀ c name, actions call.actor = .call c → call.occasion = .ending name →
    ∃ p rest, awaiting actions before = p :: rest ∧ p.own.actor = call.actor ∧
      p.trail = call.site.trail ∧ (p.frame actions).length = c.frameSize ∧ p.Settled actions ∧
        call.work.params = (p :: rest).map (·.frame actions)

def AllFair (actions : ActionId → StockAction) (calls : List (Callback σ)) : Prop :=
  ∀ before call later, calls = before ++ call :: later → call.Fair actions before

theorem AllFair.snoc {calls : List (Callback σ)} (fair : AllFair actions calls) {call : Callback σ}
    (last : call.Fair actions calls) : AllFair actions (calls ++ [call]) :=
  forall_split_snoc fair last

theorem AllFair.append {calls more : List (Callback σ)} (fair : AllFair actions calls)
    (others : ∀ call ∈ more, ∀ name, call.occasion ≠ .ending name) :
    AllFair actions (calls ++ more) := by
  induction more using List.reverseRecOn with
  | nil => rwa [List.append_nil]
  | append_singleton more call ih =>
    rw [← List.append_assoc]
    refine (ih fun other member => others other (List.mem_append_left _ member)).snoc ?_
    intro c name _ ends
    exact absurd ends (others call (by simp) name)

section Ending
variable {trail : Trail} {calls more : List (Callback σ)} {call : Callback σ}
  {after : List ParamFrame}

theorem AllProper.init (proper : AllProper actions (calls ++ more)) : AllProper actions calls := by
  intro before other later shape
  exact proper before other (later ++ more) (by simp [shape])

theorem fair_ending (proper : AllProper actions (calls ++ [call]))
    (found : call.work.params = (awaiting actions calls).map (·.frame actions))
    (settled : ∀ p ∈ awaiting actions calls, p.trail = call.site.trail → p.Settled actions) :
    call.Fair actions calls := by
  intro c name kind ends
  have last := proper calls call [] rfl
  simp only [Callback.Proper, kind, ends] at last
  obtain ⟨own, rest, held, popped⟩ := last
  have waits := own_awaiting proper.init
  have first : own.Calls actions := by rw [Callback.Calls, popped.actor, kind]
  rw [held, List.filter_cons_of_pos first] at waits
  obtain ⟨p, below, shape, rfl, _⟩ := List.map_eq_cons_iff.mp waits
  have given := settled p (by simp [shape]) popped.element
  exact ⟨p, below, shape, popped.actor, popped.element,
    Pending.length_of_begun (popped.actor ▸ kind) given.begun, given, shape ▸ found⟩

-- While an element ends, its calls come off one by one.
theorem fair_endings (fair : AllFair actions calls) (proper : AllProper actions (calls ++ more))
    (tracks : Tracks actions ((awaiting actions calls).map (·.frame actions)) more after)
    (settled : ∀ p ∈ awaiting actions calls, p.trail = trail → p.Settled actions)
    (told : ∀ call ∈ more, call.occasion.idle ∨
      call.site.trail = trail ∧ ∃ name, call.occasion = .ending name) :
    AllFair actions (calls ++ more) ∧ awaiting actions (calls ++ more) <:+ awaiting actions calls := by
  induction more generalizing calls with
  | nil => simpa using fair
  | cons call more ih =>
    obtain ⟨found, tracks⟩ := tracks
    have shape : calls ++ call :: more = (calls ++ [call]) ++ more := by simp
    rw [shape] at proper ⊢
    have fairly : call.Fair actions calls := by
      rcases told call List.mem_cons_self with idle | ⟨here, _⟩
      · intro c name _ ends
        rw [ends] at idle
        cases idle
      · exact fair_ending proper.init found fun p member same => settled p member (same.trans here)
    have shrinks : awaiting actions (calls ++ [call]) <:+ awaiting actions calls := by
      have deeds : call.deed actions = .nothing ∨ call.deed actions = .closes :=
        (told call List.mem_cons_self).elim (fun idle => .inl (deed_idle idle))
          fun ends => deed_ending ends.2.choose_spec
      rw [awaiting_snoc, Callback.await]
      rcases deeds with rests | closes
      · simp [rests]
      · simpa only [closes] using List.tail_suffix _
    rw [← frames_await, ← awaiting_snoc] at tracks
    obtain ⟨all, further⟩ := ih (fair.snoc fairly) proper tracks
      (fun p member => settled p (shrinks.subset member))
      fun other member => told other (List.mem_cons_of_mem _ member)
    exact ⟨all, further.trans shrinks⟩

end Ending
end Order
end XmlRules
