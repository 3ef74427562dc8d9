import XmlRules.Proofs.MountedCalls
namespace XmlRules
open Step NestedRules

section Loops
variable {σ : Type} {c : Catalogue σ}

-- Of the calls that were due, those up to and including the first that fails, and its error.
inductive UpToFailure (due : List Duty) : List (Callback σ) → Option ActionError → Prop where
  | all {made : List (Callback σ)} (told : made.map Callback.duty = due)
      (well : ∀ call ∈ made, call.result = .ok ()) : UpToFailure due made none
  | failed {done : List (Callback σ)} {call : Callback σ} (left : List Duty) {e : ActionError}
      (told : done.map Callback.duty ++ call.duty :: left = due)
      (well : ∀ earlier ∈ done, earlier.result = .ok ()) (last : call.result = .error e) :
      UpToFailure due (done ++ [call]) (some e)

theorem UpToFailure.cons {due : List Duty} {made : List (Callback σ)} {failure : Option ActionError}
    (rest : UpToFailure due made failure) {call : Callback σ} (fine : call.result = .ok ()) :
    UpToFailure (call.duty :: due) (call :: made) failure := by
  cases rest with
  | all told well => exact .all (by simp [told]) (by simpa [fine] using well)
  | @failed done last left e told well failed =>
    have longer : UpToFailure (call.duty :: due) ((call :: done) ++ [last]) (some e) :=
      .failed left (by simp [← told]) (by simpa [fine] using well) failed
    exact longer

theorem UpToFailure.append {due more : List Duty} {made others : List (Callback σ)}
    {failure : Option ActionError} (first : UpToFailure due made none)
    (second : UpToFailure more others failure) :
    UpToFailure (due ++ more) (made ++ others) failure := by
  obtain ⟨told, well⟩ := first
  induction made generalizing due with
  | nil =>
    subst told
    simpa using second
  | cons call made ih =>
    subst told
    exact (ih rfl (by simp_all)).cons (well call List.mem_cons_self)

theorem UpToFailure.longer {due : List Duty} {made : List (Callback σ)} {e : ActionError}
    (stopped : UpToFailure due made (some e)) (more : List Duty) :
    UpToFailure (due ++ more) made (some e) := by
  cases stopped with
  | failed left told well failed =>
    exact .failed (left ++ more) (by simp [← told]) well failed

theorem UpToFailure.mem {due : List Duty} {made : List (Callback σ)} {failure : Option ActionError}
    (upTo : UpToFailure due made failure) {call : Callback σ} (member : call ∈ made) :
    call.duty ∈ due := by
  cases upTo with
  | all told well =>
    rw [← told]
    exact List.mem_map_of_mem member
  | failed left told well last =>
    rw [← told]
    obtain early | here := List.mem_append.mp member
    · exact List.mem_append_left _ (List.mem_map_of_mem early)
    · simp [List.mem_singleton.mp here]

def outcome : Option ActionError → Except ActionError Unit
  | none => .ok ()
  | some e => .error e

theorem perform_loop (c : Catalogue σ) (occasion : Occasion) (site : Site) (ids : List ActionId)
    (ws : Workspace σ) : ∃ made last failure, Chain c ws made last ∧
      UpToFailure (ids.map (⟨·, occasion, site⟩)) made failure ∧
      Step.perform (ids.forM fun id => occasion.answer (c id)) site ws = (outcome failure, last) := by
  induction ids generalizing ws with
  | nil => exact ⟨[], ws, none, .nil ws, .all rfl (by simp), rfl⟩
  | cons id ids ih =>
    let call : Callback σ :=
      ⟨id, occasion, site, ws, (Step.perform (occasion.answer (c id)) site ws).1⟩
    have split : Step.perform ((id :: ids).forM fun id => occasion.answer (c id)) site ws = _ :=
      Attempt.perform_bind (occasion.answer (c id) site) _ ws
    cases ran : Step.perform (occasion.answer (c id)) site ws with
    | mk result between =>
      have left : call.after c = between := by simp [call, Callback.after, ran]
      rw [show (occasion.answer (c id) site).perform ws = _ from ran] at split
      cases result with
      | error e =>
        have chain : Chain c call.work ([] ++ [call]) between := .cons rfl (left ▸ .nil _)
        exact ⟨[] ++ [call], between, some e, chain,
          .failed (ids.map (⟨·, occasion, site⟩)) rfl (by simp) (by simp [call, ran]), split⟩
      | ok value =>
        obtain ⟨made, last, failure, chain, upTo, rest⟩ := ih between
        have fine : call.result = .ok () := by simp [call, ran]
        exact ⟨call :: made, last, failure, .cons rfl (left ▸ chain), upTo.cons fine, split.trans rest⟩

theorem Chain.carries (kept : Workspace σ → Workspace σ → Prop) (same : ∀ ws, kept ws ws)
    (chained : ∀ {ws between last}, kept ws between → kept between last → kept ws last)
    {ws last : Workspace σ} {made : List (Callback σ)} (chain : Chain c ws made last)
    (each : ∀ call ∈ made, kept call.work (call.after c)) : kept ws last := by
  induction chain with
  | nil ws => exact same ws
  | cons result later ih =>
    have first := each _ List.mem_cons_self
    have rest := ih fun call member => each call (List.mem_cons_of_mem _ member)
    exact chained first rest

theorem Chain.scopes_kept {ws last : Workspace σ} {made : List (Callback σ)}
    (chain : Chain c ws made last)
    (each : ∀ call ∈ made, (call.after c).scopes = call.work.scopes) : last.scopes = ws.scopes :=
  chain.carries (fun ws after => after.scopes = ws.scopes) (fun _ => rfl)
    (fun here there => there.trans here) each

theorem scopes_of_loop {occasion : Occasion} {site : Site} {ids : List ActionId}
    {ws last : Workspace σ} {made : List (Callback σ)} (chain : Chain c ws made last)
    {failure : Option ActionError} (upTo : UpToFailure (ids.map (⟨·, occasion, site⟩)) made failure)
    (still : ∀ id ∈ ids, (occasion.answer (c id)).Still) : last.scopes = ws.scopes := by
  apply chain.scopes_kept
  intro call member
  obtain ⟨id, listed, same⟩ := List.mem_map.mp (upTo.mem member)
  obtain ⟨rfl, rfl, rfl⟩ := Duty.mk.inj same
  exact still call.actor listed call.site call.work

end Loops

namespace NestedRules
variable {σ : Type} {c : Catalogue σ}

theorem owned_split {scopes : List Scope} {own : Scope → Bool} {scope : Scope}
    (owns : scopes.find? own = some scope) : ∃ inner outer, scopes = inner ++ scope :: outer ∧
      (∀ s ∈ inner, own s = false) ∧ scopes.eraseP own = inner ++ outer := by
  obtain ⟨mine, inner, outer, shape, others⟩ := List.find?_eq_some_iff_append.mp owns
  have clear : ∀ s ∈ inner, ¬ own s = true := by simpa using others
  refine ⟨inner, outer, shape, by simpa using others, ?_⟩
  rw [shape, List.eraseP_append_right _ clear, List.eraseP_cons_of_pos mine]

theorem perform_failure_of {step : Step σ Unit} {site : Site} {ws after : Workspace σ}
    {failed : Option ActionError} (ran : Step.perform step site ws = (outcome failed, after)) :
    Step.perform (failure? step) site ws = (.ok failed, after) := by
  rw [perform_failure?, ran]
  cases failed <;> rfl

theorem perform_leave {self : ActionId} {name : QName} {site : Site}
    {ws closing after : Workspace σ} {scope : Scope} {failed unfinished : Option ActionError}
    (owns : ws.scopes.find? (ownedHere (.nested self) site.trail.depth) = some scope)
    (ended : Step.perform (scope.mountActions.reverse.forM fun id => (c id).onEnd name) site ws =
      (outcome failed, closing)) (same : closing.scopes = ws.scopes)
    (finished : Step.perform (c.finish scope.rules.actions) site { closing with
      scopes := ws.scopes.eraseP (ownedHere (.nested self) site.trail.depth) } =
        (outcome unfinished, after)) :
    Step.perform (leave self c name) site ws = (outcome (failed.or unfinished), after) := by
  have open_ : closing.scopes.find? (ownedHere (.nested self) site.trail.depth) = some scope := by
    rw [same]
    exact owns
  have taken := perform_closeOwnedScope open_
  rw [same] at taken
  unfold leave
  rw [perform_next (perform_mounted owns), perform_next (perform_failure_of ended),
    perform_next taken, perform_next (perform_failure_of finished)]
  cases failed.or unfinished <;> rfl

-- The end of an element for an action that nests rules and has a scope there, where no mount action
-- and no action of the rules touches the scopes, but each of them may fail. The mount actions end in
-- reverse, up to the first that fails; the innermost own scope is taken out from wherever it stands;
-- the actions of the rules are finished, up to the first that fails, even so; the first error counts.
theorem leave_settles (c : Catalogue σ) (self : ActionId) (name : QName) (site : Site)
    (ws : Workspace σ) {scope : Scope}
    (owns : ws.scopes.find? (ownedHere (.nested self) site.trail.depth) = some scope)
    (ending : ∀ id ∈ scope.mountActions, ((c id).onEnd name).Still)
    (finishing : ∀ id ∈ scope.rules.actions, (c id).onFinish.Still) :
    ∃ inner outer ends closing failed finishes after unfinished,
      ws.scopes = inner ++ scope :: outer ∧
      (∀ s ∈ inner, ownedHere (.nested self) site.trail.depth s = false) ∧
      Chain c ws ends closing ∧
      UpToFailure (scope.mountActions.reverse.map (⟨·, .ending name, site⟩)) ends failed ∧
      closing.scopes = ws.scopes ∧
      Chain c { closing with scopes := inner ++ outer } finishes after ∧
      UpToFailure (scope.rules.actions.map (⟨·, .finish, site⟩)) finishes unfinished ∧
      after.scopes = inner ++ outer ∧
      Step.perform (leave self c name) site ws = (outcome (failed.or unfinished), after) ∧
      ∀ calls, scope.rules.table = .after calls → scope.rules.actions.Nodup := by
  obtain ⟨inner, outer, shape, others, erased⟩ := owned_split owns
  obtain ⟨ends, closing, failed, ended, endsUpTo, endsRan⟩ :=
    perform_loop c (.ending name) site scope.mountActions.reverse ws
  have endsKept : closing.scopes = ws.scopes :=
    scopes_of_loop ended endsUpTo fun id listed => ending id (List.mem_reverse.mp listed)
  obtain ⟨finishes, after, unfinished, finished, finishesUpTo, finishesRan⟩ :=
    perform_loop c .finish site scope.rules.actions { closing with scopes := inner ++ outer }
  have finishesKept : after.scopes = inner ++ outer := scopes_of_loop finished finishesUpTo finishing
  have whole := perform_leave owns endsRan endsKept (erased ▸ finishesRan)
  refine ⟨inner, outer, ends, closing, failed, finishes, after, unfinished, shape, others, ended,
    endsUpTo, endsKept, finished, finishesUpTo, finishesKept, whole, ?_⟩
  intro calls known
  have distinct := RuleTable.nodup_actions_after calls
  rwa [← known] at distinct

-- Of three mount actions the second fails, so the first is not told; the rules are finished up to the
-- first of them, which fails as well; somebody else's scope above and an older own one below stay.
theorem leave_settles_of_two_failures :
    let tell (n : Nat) (fails : Bool) : Step (List Nat) Unit := do
      note (· ++ [n])
      if fails then throw (.failed (toString n) none)
    let c : Catalogue (List Nat) := fun id =>
      { name := "K", onEnd := fun _ => tell id.index (id.index == 2),
        onFinish := tell (10 + id.index) (id.index == 1) }
    let rules : Registry := .base (.after [.register (.rule "b" ⟨1⟩), .register (.rule "b" ⟨2⟩),
      .register (.rule "b" ⟨3⟩), .register (.rule "c" ⟨4⟩)])
    let site : Site := { trail := ({} : Trail).enter ⟨"", "b"⟩, rules, factory := {} }
    let scope : Scope := ⟨rules, 1, [⟨1⟩, ⟨2⟩, ⟨3⟩], some (.nested ⟨0⟩)⟩
    let above : Scope := ⟨rules, 1, [], some (.other 7)⟩
    let older : Scope := ⟨rules, 1, [⟨4⟩], some (.nested ⟨0⟩)⟩
    let ws : Workspace (List Nat) := { journal := [], scopes := [above, scope, older] }
    let left := Step.perform (leave ⟨0⟩ c ⟨"", "b"⟩) site ws
    ws.scopes.find? (ownedHere (.nested ⟨0⟩) site.trail.depth) = some scope ∧
      (∃ inner outer, ws.scopes = inner ++ scope :: outer ∧ left.2.scopes = inner ++ outer) ∧
      left.1 = .error (.failed "2" none) ∧ left.2.journal = [3, 2, 11] ∧
      left.2.scopes.map Scope.owner = [some (.other 7), some (.nested ⟨0⟩)] := by
  intro tell c rules site scope above older ws left
  have owns : ws.scopes.find? (ownedHere (.nested ⟨0⟩) site.trail.depth) = some scope := rfl
  have still : ∀ n fails, (tell n fails).Still := by
    intro n fails
    have noted : (note (· ++ [n]) : Step (List Nat) Unit).Still := still_modify fun _ => rfl
    apply noted.bind
    intro _
    cases fails with
    | true => exact still_throw _
    | false => exact still_pure ()
  obtain ⟨inner, outer, _, _, _, _, after, _, shape, -, -, -, -, -, -, kept, ran, -⟩ :=
    leave_settles c ⟨0⟩ ⟨"", "b"⟩ site ws owns (fun _ _ => still _ _) fun _ _ => still _ _
  have stack : left.2.scopes = inner ++ outer := by rw [← kept, show left = _ from ran]
  exact ⟨owns, ⟨inner, outer, shape, stack⟩, by decide +kernel, by decide +kernel, by decide +kernel⟩

-- What is asked when a scope has been opened for an element: the actions of its rules are started,
-- then those that they match there begin.
def mountDuties (table : RuleTable) (name : QName) (attrs : Attributes) (site : Site) : List Duty :=
  table.actions.map (⟨·, .start, site⟩) ++
    (table.matching site.trail.path).map (⟨·, .begin name attrs, site⟩)

def withScope (self : ActionId) (table : RuleTable) (attrs : Attributes) (site : Site)
    (ws : Workspace σ) : Workspace σ :=
  { ws with
    scopes := (site.mount attrs).scope self table (topmost site.rules ws.scopes) :: ws.scopes }

theorem mount_calls (self : ActionId) (table : RuleTable) (c : Catalogue σ) (name : QName)
    (attrs : Attributes) (site : Site) (ws : Workspace σ) : ∃ made last failure,
      Chain c (withScope self table attrs site ws) made last ∧
      UpToFailure (mountDuties table name attrs site) made failure ∧
      mount self table c name attrs site ws = (outcome failure, last) := by
  obtain ⟨started, between, failure, chain, upTo, ran⟩ :=
    perform_loop c .start site table.actions (withScope self table attrs site ws)
  have split : mount self table c name attrs site ws = _ :=
    Attempt.perform_bind (c.start table.actions site) _ (withScope self table attrs site ws)
  rw [show (c.start table.actions site).perform (withScope self table attrs site ws) = _ from ran]
    at split
  cases failure with
  | some e => exact ⟨started, between, some e, chain, upTo.longer _, split⟩
  | none =>
    obtain ⟨begun, last, failure, chained, further, rest⟩ :=
      perform_loop c (.begin name attrs) site (table.matching site.trail.path) between
    exact ⟨started ++ begun, last, failure, chain.append chained, upTo.append further,
      split.trans rest⟩

-- The scopes are those from before with others on top, none of which is this action's on the element.
def Topped (self : ActionId) (depth : Nat) (ws after : Workspace σ) : Prop :=
  ∃ added, after.scopes = added ++ ws.scopes ∧ ∀ s ∈ added, ownedHere (.nested self) depth s = false

theorem Topped.trans {self : ActionId} {depth : Nat} {ws between last : Workspace σ}
    (here : Topped self depth ws between) (there : Topped self depth between last) :
    Topped self depth ws last := by
  obtain ⟨lower, shape, clear⟩ := here
  obtain ⟨upper, further, clearToo⟩ := there
  refine ⟨upper ++ lower, by simp [shape, further], ?_⟩
  intro s member
  obtain high | low := List.mem_append.mp member
  · exact clearToo s high
  · exact clear s low

theorem topped_of_eq {self : ActionId} {depth : Nat} {ws after : Workspace σ}
    (same : after.scopes = ws.scopes) : Topped self depth ws after :=
  ⟨[], by simp [same], by simp⟩

theorem begin_topped {self id : ActionId} (other : id ≠ self) {n : NestedRules} {table : RuleTable}
    {attrs : Attributes} (found : n.table? attrs = some table) {name : QName} {site : Site}
    (each : ∀ call : Callback σ, call.duty ∈ mountDuties table name attrs site →
      Topped self site.trail.depth call.work (call.after c)) (ws : Workspace σ) :
    Topped self site.trail.depth ws (Step.perform (n.begin id c name attrs) site ws).2 := by
  obtain ⟨made, last, failure, chain, upTo, mounted⟩ := mount_calls id table c name attrs site ws
  obtain ⟨added, shape, clear⟩ := chain.carries (Topped self site.trail.depth)
    (fun _ => topped_of_eq rfl) Topped.trans fun call member => each call (upTo.mem member)
  let scope := (site.mount attrs).scope id table (topmost site.rules ws.scopes)
  have foreign : ∀ s ∈ added ++ [scope], ownedHere (.nested self) site.trail.depth s = false := by
    have outside : ownedHere (.nested self) site.trail.depth scope = false := by
      simp [scope, ownedHere, Mount.scope, other]
    simpa [or_imp, forall_and, outside] using clear
  have stack : last.scopes = added ++ [scope] ++ ws.scopes := by simpa [withScope, scope] using shape
  rw [perform_begin, perform_enter found, mounted]
  cases failure with
  | none => exact ⟨added ++ [scope], stack, foreign⟩
  | some e =>
    have mine : ownedHere (.nested id) site.trail.depth scope = true :=
      (site.mount attrs).ownedHere_scope id table _
    have member : scope ∈ added ++ [scope] := by simp
    have withdrawn := List.eraseP_append_left mine ws.scopes member
    refine ⟨(added ++ [scope]).eraseP (ownedHere (.nested id) site.trail.depth), ?_, ?_⟩
    · simpa [outcome, stack] using withdrawn
    · exact fun s member => foreign s (List.mem_of_mem_eraseP member)

-- A begin that fails. Where it finds no rules, it has done nothing. Else some of what is due was
-- called, up to the first that fails, and the innermost own scope is taken out of what that left: so
-- nothing is left over where the calls left the scopes alone, and only what they opened where they
-- opened scopes on top.
theorem begin_fails (n : NestedRules) (self : ActionId) (c : Catalogue σ) (name : QName)
    (attrs : Attributes) (site : Site) (ws : Workspace σ) {e : ActionError}
    (failed : (Step.perform (n.begin self c name attrs) site ws).1 = .error e) :
    let own := ownedHere (.nested self) site.trail.depth
    let after := (Step.perform (n.begin self c name attrs) site ws).2
    (n.table? attrs = none → ws.scopes.find? own = none → after = ws) ∧
    ∀ table, n.table? attrs = some table → ∃ made last,
      Chain c (withScope self table attrs site ws) made last ∧
      UpToFailure (mountDuties table name attrs site) made (some e) ∧
      after = { last with scopes := last.scopes.eraseP own } ∧
      ((∀ call ∈ made, (call.after c).scopes = call.work.scopes) → after.scopes = ws.scopes) ∧
      ((∀ call ∈ made, Topped self site.trail.depth call.work (call.after c)) →
        ∃ added, last.scopes = added ++ (withScope self table attrs site ws).scopes ∧
          after.scopes = added ++ ws.scopes ∧ ∀ s ∈ added, own s = false) := by
  intro own after
  have ran : Step.perform (n.begin self c name attrs) site ws = _ := n.perform_begin self c ws
  refine ⟨fun missing free => ?_, fun table found => ?_⟩
  · obtain ⟨cause, refused⟩ := perform_enter_none missing self
    rw [refused] at ran
    simp only [after, ran]
    rw [List.eraseP_of_forall_not (by simpa [own] using free)]
  · obtain ⟨made, last, failure, chain, upTo, mounted⟩ := mount_calls self table c name attrs site ws
    rw [perform_enter found, mounted] at ran
    cases failure with
    | none => simp [ran, outcome] at failed
    | some cause =>
      obtain rfl : cause = e := by simpa [ran, outcome] using failed
      have left : after = { last with scopes := last.scopes.eraseP own } := by simp [after, ran, outcome, own]
      have mine : own ((site.mount attrs).scope self table (topmost site.rules ws.scopes)) = true :=
        (site.mount attrs).ownedHere_scope self table _
      refine ⟨made, last, chain, upTo, left, fun still => ?_, fun topped => ?_⟩
      · rw [left, chain.scopes_kept still]
        exact List.eraseP_cons_of_pos mine
      · obtain ⟨added, shape, clear⟩ := chain.carries (Topped self site.trail.depth)
          (fun _ => topped_of_eq rfl) Topped.trans topped
        refine ⟨added, shape, ?_, clear⟩
        rw [left, shape, List.eraseP_append_right _ (by simpa using clear), withScope]
        exact congrArg _ (List.eraseP_cons_of_pos mine)

-- An action mounted before the one that fails has opened a scope, and the failing one has an older
-- scope on the element: both stay.
theorem begin_fails_behind_mount :
    let n : NestedRules := .single [.rule "b" ⟨1⟩, .rule "b" ⟨2⟩]
    let inner : NestedRules := .single []
    let actions : ActionId → StockAction := fun id => match id.index with
      | 0 => .nested n
      | 1 => .nested inner
      | _ => .create { type := "gone" }
    let c : Catalogue Unit := .tie (fun id => (actions id).definition id) 1
    let site : Site :=
      { trail := (({} : Trail).enter ⟨"", "a"⟩).enter ⟨"", "b"⟩, rules := .base {}, factory := {} }
    let older : Scope := ⟨.base {}, 2, [], some (.nested ⟨0⟩)⟩
    let ws : Workspace Unit := { journal := (), scopes := [older] }
    let begun := Step.perform (n.begin ⟨0⟩ c ⟨"", "b"⟩ {}) site ws
    begun.1 = .error (.unknownType "gone") ∧
      (∃ added, begun.2.scopes = added ++ [older] ∧
        ∀ s ∈ added, ownedHere (.nested ⟨0⟩) site.trail.depth s = false) ∧
      begun.2.scopes.map Scope.owner = [some (.nested ⟨1⟩), some (.nested ⟨0⟩)] := by
  intro n inner actions c site older ws begun
  have failed : begun.1 = .error (.unknownType "gone") := by decide +kernel
  have owners : begun.2.scopes.map Scope.owner = [some (.nested ⟨1⟩), some (.nested ⟨0⟩)] := by
    decide +kernel
  have rules : (n.table? {}).map (fun t => (t.actions, t.matching site.trail.path)) =
      some ([⟨1⟩, ⟨2⟩], [⟨1⟩, ⟨2⟩]) := by decide +kernel
  have within : (inner.table? {}).map (fun t => (t.actions, t.matching site.trail.path)) =
      some ([], []) := by decide +kernel
  obtain ⟨table, found, same⟩ := Option.map_eq_some_iff.mp rules
  obtain ⟨lower, foundToo, none⟩ := Option.map_eq_some_iff.mp within
  obtain ⟨actionsEq, matchingEq⟩ := Prod.mk.inj same
  obtain ⟨noActions, noMatches⟩ := Prod.mk.inj none
  obtain ⟨made, last, chain, upTo, -, -, topped⟩ :=
    (begin_fails n ⟨0⟩ c ⟨"", "b"⟩ {} site ws failed).2 table found
  have other : (⟨1⟩ : ActionId) ≠ ⟨0⟩ := by decide
  obtain ⟨added, -, stack, clear⟩ := topped fun call member => by
    have due := upTo.mem member
    simp only [mountDuties, actionsEq, matchingEq, List.map_cons, List.map_nil, List.cons_append,
      List.nil_append, List.mem_cons, List.not_mem_nil, or_false] at due
    obtain ⟨actor, occasion, place, work, result⟩ := call
    simp only [Callback.duty, Duty.mk.injEq] at due
    obtain ⟨rfl, rfl, rfl⟩ | ⟨rfl, rfl, rfl⟩ | ⟨rfl, rfl, rfl⟩ | ⟨rfl, rfl, rfl⟩ := due
    · exact topped_of_eq rfl
    · exact topped_of_eq rfl
    · refine begin_topped other foundToo (fun call due => ?_) work
      simp [mountDuties, noActions, noMatches] at due
    · exact topped_of_eq (Creation.still _ (.begin ⟨"", "b"⟩ {}) site work)
  rw [show Step.perform (n.begin ⟨0⟩ c ⟨"", "b"⟩ {}) site ws = begun from rfl] at stack
  exact ⟨failed, ⟨added, stack, clear⟩, owners⟩

theorem begin_leaves_mounted_scope :
    let actions : ActionId → StockAction := fun id => match id.index with
      | 0 => .nested (.single [.rule "b" ⟨1⟩, .rule "b" ⟨2⟩])
      | 1 => .nested (.single [])
      | _ => .create { type := "gone" }
    let c : Catalogue Unit := .tie (fun id => (actions id).definition id) 2
    let site : Site :=
      { trail := (({} : Trail).enter ⟨"", "a"⟩).enter ⟨"", "b"⟩, rules := .base {}, factory := {} }
    let ws : Workspace Unit := { journal := () }
    let begun := Step.perform ((c ⟨0⟩).onBegin ⟨"", "b"⟩ {}) site ws
    begun.1 = .error (.unknownType "gone") ∧
      begun.2.scopes.map Scope.owner = [some (.nested ⟨1⟩)] ∧ ws.scopes = [] := by
  decide +kernel

end NestedRules
end XmlRules
