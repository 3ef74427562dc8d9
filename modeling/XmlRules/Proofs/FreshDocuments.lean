import XmlRules.Proofs.Callbacks
namespace XmlRules

section Bare
variable {σ : Type}

def Workspace.bare (ws : Workspace σ) : Workspace Unit := ws.viewed fun _ => ()
def Dispatcher.bare (d : Dispatcher σ) : Dispatcher Unit := d.viewed fun _ => ()
def Callback.bare (call : Callback σ) : Callback Unit := call.viewed fun _ => ()

-- Actions that do the same whatever they have kept for themselves.
def Catalogue.Blind (c : Catalogue σ) : Prop :=
  ∀ id (occasion : Occasion) site (ws other : Workspace σ), ws.bare = other.bare →
    (Step.perform (occasion.answer (c id)) site ws).1 =
        (Step.perform (occasion.answer (c id)) site other).1 ∧
      (Step.perform (occasion.answer (c id)) site ws).2.bare =
        (Step.perform (occasion.answer (c id)) site other).2.bare

def Step.unseen (journal : σ) (step : Step σ Unit) : Step Unit Unit := fun site => do
  let ws ← get
  let (result, after) := Step.perform step site { ws with journal }
  set after.bare
  ofExcept result

def Behaviour.unseen (journal : σ) (b : Behaviour σ) : Behaviour Unit where
  name := b.name
  onStart := b.onStart.unseen journal
  onBegin name attrs := (b.onBegin name attrs).unseen journal
  onSegment name text := (b.onSegment name text).unseen journal
  onBody name text := (b.onBody name text).unseen journal
  onEnd name := (b.onEnd name).unseen journal
  onFinish := b.onFinish.unseen journal

theorem Behaviour.answer_unseen (journal : σ) (b : Behaviour σ) (occasion : Occasion) :
    occasion.answer (b.unseen journal) = (occasion.answer b).unseen journal := by
  cases occasion <;> rfl

theorem Step.perform_unseen (journal : σ) (step : Step σ Unit) (site : Site) (ws : Workspace Unit) :
    Step.perform (step.unseen journal) site ws =
      ((Step.perform step site { ws with journal }).1,
        (Step.perform step site { ws with journal }).2.bare) := by
  unfold Step.unseen Step.perform
  rw [Attempt.perform_bind, Attempt.perform_get]
  dsimp only
  rw [Attempt.perform_bind, Attempt.perform_set]
  dsimp only
  cases ((step site).perform { ws with journal }).1 <;> rfl

theorem Catalogue.Blind.shadows {c : Catalogue σ} (blind : c.Blind) (journal : σ) :
    Catalogue.Shadows (fun _ => ()) c fun id => (c id).unseen journal where
  name _ := rfl
  answer id occasion site ws := by
    have seen := Step.perform_unseen journal (occasion.answer (c id)) site ws.bare
    obtain ⟨result, work⟩ := blind id occasion site { ws.bare with journal } ws rfl
    rw [result, work] at seen
    rw [Behaviour.answer_unseen]
    exact seen

end Bare

namespace Event
variable {σ : Type} {c : Catalogue σ}

-- The object that waits for the next document: a start that is not refused takes it.
def offer (waiting : Option Object) : Event × Except DispatchError Unit → Option Object
  | (.setRoot object, _) => some object
  | (.startDocument, .error (.internal .alreadyStarted)) => waiting
  | (.startDocument, _) => none
  | _ => waiting

def offered (c : Catalogue σ) (es : List Event) (d : Dispatcher σ) : Option Object :=
  (es.zip (feed c es d).1).foldl offer d.initialRoot

structure Keeps (d next : Dispatcher σ) (waiting : Option Object) : Prop where
  rules : next.rules = d.rules
  factory : next.factory = d.factory
  trims : next.trims = d.trims
  initialRoot : next.initialRoot = waiting

theorem keeps_withContext (d : Dispatcher σ) (step : ContextM σ Unit) :
    Keeps d ((Dispatcher.withContext step).perform d).2 d.initialRoot := by
  by_cases started : d.state = .documentStarted
  · obtain ⟨ctx, live⟩ := Dispatcher.live_of_started started
    rw [Dispatcher.perform_withContext live]
    cases step.perform ctx with
    | mk result after => cases result <;> exact ⟨rfl, rfl, rfl, rfl⟩
  · obtain ⟨misuse, refused⟩ := Dispatcher.perform_withContext_idle started step
    rw [refused]
    exact ⟨rfl, rfl, rfl, rfl⟩

-- A start that fails in an action has taken the object all the same.
theorem keeps_startDocument (d : Dispatcher σ) :
    Keeps d ((Event.startDocument.run c).perform d).2
      (offer d.initialRoot (.startDocument, ((Event.startDocument.run c).perform d).1)) := by
  by_cases started : d.state = .documentStarted
  · rw [perform_startDocument_refused started]
    exact ⟨rfl, rfl, rfl, rfl⟩
  · rw [perform_startDocument d started, Dispatcher.perform_withContext (d := d.opened) rfl]
    unfold Context.perform
    rw [Attempt.perform_bind, Attempt.perform_get]
    dsimp only
    cases Step.perform (c.start d.rules.actions) d.fresh.site d.fresh.work with
    | mk result work => cases result <;> exact ⟨rfl, rfl, rfl, rfl⟩

theorem keeps_run (e : Event) (d : Dispatcher σ) :
    Keeps d ((e.run c).perform d).2 (offer d.initialRoot (e, ((e.run c).perform d).1)) := by
  cases e with
  | startDocument => exact keeps_startDocument d
  | declare label uri => exact ⟨rfl, rfl, rfl, rfl⟩
  | start name attrs =>
    rw [perform_start]
    have kept := keeps_withContext { d with pending := [] }
      (Context.openElement c name attrs d.pending)
    exact ⟨kept.rules, kept.factory, kept.trims, kept.initialRoot⟩
  | text content => exact keeps_withContext d _
  | finish name =>
    rw [perform_finish]
    exact keeps_withContext d _
  | endDocument =>
    have kept := keeps_withContext d (Dispatcher.finishRules c)
    change Keeps d ((Dispatcher.endDocument c).perform d).2 d.initialRoot
    unfold Dispatcher.endDocument
    rw [Attempt.perform_bind]
    cases ran : (Dispatcher.withContext (Dispatcher.finishRules c)).perform d with
    | mk result next =>
      rw [ran] at kept
      cases result with
      | error e => exact kept
      | ok value =>
        obtain ⟨rules, factory, trims, pending, initialRoot, progress⟩ := next
        cases progress <;> exact ⟨kept.rules, kept.factory, kept.trims, kept.initialRoot⟩
  | setRoot object => exact ⟨rfl, rfl, rfl, rfl⟩
  | takeRoot =>
    obtain ⟨rules, factory, trims, pending, initialRoot, progress⟩ := d
    cases progress <;> exact ⟨rfl, rfl, rfl, rfl⟩
  | abort =>
    obtain ⟨rules, factory, trims, pending, initialRoot, progress⟩ := d
    cases progress <;> exact ⟨rfl, rfl, rfl, rfl⟩

theorem keeps_feed (es : List Event) (d : Dispatcher σ) :
    Keeps d (feed c es d).2 (offered c es d) := by
  induction es generalizing d with
  | nil => exact ⟨rfl, rfl, rfl, rfl⟩
  | cons e es ih =>
    have first := keeps_run (c := c) e d
    have later := ih ((e.run c).perform d).2
    refine ⟨later.rules.trans first.rules, later.factory.trans first.factory,
      later.trims.trans first.trims, later.initialRoot.trans ?_⟩
    simp only [offered, feed, List.zip_cons_cons, List.foldl_cons, first.initialRoot]

end Event

namespace Dispatcher
variable {σ : Type}

def clean (rules : Registry) (factory : Factory) (trims : Bool) (waiting : Option Object)
    (journal : σ) : Dispatcher σ :=
  { new rules factory trims journal with initialRoot := waiting }

theorem opened_eq_clean (d : Dispatcher σ) :
    d.opened = (clean d.rules d.factory d.trims d.initialRoot d.progress.journal).opened := rfl

theorem feed_of_opened {c : Catalogue σ} {d other : Dispatcher σ}
    (idle : d.state ≠ .documentStarted) (ready : other.state ≠ .documentStarted)
    (same : d.opened = other.opened) (es : List Event) :
    Event.feed c (.startDocument :: es) d = Event.feed c (.startDocument :: es) other := by
  have rules : d.opened.rules = other.opened.rules := by rw [same]
  change d.rules = other.rules at rules
  simp only [Event.feed]
  rw [Event.perform_startDocument d idle, Event.perform_startDocument other ready, same, rules]

end Dispatcher

namespace Event
variable {σ : Type} {c : Catalogue σ}

theorem feed_clean (own : Catalogue Unit) {d : Dispatcher Unit} (idle : d.state ≠ .documentStarted)
    (es : List Event) :
    let clean := Dispatcher.clean d.rules d.factory d.trims d.initialRoot ()
    callbacks own (.startDocument :: es) d = callbacks own (.startDocument :: es) clean ∧
      feed own (.startDocument :: es) d = feed own (.startDocument :: es) clean := by
  intro clean
  have ready : clean.state ≠ .documentStarted := by simp [clean, Dispatcher.clean, Dispatcher.new,
    Dispatcher.state, Progress.state]
  refine ⟨?_, Dispatcher.feed_of_opened idle ready d.opened_eq_clean es⟩
  have opened : d.logging.opened = clean.logging.opened := by
    rw [d.logging.opened_eq_clean, clean.logging.opened_eq_clean, Dispatcher.journal_logging,
      Dispatcher.journal_logging]
    rfl
  unfold callbacks
  rw [Dispatcher.feed_of_opened _ _ opened es]
  · rwa [Dispatcher.state_logging]
  · rwa [Dispatcher.state_logging]

-- Whatever has been told to a dispatcher, the next document goes as it would on a new one with the
-- same object waiting for it: the same calls, the same answers, and the same in the end.
theorem feed_after_history (blind : c.Blind) (d : Dispatcher σ) (past es : List Event)
    (idle : (feed c past d).2.state ≠ .documentStarted) (journal : σ) :
    let used := (feed c past d).2
    let clean := Dispatcher.clean d.rules d.factory d.trims (offered c past d) journal
    let document := .startDocument :: es
    (callbacks c document used).map Callback.bare = (callbacks c document clean).map Callback.bare ∧
      (feed c document used).1 = (feed c document clean).1 ∧
      (feed c document used).2.state = (feed c document clean).2.state ∧
      (feed c document used).2.root? = (feed c document clean).2.root? ∧
      (feed c document used).2.rootObject? = (feed c document clean).2.rootObject? ∧
      (feed c document used).2.bare = (feed c document clean).2.bare := by
  intro used clean document
  have same := blind.shadows journal
  have kept : Keeps d used (offered c past d) := keeps_feed past d
  have waits : used.bare.state ≠ .documentStarted := by
    rwa [Dispatcher.bare, Dispatcher.state_viewed]
  have forgotten := feed_clean (fun id => (c id).unseen journal) waits es
  have newer : Dispatcher.clean used.bare.rules used.bare.factory used.bare.trims
      used.bare.initialRoot () = clean.bare := by
    change Dispatcher.clean used.rules used.factory used.trims used.initialRoot () = _
    rw [kept.rules, kept.factory, kept.trims, kept.initialRoot]
    rfl
  rw [newer] at forgotten
  obtain ⟨calls, fed⟩ := forgotten
  have before := feed_viewed same document used
  have behind := feed_viewed same document clean
  obtain ⟨answers, ending⟩ := Prod.ext_iff.mp (before.symm.trans (fed.trans behind))
  refine ⟨?_, answers, ?_, ?_, ?_, ending⟩
  · exact (callbacks_viewed same document used).symm.trans
      (calls.trans (callbacks_viewed same document clean))
  · exact (Dispatcher.state_viewed _).symm.trans
      ((congrArg Dispatcher.state ending).trans (Dispatcher.state_viewed _))
  · exact (Dispatcher.root?_viewed _).symm.trans
      ((congrArg Dispatcher.root? ending).trans (Dispatcher.root?_viewed _))
  · exact (Dispatcher.rootObject?_viewed _).symm.trans
      ((congrArg Dispatcher.rootObject? ending).trans (Dispatcher.rootObject?_viewed _))

-- The history leaves behind a document that has failed with two scopes open, a declared prefix and an
-- object for the next document, and the actions have written something down.
theorem feed_after_history_of_failure :
    let table := ((RuleTable.registerAll [.rule "r" ⟨0⟩, .rule "x" ⟨1⟩]).perform {}).2
    let c : Catalogue (List String) := fun id =>
      { name := "a"
        onBegin := fun name _ => do
          Step.note (name.text :: ·)
          Step.openScope (.base table) [] none
        onEnd := fun _ => if id = ⟨1⟩ then throw (.failed "late" none) else pure () }
    let d : Dispatcher (List String) := .new (.base table) {} true []
    let past : List Event := [.startDocument, .setRoot (.int 1), .start ⟨"", "r"⟩ {},
      .start ⟨"", "x"⟩ {}, .finish ⟨"", "x"⟩, .setRoot (.text "o"), .declare "p" "u"]
    let es : List Event := [.start ⟨"", "r"⟩ {}, .finish ⟨"", "r"⟩, .endDocument]
    let used := (feed c past d).2
    let clean := Dispatcher.clean (.base table) {} true (offered c past d) ["other"]
    used.state = .aborted ∧ used.progress.journal = ["x", "r"] ∧ c.Blind ∧
      (offered c past d).map Object.type = some .text ∧
      (callbacks c (.startDocument :: es) used).map Callback.bare =
        (callbacks c (.startDocument :: es) clean).map Callback.bare ∧
      (feed c (.startDocument :: es) used).2.state = .documentEnded ∧
      (feed c (.startDocument :: es) clean).2.rootObject?.map Object.type = some .text := by
  intro table c d past es used clean
  have blind : c.Blind := by
    intro id occasion site ws other same
    cases occasion with
    | start | segment | body | finish => exact ⟨rfl, same⟩
    | begin name attrs =>
      let scope : Scope := ⟨.base table, site.trail.depth, [], none⟩
      have opened : ∀ ws : Workspace (List String), Step.perform ((c id).onBegin name attrs) site ws =
          (.ok (), { ws with scopes := scope :: ws.scopes, journal := name.text :: ws.journal }) :=
        fun _ => rfl
      change (Step.perform ((c id).onBegin name attrs) site ws).1 = _ ∧ _
      rw [Occasion.answer, opened, opened]
      exact ⟨rfl, congrArg (fun ws : Workspace Unit => { ws with scopes := scope :: ws.scopes }) same⟩
    | ending name =>
      change (Step.perform (if id = ⟨1⟩ then throw _ else pure ()) site ws).1 = _ ∧ _
      dsimp only [c, Occasion.answer]
      split <;> exact ⟨rfl, same⟩
  have aborted : used.state = .aborted := by decide +kernel
  have idle : used.state ≠ .documentStarted := by rw [aborted]; decide
  have calls := (feed_after_history blind d past es idle ["other"]).1
  exact ⟨aborted, by decide +kernel, blind, by decide +kernel, calls, by decide +kernel,
    by decide +kernel⟩

end Event
end XmlRules
