import XmlRules.Proofs.FailedCalls
namespace XmlRules

def Event.advances : Event → Bool
  | .start _ _ | .text _ | .finish _ | .endDocument => true
  | _ => false

section Errors
variable {σ : Type} {c : Catalogue σ} {d : Dispatcher σ} {ctx : Context σ} {e : Event}
  {err : DispatchError}

-- A document that has been given up, of which nothing is left but the objects and the journal.
def Dispatcher.GivenUp (d : Dispatcher σ) : Prop := ∃ store journal, d.progress = .aborted store journal

theorem Dispatcher.GivenUp.nothing_left (up : d.GivenUp) :
    d.state = .aborted ∧ d.context? = none ∧ d.root? = none := by
  obtain ⟨store, journal, aborted⟩ := up
  simp [state, context?, root?, aborted, Progress.state, Progress.context?]

theorem Dispatcher.givenUp_withContext (live : d.progress = .live ctx) (step : ContextM σ Unit)
    (failed : ((withContext step).perform d).1 = .error err) :
    ((withContext step).perform d).2.GivenUp := by
  rw [perform_withContext live] at failed ⊢
  cases run : step.perform ctx with
  | mk result after =>
    rw [run] at failed
    cases result with
    | ok value => cases failed
    | error e => exact ⟨after.work.store, after.work.journal, rfl⟩

namespace Event

theorem givenUp_endDocument (live : d.progress = .live ctx)
    (failed : ((Event.endDocument.run c).perform d).1 = .error err) :
    ((Event.endDocument.run c).perform d).2.GivenUp := by
  rw [perform_endDocument live] at failed ⊢
  cases run : (Dispatcher.finishRules c).perform ctx with
  | mk result after =>
    rw [run] at failed
    cases result with
    | ok value => cases failed
    | error e => exact ⟨after.work.store, after.work.journal, rfl⟩

theorem givenUp_run (live : d.progress = .live ctx) (inner : e ≠ .startDocument)
    (failed : ((e.run c).perform d).1 = .error err) : ((e.run c).perform d).2.GivenUp := by
  cases e with
  | startDocument => exact absurd rfl inner
  | start name attrs =>
    rw [perform_start] at failed ⊢
    exact Dispatcher.givenUp_withContext (d := { d with pending := [] }) live _ failed
  | text content => exact Dispatcher.givenUp_withContext live _ failed
  | finish name =>
    rw [perform_finish] at failed ⊢
    exact Dispatcher.givenUp_withContext live _ failed
  | endDocument => exact givenUp_endDocument live failed
  | declare | setRoot | takeRoot | abort => cases failed

theorem givenUp_feed (up : d.GivenUp) {es : List Event} (inner : ∀ e ∈ es, e ≠ .startDocument) :
    (feed c es d).2.GivenUp ∧ callbacks c es d = [] := by
  obtain ⟨store, journal, aborted⟩ := up
  exact ⟨⟨store, journal, aborted_feed aborted inner⟩, callbacks_aborted aborted inner⟩

theorem refused_of_givenUp (up : d.GivenUp) (advances : e.advances) :
    ((e.run c).perform d).1 = .error (.internal .aborted) := by
  obtain ⟨store, journal, aborted⟩ := up
  cases e with
  | start name attrs =>
    rw [perform_start, Dispatcher.perform_withContext_refused (d := { d with pending := [] }) aborted]
  | text content => rw [run, Dispatcher.characters, Dispatcher.perform_withContext_refused aborted]
  | finish name => rw [perform_finish, Dispatcher.perform_withContext_refused aborted]
  | endDocument =>
    have refused := Dispatcher.perform_withContext_refused aborted (Dispatcher.finishRules c)
    exact congrArg Prod.fst (Attempt.perform_bind_error refused _)
  | startDocument | declare | setRoot | takeRoot | abort => cases advances

-- An event that a document in progress answers with an error ends that document, and until the next
-- one starts nothing is called, nothing is left and nothing goes further. The one exception is the
-- start of a document: that is refused, and the document in progress goes on as if it had not come.
theorem error_gives_up (c : Catalogue σ) (d : Dispatcher σ) (started : d.state = .documentStarted)
    (e : Event) (err : DispatchError) (failed : ((e.run c).perform d).1 = .error err) :
    let next := ((e.run c).perform d).2
    (e = .startDocument → err = .internal .alreadyStarted ∧ next = d ∧ callbacks c [e] d = []) ∧
    (e ≠ .startDocument → ∀ more : List Event, (∀ f ∈ more, f ≠ .startDocument) →
      let after := (feed c more next).2
      after.state = .aborted ∧ after.context? = none ∧ after.root? = none ∧
        callbacks c more next = [] ∧
        ∀ f : Event, f.advances → ((f.run c).perform after).1 = .error (.internal .aborted)) := by
  intro next
  obtain ⟨ctx, live⟩ := Dispatcher.live_of_started started
  refine ⟨?_, ?_⟩
  · rintro rfl
    have refused := perform_startDocument_refused (c := c) started
    rw [refused] at failed
    refine ⟨(Except.error.inj failed).symm, congrArg Prod.snd refused, ?_⟩
    cases outcome c .startDocument d with
    | silent none same => exact none
    | asked asks =>
      cases asks with
      | startDocument idle => exact absurd started idle
  · intro inner more others after
    obtain ⟨up, none⟩ := givenUp_feed (c := c) (givenUp_run live inner failed) others
    obtain ⟨state, context, root⟩ := up.nothing_left
    exact ⟨state, context, root, none, fun f advances => refused_of_givenUp up advances⟩

theorem error_gives_up_of_stray_end :
    let c : Catalogue Unit := fun _ => { name := "nobody" }
    let d : Dispatcher Unit := (feed c [.startDocument] (.new (.base {}) {} false ())).2
    let stray : Event := .finish ⟨"", "a"⟩
    d.state = .documentStarted ∧
      ((stray.run c).perform d).1 = .error (.internal (.strayEnd ⟨"", "a"⟩)) ∧
      ((stray.run c).perform d).2.state = .aborted ∧ ((stray.run c).perform d).2.context? = none ∧
      ((Event.endDocument.run c).perform ((stray.run c).perform d).2).1 =
        .error (.internal .aborted) := by
  intro c d stray
  have started : d.state = .documentStarted := by decide +kernel
  have failed : ((stray.run c).perform d).1 = .error (.internal (.strayEnd ⟨"", "a"⟩)) := by
    decide +kernel
  obtain ⟨_, ended⟩ := error_gives_up c d started stray _ failed
  obtain ⟨state, context, _, _, refused⟩ := ended (by simp [stray]) [] (by simp)
  exact ⟨started, failed, state, context, refused .endDocument rfl⟩

-- A second start is answered with an error, and yet the next element of the first document is matched
-- and its action called.
theorem document_goes_on_after_second_start :
    let table := ((RuleTable.registerAll [.rule "a" ⟨0⟩]).perform {}).2
    let c : Catalogue Unit := fun _ => { name := "reader" }
    let d : Dispatcher Unit := (feed c [.startDocument] (.new (.base table) {} false ())).2
    let again := (Event.startDocument.run c).perform d
    let element : Event := .start ⟨"", "a"⟩ {}
    d.state = .documentStarted ∧ again.1 = .error (.internal .alreadyStarted) ∧
      again.2.state = .documentStarted ∧ again.2.context?.isSome ∧
      ((element.run c).perform again.2).1 = .ok () ∧
      (callbacks c [element] again.2).map (fun call => (call.actor.index, call.occasion.phase)) =
        [(0, .begin)] := by
  decide +kernel

end Event
end Errors
end XmlRules
