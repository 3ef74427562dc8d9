import XmlRules.Proofs.PrefixBindings
import XmlRules.Proofs.ScopeDepths
namespace XmlRules
open Markup

def Event.move (placed : Site × List (String × String)) : Event → Site × List (String × String)
  | .declare label uri => (placed.1, placed.2 ++ [(label, uri)])
  | .start name _ => (placed.1.enter name placed.2, [])
  | .finish _ =>
    ({ placed.1 with
      bindings := placed.1.bindings.leave, trail := placed.1.trail.leave?.getD placed.1.trail },
      placed.2)
  | _ => placed

namespace Event
variable {σ : Type} {c : Catalogue σ} {d : Dispatcher σ} {ctx after : Context σ}

theorem pending_start (live : d.progress = .live ctx) (name : QName) (attrs : Attributes) :
    (((Event.start name attrs).run c).perform d).2.pending = [] := by
  rw [perform_start, Dispatcher.perform_withContext (d := { d with pending := [] }) live]
  cases (Context.openElement c name attrs d.pending).perform ctx with
  | mk result last => cases result <;> rfl

theorem pending_withContext (step : ContextM σ Unit) (live : d.progress = .live ctx) :
    ((Dispatcher.withContext step).perform d).2.pending = d.pending := by
  rw [Dispatcher.perform_withContext live]
  cases step.perform ctx with
  | mk result last => cases result <;> rfl

theorem moved_run {e : Event} (inner : e ≠ .startDocument) (live : d.progress = .live ctx)
    (lives : ((e.run c).perform d).2.progress = .live after) :
    (after.site, ((e.run c).perform d).2.pending) = move (ctx.site, d.pending) e := by
  cases outcome c e d with
  | silent none same =>
    obtain ⟨going, aside⟩ := same after lives
    cases live.symm.trans going
    cases e with
    | startDocument => exact absurd rfl inner
    | declare label uri => rfl
    | setRoot object => rfl
    | takeRoot =>
      have kept : d.takeRoot = d := by rw [Dispatcher.takeRoot, live]
      exact congrArg (fun d : Dispatcher σ => (ctx.site, d.pending)) kept
    | start | text | finish | endDocument | abort => cases aside
  | asked asks chain verdict part well badly =>
    by_cases ok : ((e.run c).perform d).1 = .ok ()
    · have ends := (well ok).2
      cases asks with
      | startDocument idle => exact absurd rfl inner
      | start going name attrs =>
        cases live.symm.trans going
        cases ends.symm.trans lives
        rw [pending_start live]
        rfl
      | text going content =>
        cases live.symm.trans going
        cases ends.symm.trans lives
        have pending : (((Event.text content).run c).perform d).2.pending = d.pending :=
          pending_withContext _ live
        have site : (ctx.addText content).site = ctx.site := by
          cases ctx with
          | mk site frames work => cases frames <;> rfl
        rw [pending]
        exact congrArg (·, d.pending) site
      | @finish _ going frame frames innermost =>
        cases live.symm.trans going
        cases ends.symm.trans lives
        rw [perform_finish, pending_withContext _ live]
        rfl
      | endDocument going closed => cases ends.symm.trans lives
    · cases (badly ok).symm.trans lives

theorem within_of_inner {es : List Event} (inner : ∀ e ∈ es, e ≠ .startDocument) : Within c es d := by
  induction es generalizing d with
  | nil => trivial
  | cons e es ih =>
    rw [List.forall_mem_cons] at inner
    exact ⟨fun same => absurd same inner.1, ih inner.2⟩

theorem moved_feed {es : List Event} (inner : ∀ e ∈ es, e ≠ .startDocument)
    (live : d.progress = .live ctx) (lives : (feed c es d).2.progress = .live after) :
    (after.site, (feed c es d).2.pending) = es.foldl move (ctx.site, d.pending) := by
  induction es generalizing d ctx with
  | nil =>
    cases live.symm.trans lives
    rfl
  | cons e es ih =>
    rw [List.forall_mem_cons] at inner
    obtain ⟨middle, going⟩ : ∃ middle, ((e.run c).perform d).2.progress = .live middle :=
      live_before (within_of_inner inner.2) lives
    have rest := ih inner.2 going lives
    rw [moved_run inner.1 live going] at rest
    exact rest

theorem start_of_begin {e : Event} {call : Callback σ} {name : QName} {attrs : Attributes}
    (made : call ∈ callbacks c [e] d) (begins : call.occasion = .begin name attrs) :
    e = .start name attrs ∧ ∃ ctx, d.progress = .live ctx ∧
      call.site = ctx.site.enter name d.pending := by
  cases outcome c e d with
  | silent none same =>
    rw [none] at made
    cases made
  | asked asks chain verdict part well badly =>
    have due := part.subset (List.mem_map_of_mem made)
    have heard : call.duty.occasion = .begin name attrs := begins
    have early {site : Site} {frames : List Frame} :
        call.duty ∉ Context.waiting site frames := by
      intro member
      have none := (Context.mem_waiting member).2
      rw [heard] at none
      cases none
    cases asks with
    | startDocument idle | endDocument live closed =>
      obtain ⟨id, _, same⟩ := List.mem_map.mp due
      rw [← same] at heard
      cases heard
    | text live content => cases due
    | start live own given =>
      obtain ⟨id, _, same⟩ := List.mem_map.mp ((List.mem_append.mp due).resolve_left early)
      have site := congrArg Duty.site same
      rw [← same] at heard
      cases heard
      exact ⟨rfl, _, live, site.symm⟩
    | finish live innermost =>
      rcases List.mem_append.mp ((List.mem_append.mp due).resolve_left early) with told | ended
      · obtain ⟨id, _, same⟩ := List.mem_map.mp told
        rw [← same] at heard
        cases heard
      · obtain ⟨id, _, same⟩ := List.mem_map.mp ended
        rw [← same] at heard
        cases heard

theorem Nests.inner {opened after : List QName} {es : List Event} (nests : Nests opened es after) :
    ∀ e ∈ es, e ≠ .startDocument := by
  induction nests with
  | nil opened => simp
  | declare _ _ _ ih | start _ _ ih | text _ _ ih | finish _ ih =>
    rw [List.forall_mem_cons]
    exact ⟨nofun, ih⟩

end Event

theorem eq_of_sole {α : Type} {p : α → Prop} {front back past rest : List α} {a b : α}
    (shape : front ++ a :: back = past ++ b :: rest) (holds : p b) (before : ∀ x ∈ front, ¬ p x)
    (behind : ∀ x ∈ back, ¬ p x) : front = past ∧ a = b := by
  rcases List.append_eq_append_iff.mp shape with ⟨m, left, right⟩ | ⟨m, left, right⟩
  · cases m with
    | nil => exact ⟨by simpa using left.symm, (List.cons.inj right).1⟩
    | cons x m =>
      obtain ⟨rfl, rfl⟩ := List.cons.inj right
      exact absurd holds (behind b (by simp))
  · cases m with
    | nil => exact ⟨by simpa using left, (List.cons.inj right).1.symm⟩
    | cons x m =>
      obtain ⟨rfl, _⟩ := List.cons.inj right
      exact absurd holds (before b (by simp [left]))

namespace Place

structure Mirrors (place : Place) (site : Site) : Prop where
  agree : Agree place.scopes site.bindings
  trail : site.trail = .along place.opened.reverse

theorem mirrors_fresh {σ : Type} (d : Dispatcher σ) : Mirrors {} d.fresh.site :=
  ⟨List.Forall₂.nil, rfl⟩

variable {place next : Place} {site : Site}

theorem Mirrors.enter (mirrors : place.Mirrors site) {bytes : Bytes} {inner : Scopes} {tag : Tag}
    (opened : Tag.opening place.scopes true bytes = .ok (inner, tag)) :
    Mirrors ⟨inner, tag.name :: place.opened⟩ (site.enter tag.name tag.declared) where
  agree := mirrors.agree.enter opened
  trail := by
    rw [List.reverse_cons, Trail.along_append, ← mirrors.trail]
    rfl

theorem moved_declared (declared pending : List (String × String)) :
    (declared.map fun binding => Event.declare binding.1 binding.2).foldl Event.move (site, pending) =
      (site, pending ++ declared) := by
  induction declared generalizing pending with
  | nil => simp
  | cons binding declared ih =>
    rw [List.map_cons, List.foldl_cons]
    exact (ih _).trans (by simp)

theorem moved_tag (tag : Tag) :
    tag.events.foldl Event.move (site, []) = (site.enter tag.name tag.declared, []) := by
  rw [Tag.events, List.foldl_append, moved_declared]
  rfl

theorem moved_finish (name : QName) (declared : List (String × String)) :
    Event.move (site.enter name declared, []) (.finish name) = (site, []) := by
  change (({ site with
    bindings := site.bindings, trail := (site.trail.enter name).leave?.getD _ } : Site), _) = _
  rw [Trail.leave?_enter]
  rfl

theorem Mirrors.said (mirrors : place.Mirrors site) {token : Token} {es : List Event}
    (told : place.said true token = .ok (es, next)) :
    ∃ after, es.foldl Event.move (site, []) = (after, []) ∧ next.Mirrors after := by
  cases token with
  | start bytes =>
    obtain ⟨⟨inner, tag⟩, opened, told⟩ := Reading.ok_of_bind told
    cases told
    exact ⟨_, moved_tag tag, mirrors.enter opened⟩
  | empty bytes =>
    obtain ⟨⟨inner, tag⟩, opened, told⟩ := Reading.ok_of_bind told
    cases told
    refine ⟨site, ?_, mirrors⟩
    rw [List.foldl_append, moved_tag]
    exact moved_finish tag.name tag.declared
  | close name =>
    obtain ⟨scopes, opened⟩ := place
    cases opened with
    | nil => cases told
    | cons name opened =>
      cases told
      refine ⟨_, rfl, mirrors.agree.leave, ?_⟩
      have trail : site.trail = (Trail.along opened.reverse).enter name := by
        rw [mirrors.trail, List.reverse_cons, Trail.along_append]
      change site.trail.leave?.getD site.trail = _
      rw [trail, Trail.leave?_enter]
      rfl
  | text bytes | cdata bytes =>
    obtain ⟨content, read, told⟩ := Reading.ok_of_bind told
    cases told
    exact ⟨site, rfl, mirrors⟩
  | reference bytes =>
    obtain ⟨name, read, told⟩ := Reading.ok_of_bind told
    split at told
    · cases told
      exact ⟨site, rfl, mirrors⟩
    · cases told
  | other =>
    cases told
    exact ⟨site, rfl, mirrors⟩

def after (aware : Bool) (place : Place) (tokens : List Token) : Except ReadError Place :=
  tokens.foldlM (fun place token => return (← place.said aware token).2) place

def Opens (place : Place) (tokens : List Token) (bytes : Bytes) (above : Place) (tag : Tag) : Prop :=
  ∃ done token rest inner, tokens = done ++ token :: rest ∧
    (token = .start bytes ∨ token = .empty bytes) ∧ place.after true done = .ok above ∧
    Tag.opening above.scopes true bytes = .ok (inner, tag)

theorem start_of_tag {tag : Tag} {back past rest : List Event} {name : QName} {attrs : Attributes}
    (shape : tag.events ++ back = past ++ .start name attrs :: rest)
    (behind : ∀ e ∈ back, ¬ ∃ name attrs, e = .start name attrs) : tag.name = name ∧
      past = tag.declared.map fun binding => .declare binding.1 binding.2 := by
  rw [Tag.events, List.append_assoc, List.singleton_append] at shape
  obtain ⟨front, same⟩ := eq_of_sole (p := fun e => ∃ name attrs, e = .start name attrs) shape
    ⟨name, attrs, rfl⟩ (by rintro e member ⟨own, given, rfl⟩; simp at member) behind
  exact ⟨(Event.start.inj same).1, front.symm⟩

theorem start_of_said {token : Token} {es past rest : List Event} {name : QName} {attrs : Attributes}
    (told : place.said true token = .ok (es, next)) (split : es = past ++ .start name attrs :: rest) :
    ∃ bytes inner tag, (token = .start bytes ∨ token = .empty bytes) ∧
      Tag.opening place.scopes true bytes = .ok (inner, tag) ∧ tag.name = name ∧
      past = tag.declared.map fun binding => .declare binding.1 binding.2 := by
  have member : Event.start name attrs ∈ es := by simp [split]
  cases token with
  | start bytes =>
    obtain ⟨⟨inner, tag⟩, opened, told⟩ := Reading.ok_of_bind told
    cases told
    obtain ⟨same, front⟩ := start_of_tag ((List.append_nil tag.events).trans split) (by simp)
    exact ⟨bytes, inner, tag, .inl rfl, opened, same, front⟩
  | empty bytes =>
    obtain ⟨⟨inner, tag⟩, opened, told⟩ := Reading.ok_of_bind told
    cases told
    obtain ⟨same, front⟩ := start_of_tag split (by simp)
    exact ⟨bytes, inner, tag, .inr rfl, opened, same, front⟩
  | close name =>
    rw [Place.said] at told
    split at told
    · cases told
    · cases told
      exact absurd member (by simp)
  | text bytes | cdata bytes =>
    obtain ⟨content, read, told⟩ := Reading.ok_of_bind told
    cases told
    exact absurd member (by simp)
  | reference bytes =>
    obtain ⟨content, read, told⟩ := Reading.ok_of_bind told
    split at told
    · cases told
      exact absurd member (by simp)
    · cases told
  | other =>
    cases told
    exact absurd member (by simp)

theorem start_of_script {ending : Ending} {tokens : List Token} {past rest : List Event}
    {name : QName} {attrs : Attributes} (mirrors : place.Mirrors site)
    (split : (place.script true ending tokens).1 = past ++ .start name attrs :: rest) :
    ∃ bytes above tag here, place.Opens tokens bytes above tag ∧ tag.name = name ∧
      above.Mirrors here ∧ past.foldl Event.move (site, []) = (here, tag.declared) := by
  induction tokens generalizing place site past with
  | nil =>
    have member : Event.start name attrs ∈ (place.script true ending []).1 := by simp [split]
    cases ending <;> simp [script] at member
  | cons token tokens ih =>
    rw [script] at split
    cases said : place.said true token with
    | error e =>
      rw [said] at split
      simp at split
    | ok told =>
      obtain ⟨es, next⟩ := told
      rw [said] at split
      obtain ⟨after, moved, stands⟩ := mirrors.said said
      -- The element is told of with this token or later.
      have told : (∃ m, past = es ++ m ∧
          (next.script true ending tokens).1 = m ++ .start name attrs :: rest) ∨
          ∃ m, es = past ++ .start name attrs :: m := by
        rcases List.append_eq_append_iff.mp split with ⟨m, left, right⟩ | ⟨m, left, right⟩
        · exact .inl ⟨m, left, right⟩
        · cases m with
          | nil => exact .inl ⟨[], by simpa using left.symm, right.symm⟩
          | cons e m =>
            obtain ⟨rfl, _⟩ := List.cons.inj right
            exact .inr ⟨m, left⟩
      rcases told with ⟨m, rfl, later⟩ | ⟨m, here⟩
      · obtain ⟨bytes, above, tag, here, ⟨done, opening, rest, inner, shape, kind, reached, read⟩,
          same, stands, moves⟩ := ih stands later
        refine ⟨bytes, above, tag, here, ⟨token :: done, opening, rest, inner, ?_, kind, ?_, read⟩,
          same, stands, ?_⟩
        · rw [shape, List.cons_append]
        · rw [Place.after, List.foldlM_cons, said]
          exact reached
        · rw [List.foldl_append, moved, moves]
      · obtain ⟨bytes, inner, tag, kind, read, same, rfl⟩ := start_of_said said here
        exact ⟨bytes, place, tag, site, ⟨[], token, tokens, inner, rfl, kind, rfl, read⟩, same, mirrors,
          moved_declared _ _⟩

theorem inner_script (aware : Bool) (ending : Ending) (place : Place) (tokens : List Token) :
    ∀ e ∈ (place.script aware ending tokens).1, e ≠ .startDocument := by
  obtain ⟨es, last, after, split, nests, ends⟩ := nests_script aware ending place tokens
  rw [split, List.forall_mem_append]
  refine ⟨nests.inner, ?_⟩
  rcases ends with ⟨rfl, _⟩ | ⟨rfl, _⟩ <;> simp

end Place

namespace Dispatcher
variable {σ : Type} {c : Catalogue σ} {d : Dispatcher σ}

def calls (c : Catalogue σ) (aware : Bool) (tokens : List Token) (ending : Ending)
    (d : Dispatcher σ) : List (Callback σ) :=
  ((drive c.recorded aware tokens ending).perform d.logging).2.progress.journal.calls

theorem journal_abort (d : Dispatcher σ) : d.abort.progress.journal = d.progress.journal := by
  obtain ⟨rules, factory, trims, pending, initialRoot, progress⟩ := d
  cases progress <;> rfl

theorem tell_feed (es : List Event) (d : Dispatcher σ) :
    ∃ front, front <+: es ∧ ((tell c es).perform d).2 = (Event.feed c front d).2 := by
  induction es generalizing d with
  | nil => exact ⟨[], List.prefix_refl _, rfl⟩
  | cons e es ih =>
    rw [tell_cons, Attempt.perform_bind, perform_event]
    cases ran : (e.run c).perform d with
    | mk result next =>
      cases result with
      | error failure =>
        refine ⟨[e], ⟨es, rfl⟩, ?_⟩
        simp only [Event.feed, ran]
        rfl
      | ok value =>
        obtain ⟨front, ⟨rest, shape⟩, same⟩ := ih next
        refine ⟨e :: front, ⟨rest, congrArg (e :: ·) shape⟩, ?_⟩
        simp only [Event.feed, ran]
        exact same

theorem calls_eq (c : Catalogue σ) (aware : Bool) (tokens : List Token) (ending : Ending)
    (d : Dispatcher σ) : ∃ front, front <+: .startDocument :: (Place.script aware ending {} tokens).1 ∧
      calls c aware tokens ending d = Event.callbacks c front d := by
  obtain ⟨front, told, same⟩ := tell_feed (c := c.recorded)
    (.startDocument :: (Place.script aware ending {} tokens).1) d.logging
  refine ⟨front, told, ?_⟩
  have played : ((play c.recorded aware tokens ending).perform d.logging).2 =
      (Event.feed c.recorded front d.logging).2 := by
    rw [play_eq, ← same, Attempt.perform_bind]
    cases (tell c.recorded (.startDocument :: (Place.script aware ending {} tokens).1)).perform
      d.logging with
    | mk result next =>
      cases result with
      | error e => rfl
      | ok value => cases (Place.script aware ending {} tokens).2 <;> rfl
  unfold calls Event.callbacks
  rw [perform_drive, ← played]
  cases (play c.recorded aware tokens ending).perform d.logging with
  | mk result next =>
    cases result with
    | ok value => rfl
    | error e => exact congrArg Logged.calls (journal_abort next)

theorem calls_of_started (started : d.state = .documentStarted) (aware : Bool) (tokens : List Token)
    (ending : Ending) : calls c aware tokens ending d = [] := by
  have refused : (play c.recorded aware tokens ending).perform d.logging =
      (.error (.dispatch (.internal .alreadyStarted)), d.logging) := by
    have told : (startDocument c.recorded).perform d.logging = _ :=
      Event.perform_startDocument_refused (by rwa [state_logging])
    have first : (event (startDocument c.recorded)).perform d.logging =
        (.error (.dispatch (.internal .alreadyStarted)), d.logging) := by
      rw [perform_event, told]
      rfl
    exact Attempt.perform_bind_error first _
  unfold calls
  rw [perform_drive, refused]
  change d.logging.abort.progress.journal.calls = []
  rw [journal_abort, calls_logging]

theorem fresh_of_started (idle : d.state ≠ .documentStarted) {ctx : Context σ}
    (live : (Event.feed c [.startDocument] d).2.progress = .live ctx) :
    (ctx.site, (Event.feed c [.startDocument] d).2.pending) = (d.fresh.site, []) := by
  have pending : ((Event.startDocument.run c).perform d).2.pending = [] := by
    rw [Event.perform_startDocument d idle]
    exact Event.pending_withContext (d := d.opened) _ rfl
  have site : ctx.site = d.fresh.site := by
    cases Event.outcome c .startDocument d with
    | silent none same => exact absurd (state_of_live (same ctx live).1) idle
    | asked asks chain verdict part well badly =>
      by_cases ok : ((Event.startDocument.run c).perform d).1 = .ok ()
      · have ends := (well ok).2
        cases asks with
        | startDocument =>
          cases ends.symm.trans live
          rfl
      · cases (badly ok).symm.trans live
  exact Prod.ext site pending

theorem opens_of_begin {tokens : List Token} {ending : Ending} {call : Callback σ} {name : QName}
    {attrs : Attributes} (made : call ∈ calls c true tokens ending d)
    (begins : call.occasion = .begin name attrs) : ∃ bytes above tag here,
      Place.Opens {} tokens bytes above tag ∧ tag.name = name ∧ above.Mirrors here ∧
        call.site = here.enter name tag.declared := by
  by_cases idle : d.state = .documentStarted
  · rw [calls_of_started idle] at made
    cases made
  · obtain ⟨front, told, same⟩ := calls_eq c true tokens ending d
    rw [same] at made
    obtain ⟨done, later, split⟩ := List.append_of_mem made
    obtain ⟨past, e, rest, before, left, shape, -, here, -⟩ := Event.exists_event_of_callbacks split
    obtain ⟨rfl, ctx, live, site⟩ := Event.start_of_begin (c := c) (d := (Event.feed c past d).2)
      (by rw [here]; simp) begins
    cases past with
    | nil =>
      obtain ⟨behind, whole⟩ := told
      rw [shape] at whole
      cases (List.cons.inj whole).1
    | cons first past =>
      obtain ⟨behind, whole⟩ := told
      rw [shape] at whole
      obtain ⟨rfl, script⟩ := List.cons.inj whole
      rw [List.append_eq, List.append_eq, List.append_assoc, List.cons_append] at script
      obtain ⟨bytes, above, tag, here, opening, same, stands, moves⟩ :=
        Place.start_of_script (Place.mirrors_fresh d) script.symm
      refine ⟨bytes, above, tag, here, opening, same, stands, ?_⟩
      have inner : ∀ e ∈ past, e ≠ .startDocument := fun e member =>
        Place.inner_script true ending {} tokens e (by rw [← script]; simp [member])
      obtain ⟨root, started⟩ : ∃ root, (Event.feed c [.startDocument] d).2.progress = .live root :=
        Event.live_before (Event.within_of_inner inner) live
      have moved := Event.moved_feed inner started live
      rw [fresh_of_started idle started, moves] at moved
      obtain ⟨placed, pending⟩ := Prod.mk.inj moved
      rw [site, placed]
      exact congrArg _ pending

end Dispatcher

theorem QName.text_inj {u v name : String} :
    QName.text ⟨u, name⟩ = QName.text ⟨v, name⟩ ↔ u = v := by
  constructor
  · intro same
    have letters : QName.letters ⟨u, name⟩ = QName.letters ⟨v, name⟩ := congrArg String.toList same
    have lengths := congrArg List.length letters
    by_cases left : u = ""
    · by_cases right : v = ""
      · exact left.trans right.symm
      · rw [letters_of_empty left, letters_of_space right] at lengths
        simp only [List.length_append, List.length_cons] at lengths
        omega
    · by_cases right : v = ""
      · rw [letters_of_space left, letters_of_empty right] at lengths
        simp only [List.length_append, List.length_cons] at lengths
        omega
      · rw [letters_of_space left, letters_of_space right] at letters
        exact String.toList_inj.mp (by simpa using letters)
  · rintro rfl
    rfl

theorem QName.Clean.eq_of_suffix {q : QName} (clean : q.Clean) {meant : String} (some : meant ≠ "")
    (bound : q.space ≠ "") (ends : QName.letters ⟨meant, q.name⟩ <:+ q.letters) :
    meant = q.space := by
  obtain ⟨m, split⟩ := ends
  rw [letters_of_space (q := ⟨meant, q.name⟩) some, letters_of_space bound] at split
  cases m with
  | nil => exact String.toList_inj.mp (by simpa using split)
  | cons c m =>
    simp only [List.cons_append, List.cons.injEq] at split
    have brace : '\x7b' ∈ q.space.toList ++ '\x7d' :: q.name.toList := by
      rw [← split.2]
      simp
    rcases List.mem_append.mp brace with uri | rest
    · exact absurd uri clean.1.1
    · exact absurd (List.mem_of_ne_of_mem (by decide) rest) clean.2.2.1

-- Of the names that could stand for an element, a pattern with its name in full matches only one that
-- has its own URI.
theorem Pattern.isMatch_enter_iff {p : Pattern} (form : p.form = .exact) (anchor : p.anchor = .relative)
    (some : p.fixed ≠ "") (t : Trail) {q : QName} (clean : q.Clean) {meant : String}
    (fixed : p.fixed = QName.text ⟨meant, q.name⟩) (empty : meant = "" ↔ q.space = "")
    (shorter : meant.toList.length ≤ q.space.toList.length) :
    p.isMatch (t.enter q).path = true ↔ meant = q.space := by
  have path : (t.enter q).path.toList = t.path.toList ++ '/' :: q.letters := by
    simp [Trail.enter, QName.letters]
  have written : p.fixed.toList = QName.letters ⟨meant, q.name⟩ := congrArg String.toList fixed
  have filled : (t.enter q).path ≠ "" := by
    intro none
    rw [none] at path
    simp at path
  have segment : p.isMatch (t.enter q).path = Path.endsOnBoundary (t.enter q).path p.fixed := by
    simp [isMatch, form, fixedMatches, anchor, filled]
  rw [segment, Path.endsOnBoundary_iff, path, written]
  constructor
  · rintro ⟨-, before, shape, -⟩
    by_cases none : q.space = ""
    · rw [none, empty.mpr none]
    · refine clean.eq_of_suffix (mt empty.mp none) none ?_
      -- The pattern is no longer than the last segment, so that it ends within that.
      refine List.suffix_of_suffix_length_le ⟨before, shape.symm⟩ ⟨t.path.toList ++ ['/'], by simp⟩ ?_
      rw [QName.letters_of_space (q := ⟨meant, q.name⟩) (mt empty.mp none), QName.letters_of_space none]
      simp only [List.length_append, List.length_cons]
      omega
  · rintro rfl
    exact ⟨some, t.path.toList ++ ['/'], by simp, .inr ⟨_, rfl⟩⟩

namespace Dispatcher
variable {σ : Type} {d : Dispatcher σ}

-- At the beginning of an element the context takes the name as it is written for the one the element
-- has, except that it reads the references in the URI. So the two differ just when there are some, and
-- then a pattern with the URI that the context knows does not match the element. What the actions
-- call in their turn runs on the same site.
theorem expansion_at_begin (c : Catalogue σ) (tokens : List Token) (ending : Ending) (d : Dispatcher σ)
    {call : Callback σ} (made : call ∈ calls c true tokens ending d) {name : QName}
    {attrs : Attributes} (begins : call.occasion = .begin name attrs) :
    ∃ bytes above tag written, Place.Opens {} tokens bytes above tag ∧ tag.name = name ∧
      decode? (tagName bytes) = some written ∧
      call.site.trail = .along (name :: above.opened).reverse ∧
      ((∀ rest, written ≠ "xmlns:" ++ rest) →
        (∃ meant, unescape name.space.toList = .ok meant ∧ call.site.bindings.expand? written =
          some (QName.text ⟨String.ofList meant, name.name⟩)) ∧
        (call.site.bindings.expand? written = some name.text ↔ '&' ∉ name.space.toList) ∧
        ((∀ q ∈ name :: above.opened, q.Clean) →
          (call.site.bindings.expand? written = some (Path.lastSegment call.site.trail.path) ↔
            '&' ∉ name.space.toList)) ∧
        (name.Clean → ∀ p : Pattern, p.form = .exact → p.anchor = .relative → p.fixed ≠ "" →
          call.site.bindings.expand? written = some p.fixed →
          (p.isMatch call.site.trail.path = true ↔ '&' ∉ name.space.toList))) := by
  obtain ⟨bytes, above, tag, here, opens, rfl, stands, site⟩ := opens_of_begin made begins
  obtain ⟨_, _, _, inner, _, _, _, opened⟩ := id opens
  obtain ⟨given, declared, kept, shown, bound, whole, taken, same, read, resolved⟩ :=
    Tag.opening_parts opened
  have trail : call.site.trail = .along (tag.name :: above.opened).reverse := by
    rw [site]
    exact (stands.enter opened).trail
  refine ⟨bytes, above, tag, shown, opens, rfl, decode?_of_text read, trail, fun ordinary => ?_⟩
  obtain ⟨meant, unescaped, expanded⟩ :=
    (stands.enter opened).agree.expand? (decode?_of_text read) ordinary resolved
  have known : call.site.bindings.expand? shown = some (QName.text ⟨String.ofList meant, tag.name.name⟩) := by
    rw [site]
    exact expanded
  have refers := refers_of_unescape unescaped
  have agrees : String.ofList meant = tag.name.space ↔ '&' ∉ tag.name.space.toList := by
    rw [← refers.eq_iff, ← String.toList_inj, String.toList_ofList]
  have expands : call.site.bindings.expand? shown = some tag.name.text ↔
      '&' ∉ tag.name.space.toList := by
    rw [known, Option.some_inj, ← agrees]
    exact QName.text_inj
  refine ⟨⟨meant, unescaped, known⟩, expands, ?_, ?_⟩
  · intro clean
    rw [trail, List.reverse_cons, Trail.lastSegment_path]
    · exact expands
    · intro q member
      exact clean q (by simpa [or_comm] using member)
  · intro clean p form anchor filled fits
    have placed : call.site.trail = here.trail.enter tag.name := by
      rw [site]
      rfl
    have empty : String.ofList meant = "" ↔ tag.name.space = "" := by
      rw [← String.toList_eq_nil_iff, ← String.toList_eq_nil_iff, String.toList_ofList]
      exact refers.eq_nil_iff
    rw [placed, ← agrees]
    refine Pattern.isMatch_enter_iff form anchor filled here.trail clean ?_ empty ?_
    · exact Option.some.inj (fits.symm.trans known)
    · rw [String.toList_ofList]
      exact refers.length.1

theorem expansion_at_begin_of_bound :
    let table := ((RuleTable.registerAll [.rule "*" ⟨0⟩]).perform {}).2
    let c : Catalogue Unit := fun _ => { name := "none" }
    let d : Dispatcher Unit := .new (.base table) {} false ()
    ∃ call ∈ calls c true [.empty (ascii "p:a xmlns='v' xmlns:p='w'")] .complete d,
      ∃ attrs, call.occasion = .begin ⟨"w", "a"⟩ attrs ∧
        call.site.bindings.expand? "p:a" = some (Path.lastSegment call.site.trail.path) := by
  intro table c d
  have found : ∃ call ∈ calls c true [.empty (ascii "p:a xmlns='v' xmlns:p='w'")] .complete d,
      call.occasion.phase = .begin := by
    decide +kernel
  obtain ⟨call, member, phase⟩ := found
  cases begins : call.occasion with
  | start | segment | body | ending | finish =>
    rw [begins] at phase
    cases phase
  | begin name attrs =>
    obtain ⟨bytes, above, tag, written, ⟨done, token, rest, inner, shape, kind, reached, opened⟩, own,
      read, _, agrees⟩ := expansion_at_begin c _ _ d member begins
    refine ⟨call, member, attrs, ?_⟩
    cases done with
    | cons first done => simp at shape
    | nil =>
      cases reached
      obtain ⟨rfl, _⟩ := List.cons.inj shape
      rcases kind with other | same
      · cases other
      · cases same
        have spelled : decode? (tagName (ascii "p:a xmlns='v' xmlns:p='w'")) = some "p:a" := by
          decide +kernel
        cases spelled.symm.trans read
        have named : (Tag.opening {} true (ascii "p:a xmlns='v' xmlns:p='w'")).toOption.map
            (fun parts => parts.2.name) = some ⟨"w", "a"⟩ := by
          decide +kernel
        rw [opened] at named
        cases own.symm.trans (Option.some.inj named)
        have ordinary : ∀ rest : String, "p:a" ≠ "xmlns:" ++ rest := by
          intro rest same
          simpa using congrArg String.toList same
        exact ⟨begins, ((agrees ordinary).2.2.1 (by decide)).mpr (by decide)⟩

-- A URI with a reference in it: the rule for the URI that the context knows does not fire.
theorem expansion_of_reference :
    let table := ((RuleTable.registerAll
      [.declare "p" "urn:&x", .rule "*" ⟨0⟩, .rule "p:a" ⟨1⟩]).perform {}).2
    let c : Catalogue Unit := fun _ => { name := "none" }
    let d : Dispatcher Unit := .new (.base table) {} false ()
    let made := calls c true [.empty (ascii "p:a xmlns:p=\"urn:&amp;x\"")] .complete d
    (∃ call ∈ made, call.occasion.phase = .begin ∧
        call.site.bindings.expand? "p:a" = some "\x7burn:&x\x7da" ∧
        Path.lastSegment call.site.trail.path = "\x7burn:&amp;x\x7da") ∧
      ∀ call ∈ made, call.occasion.phase = .begin → call.actor = ⟨0⟩ := by
  intro table c d made
  exact ⟨by decide +kernel, by decide +kernel⟩

end Dispatcher
end XmlRules
