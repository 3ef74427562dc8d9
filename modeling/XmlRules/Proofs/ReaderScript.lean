import XmlRules.Proofs.FailedCalls
import XmlRules.Proofs.OpenElements
namespace XmlRules
open Markup

namespace Reading
variable {ε α β : Type} {x : Except ε α} {f : α → Except ε β}

theorem ok_of_bind {b : β} (read : x >>= f = .ok b) : ∃ a, x = .ok a ∧ f a = .ok b := by
  cases x with
  | error e => cases read
  | ok a => exact ⟨a, rfl, read⟩

theorem error_of_bind {e : ε} (failed : x >>= f = .error e) :
    x = .error e ∨ ∃ a, x = .ok a ∧ f a = .error e := by
  cases x with
  | error e =>
    cases failed
    exact .inl rfl
  | ok a => exact .inr ⟨a, rfl, failed⟩

end Reading

namespace Tag

def opening (scopes : Scopes) (aware : Bool) (bytes : Bytes) : Except ReadError (Scopes × Tag) := do
  let declared ← (bindings bytes).mapError ReadError.ofFault
  let tag ← read (scopes.enter declared) aware bytes
  return (scopes.enter declared, tag)

end Tag

namespace Place

-- What one token has a dispatcher told, and where the reader stands then.
def said (aware : Bool) (place : Place) : Token → Except ReadError (List Event × Place)
  | .start bytes => do
    let (inner, tag) ← Tag.opening place.scopes aware bytes
    return (tag.events, ⟨inner, tag.name :: place.opened⟩)
  | .empty bytes => do
    let (_, tag) ← Tag.opening place.scopes aware bytes
    return (tag.events ++ [.finish tag.name], place)
  | .close _ =>
    match place.opened with
    | [] => throw (.dispatch (.internal .strayEndTag))
    | name :: opened => return ([.finish name], ⟨place.scopes.leave, opened⟩)
  | .text bytes | .cdata bytes => return ([.text (← Tag.content bytes)], place)
  | .reference bytes => do
    let name ← Tag.content bytes
    match textReference? name.toList with
    | some c => return ([.text (String.singleton c)], place)
    | none => throw (.unknownReference name)
  | .other => return ([], place)

-- What a whole document has a dispatcher told after its start, and what is wrong with the document
-- itself, if anything. No answer of the dispatcher plays a part in it.
def script (aware : Bool) (ending : Ending) (place : Place) :
    List Token → List Event × Option ReadError
  | [] =>
    match ending with
    | .complete => ([.endDocument], none)
    | .broken fault position => ([], some (.markup fault position))
  | token :: tokens =>
    match place.said aware token with
    | .error e => ([], some e)
    | .ok (es, next) =>
      let (more, fault) := script aware ending next tokens
      (es ++ more, fault)

end Place

namespace Dispatcher
variable {σ : Type} {c : Catalogue σ} {aware : Bool}

def tell (c : Catalogue σ) (es : List Event) : ReadM σ Unit := es.forM fun e => event (e.run c)

def conclude : Option ReadError → ReadM σ Unit
  | none => pure ()
  | some e => throw e

theorem tell_append (es fs : List Event) : tell c (es ++ fs) = (do tell c es; tell c fs) := by
  simp [tell]

theorem tell_cons (e : Event) (es : List Event) :
    tell c (e :: es) = (do event (e.run c); tell c es) := by
  simp [tell]

theorem tell_single (e : Event) : tell c [e] = event (e.run c) := by
  simp [tell]

theorem tell_declared (declared : List (String × String)) :
    tell c (declared.map fun binding => .declare binding.1 binding.2) =
      modify fun d => declared.foldl (fun d (label, uri) => d.startPrefixMapping label uri) d := by
  induction declared with
  | nil => rfl
  | cons binding declared ih =>
    rw [List.map_cons, tell_cons, ih]
    rfl

@[simp] theorem lift_ok {α : Type} (a : α) :
    (liftM (Except.ok a : Except ReadError α) : ReadM σ α) = pure a := rfl

@[simp] theorem lift_error {α : Type} (e : ReadError) :
    (liftM (Except.error e : Except ReadError α) : ReadM σ α) = throw e := rfl

theorem lift_bind {α β : Type} (x : Except ReadError α) (f : α → Except ReadError β) :
    (liftM (x >>= f) : ReadM σ β) = (do let a ← (x : ReadM σ α); (f a : ReadM σ β)) := by
  cases x <;> rfl

theorem tell_tag (tag : Tag) : tell c tag.events = (do
    modify fun d => tag.declared.foldl (fun d (label, uri) => d.startPrefixMapping label uri) d
    event (startElement c tag.name tag.attributes)) := by
  rw [Tag.events, tell_append, tell_declared, tell_single]
  rfl

theorem startTag_eq (scopes : Scopes) (bytes : Bytes) :
    startTag c aware scopes bytes = (do
      let (inner, tag) ← (Tag.opening scopes aware bytes : ReadM σ (Scopes × Tag))
      tell c tag.events
      return (inner, tag.name)) := by
  unfold startTag Tag.opening
  rw [lift_bind]
  cases (bindings bytes).mapError ReadError.ofFault with
  | error e => rfl
  | ok declared =>
    simp only [lift_bind, ofExcept, lift_ok, pure_bind, bind_assoc]
    cases Tag.read (scopes.enter declared) aware bytes with
    | error e => rfl
    | ok tag => simp [tell_tag]

theorem token_eq (place : Place) (token : Token) :
    Dispatcher.token c aware place token = (do
      let (es, next) ← (place.said aware token : ReadM σ (List Event × Place))
      tell c es
      return next) := by
  cases token with
  | start bytes =>
    rw [Dispatcher.token, startTag_eq, Place.said]
    cases Tag.opening place.scopes aware bytes with
    | error e => rfl
    | ok opened => simp
  | empty bytes =>
    rw [Dispatcher.token, startTag_eq, Place.said]
    cases Tag.opening place.scopes aware bytes with
    | error e => rfl
    | ok opened => simp [tell_append, tell_single, Event.run]
  | close name =>
    rw [Dispatcher.token, Place.said]
    cases place.opened with
    | nil => rfl
    | cons name opened => simp [tell_single, Event.run]
  | text bytes | cdata bytes =>
    rw [Dispatcher.token, Place.said, lift_bind]
    cases Tag.content bytes with
    | error e => rfl
    | ok content => simp [tell_single, Event.run]
  | reference bytes =>
    rw [Dispatcher.token, Place.said, lift_bind]
    cases Tag.content bytes with
    | error e => rfl
    | ok name =>
      simp only [lift_ok, pure_bind]
      cases textReference? name.toList with
      | none => rfl
      | some meant => simp [tell_single, Event.run]
  | other => rfl

theorem play_eq (tokens : List Token) (ending : Ending) :
    play c aware tokens ending = (do
      tell c (.startDocument :: (Place.script aware ending {} tokens).1)
      conclude (Place.script aware ending {} tokens).2) := by
  -- What comes after the last token is the same wherever the reader stands then.
  have rest {last : ReadM σ Unit} (ends : ∀ place, last = (do
      tell c (Place.script aware ending place []).1
      conclude (Place.script aware ending place []).2)) : ∀ place, (do
        let _ ← tokens.foldlM (Dispatcher.token c aware) place
        last) = (do
          tell c (Place.script aware ending place tokens).1
          conclude (Place.script aware ending place tokens).2) := by
    induction tokens with
    | nil => exact ends
    | cons token tokens ih =>
      intro place
      rw [List.foldlM_cons, token_eq, Place.script]
      cases place.said aware token with
      | error e => rfl
      | ok said => simp [ih, tell_append]
  rw [tell_cons, bind_assoc]
  refine congrArg (event (startDocument c) >>= fun _ => ·) (rest (fun place => ?_) {})
  cases ending with
  | complete => simp [Place.script, tell_single, Event.run, conclude]
  | broken fault position => rfl

end Dispatcher

-- Events between the start of a document and its end that close elements as they were opened, from
-- some open elements to others, innermost first.
inductive Event.Nests : List QName → List Event → List QName → Prop where
  | nil (opened : List QName) : Nests opened [] opened
  | declare {opened after : List QName} {es : List Event} (label uri : String)
      (later : Nests opened es after) : Nests opened (.declare label uri :: es) after
  | start {opened after : List QName} {es : List Event} {name : QName} (attrs : Attributes)
      (later : Nests (name :: opened) es after) : Nests opened (.start name attrs :: es) after
  | text {opened after : List QName} {es : List Event} (content : String)
      (later : Nests opened es after) : Nests opened (.text content :: es) after
  | finish {opened after : List QName} {es : List Event} {name : QName}
      (later : Nests opened es after) : Nests (name :: opened) (.finish name :: es) after

namespace Event

theorem Nests.append {opened middle after : List QName} {es fs : List Event}
    (first : Nests opened es middle) (second : Nests middle fs after) :
    Nests opened (es ++ fs) after := by
  induction first with
  | nil opened => exact second
  | declare label uri _ ih => exact .declare label uri (ih second)
  | start attrs _ ih => exact .start attrs (ih second)
  | text content _ ih => exact .text content (ih second)
  | finish _ ih => exact .finish (ih second)

theorem Nests.split {opened after : List QName} {es fs : List Event}
    (nests : Nests opened (es ++ fs) after) :
    ∃ middle, Nests opened es middle ∧ Nests middle fs after := by
  induction es generalizing opened with
  | nil => exact ⟨opened, .nil opened, nests⟩
  | cons e es ih =>
    cases nests with
    | declare label uri later =>
      obtain ⟨middle, first, second⟩ := ih later
      exact ⟨middle, .declare label uri first, second⟩
    | start attrs later =>
      obtain ⟨middle, first, second⟩ := ih later
      exact ⟨middle, .start attrs first, second⟩
    | text content later =>
      obtain ⟨middle, first, second⟩ := ih later
      exact ⟨middle, .text content first, second⟩
    | finish later =>
      obtain ⟨middle, first, second⟩ := ih later
      exact ⟨middle, .finish first, second⟩

theorem nests_tag (tag : Tag) (opened : List QName) :
    Nests opened tag.events (tag.name :: opened) := by
  have declared : ∀ bindings : List (String × String), Nests opened
      (bindings.map fun binding => .declare binding.1 binding.2) opened := by
    intro bindings
    induction bindings with
    | nil => exact .nil opened
    | cons binding bindings ih => exact .declare _ _ ih
  exact (declared tag.declared).append (.start tag.attributes (.nil _))

end Event

namespace Place
variable {aware : Bool} {place next : Place}

theorem nests_said {token : Token} {es : List Event} (said : place.said aware token = .ok (es, next)) :
    Event.Nests place.opened es next.opened := by
  cases token with
  | start bytes =>
    obtain ⟨⟨inner, tag⟩, read, told⟩ := Reading.ok_of_bind said
    cases told
    exact Event.nests_tag tag place.opened
  | empty bytes =>
    obtain ⟨⟨inner, tag⟩, read, told⟩ := Reading.ok_of_bind said
    cases told
    exact (Event.nests_tag tag place.opened).append (.finish (.nil _))
  | close name =>
    rw [Place.said] at said
    cases shape : place.opened with
    | nil =>
      rw [shape] at said
      cases said
    | cons name opened =>
      rw [shape] at said
      cases said
      exact .finish (.nil opened)
  | text bytes | cdata bytes =>
    obtain ⟨content, read, told⟩ := Reading.ok_of_bind said
    cases told
    exact .text content (.nil _)
  | reference bytes =>
    obtain ⟨name, read, told⟩ := Reading.ok_of_bind said
    cases meant : textReference? name.toList with
    | none =>
      rw [meant] at told
      cases told
    | some c =>
      rw [meant] at told
      cases told
      exact .text _ (.nil _)
  | other =>
    cases said
    exact .nil _

theorem nests_script (aware : Bool) (ending : Ending) (place : Place) (tokens : List Token) :
    ∃ es last after, (place.script aware ending tokens).1 = es ++ last ∧
      Event.Nests place.opened es after ∧
        (last = [] ∧ (place.script aware ending tokens).2 ≠ none ∨
          last = [.endDocument] ∧ (place.script aware ending tokens).2 = none) := by
  induction tokens generalizing place with
  | nil =>
    cases ending with
    | complete => exact ⟨[], [.endDocument], place.opened, rfl, .nil _, .inr ⟨rfl, rfl⟩⟩
    | broken fault position => exact ⟨[], [], place.opened, rfl, .nil _, .inl ⟨rfl, nofun⟩⟩
  | cons token tokens ih =>
    rw [script]
    cases said : place.said aware token with
    | error e => exact ⟨[], [], place.opened, rfl, .nil _, .inl ⟨rfl, nofun⟩⟩
    | ok told =>
      obtain ⟨es, next⟩ := told
      obtain ⟨more, last, after, split, nests, ends⟩ := ih next
      refine ⟨es ++ more, last, after, ?_, (nests_said said).append nests, ends⟩
      rw [List.append_assoc, ← split]

theorem nests_before {ending : Ending} {tokens : List Token} {before after : List Event}
    {name : QName} (told : (place.script aware ending tokens).1 = before ++ .finish name :: after) :
    ∃ around, Event.Nests place.opened before (name :: around) := by
  obtain ⟨es, last, left, split, nests, ends⟩ := nests_script aware ending place tokens
  have inside : ∃ rest, es = before ++ .finish name :: rest := by
    rw [told] at split
    rcases ends with ⟨rfl, _⟩ | ⟨rfl, _⟩
    · exact ⟨after, by simpa using split.symm⟩
    · rcases List.eq_nil_or_concat after with rfl | ⟨rest, e, rfl⟩
      · exact absurd (List.append_inj_right' split rfl) (by simp)
      · refine ⟨rest, ?_⟩
        rw [List.concat_eq_append, ← List.cons_append, ← List.append_assoc] at split
        exact (List.append_inj_left' split rfl).symm
  obtain ⟨rest, rfl⟩ := inside
  obtain ⟨middle, first, second⟩ := nests.split
  cases second with
  | @finish opened => exact ⟨opened, first⟩

end Place

def Unasked {α : Type} (x : Except ReadError α) : Prop := ∀ e, x ≠ .error (.dispatch e)

section Unasked
variable {α β : Type}

theorem Unasked.bind {x : Except ReadError α} {f : α → Except ReadError β} (first : Unasked x)
    (later : ∀ a, Unasked (f a)) : Unasked (x >>= f) := by
  intro e failed
  rcases Reading.error_of_bind failed with before | ⟨a, _, after⟩
  · exact first e before
  · exact later a e after

theorem unasked_pure (a : α) : Unasked (pure a) := nofun

theorem unasked_foldlM {f : β → α → Except ReadError β} (each : ∀ b a, Unasked (f b a))
    (as : List α) (b : β) : Unasked (as.foldlM f b) := by
  induction as generalizing b with
  | nil => exact unasked_pure b
  | cons a as ih =>
    rw [List.foldlM_cons]
    exact (each b a).bind ih

theorem unasked_text (bytes : Bytes) : Unasked (Tag.text bytes) := by
  unfold Tag.text
  cases decode? bytes <;> nofun

theorem unasked_content (bytes : Bytes) : Unasked (Tag.content bytes) := by
  unfold Tag.content
  cases decode? bytes <;> nofun

theorem unasked_value (bytes : Bytes) : Unasked (Tag.value bytes) := by
  refine (unasked_content bytes).bind fun s => ?_
  cases unescape s.toList <;> nofun

theorem unasked_resolve (scopes : Scopes) (forElement : Bool) (name : Bytes) (written : String) :
    Unasked (Tag.resolve scopes forElement name written) := by
  refine (unasked_text _).bind fun rest => ?_
  split
  · exact (unasked_text _).bind fun uri => unasked_pure _
  · exact unasked_pure _
  · nofun

theorem unasked_take (scopes : Scopes) (aware : Bool) (tag : Tag) (a : RawAttribute) :
    Unasked (Tag.take scopes aware tag a) := by
  refine (unasked_text _).bind fun written => (unasked_value _).bind fun value => ?_
  split
  · split
    · exact (unasked_text _).bind fun label => unasked_pure _
    · exact (unasked_resolve _ _ _ _).bind fun q => unasked_pure _
  · exact unasked_pure _

theorem unasked_read (scopes : Scopes) (aware : Bool) (bytes : Bytes) :
    Unasked (Tag.read scopes aware bytes) := by
  refine (unasked_foldlM (unasked_take scopes aware) _ _).bind fun tag => ?_
  split
  · nofun
  · refine (unasked_text _).bind fun written => ?_
    split
    · exact (unasked_resolve _ _ _ _).bind fun name => unasked_pure _
    · exact unasked_pure _

theorem unasked_opening (scopes : Scopes) (aware : Bool) (bytes : Bytes) :
    Unasked (Tag.opening scopes aware bytes) := by
  refine Unasked.bind ?_ fun declared => (unasked_read _ _ _).bind fun tag => unasked_pure _
  cases bindings bytes <;> nofun

end Unasked

namespace Place
variable {aware : Bool}

-- The one error of the reader that bears the name of a dispatcher's.
theorem said_error {place : Place} {token : Token} {e : DispatchError}
    (failed : place.said aware token = .error (.dispatch e)) : e = .internal .strayEndTag := by
  cases token with
  | start bytes | empty bytes =>
    exact absurd failed ((unasked_opening _ _ _).bind (fun _ => unasked_pure _) e)
  | text bytes | cdata bytes =>
    exact absurd failed ((unasked_content bytes).bind (fun _ => unasked_pure _) e)
  | close name =>
    rw [said] at failed
    split at failed
    · cases failed
      rfl
    · cases failed
  | reference bytes =>
    refine absurd failed ((unasked_content bytes).bind (fun name => ?_) e)
    split <;> nofun
  | other => cases failed

theorem script_error {ending : Ending} {place : Place} {tokens : List Token} {e : DispatchError}
    (failed : (place.script aware ending tokens).2 = some (.dispatch e)) :
    e = .internal .strayEndTag := by
  induction tokens generalizing place with
  | nil => cases ending <;> cases failed
  | cons token tokens ih =>
    rw [script] at failed
    cases said : place.said aware token with
    | error other =>
      rw [said] at failed
      cases failed
      exact said_error said
    | ok told =>
      rw [said] at failed
      exact ih failed

end Place

namespace Context
variable {σ : Type} {c : Catalogue σ}

def Reports (step : ContextM σ Unit) : Prop := ∀ ctx e next, step.perform ctx = (.error e, next) →
  ∃ name phase path cause, e = .action name phase path cause

theorem Reports.bind {step next : ContextM σ Unit} (first : Reports step) (later : Reports next) :
    Reports (do step; next) := by
  intro ctx e last failed
  rcases Attempt.error_of_bind failed with before | ⟨_, middle, _, after⟩
  · exact first ctx e last before
  · exact later middle e last after

theorem Reports.get {step : Context σ → ContextM σ Unit} (each : ∀ ctx, Reports (step ctx)) :
    Reports (do step (← get)) := fun ctx => each ctx ctx

theorem reports_pure : Reports (pure () : ContextM σ Unit) := fun _ _ _ ran => nomatch ran
theorem reports_set (ctx : Context σ) : Reports (set ctx : ContextM σ Unit) :=
  fun _ _ _ ran => nomatch ran

theorem error_of_perform {wrap : ActionError → DispatchError} {step : Step σ Unit}
    {ctx next : Context σ} {e : DispatchError}
    (failed : (perform wrap step).perform ctx = (.error e, next)) : ∃ cause, e = wrap cause := by
  unfold perform at failed
  rw [Attempt.perform_bind, Attempt.perform_get] at failed
  dsimp only at failed
  cases called : Step.perform step ctx.site ctx.work with
  | mk result work =>
    rw [called] at failed
    cases result with
    | ok value => cases failed
    | error cause =>
      cases failed
      exact ⟨cause, rfl⟩

theorem reports_performAll (phase : Phase) (path : String)
    (callback : Behaviour σ → Step σ Unit) (ids : List ActionId) :
    Reports (performAll c phase path callback ids) := by
  induction ids with
  | nil => exact reports_pure
  | cons id ids ih =>
    exact Reports.bind (fun ctx e next failed => ⟨_, _, _, error_of_perform failed⟩) ih

theorem reports_flush : Reports (flush c) := by
  apply Reports.get
  intro ctx
  split
  · exact reports_pure
  · split
    · exact reports_pure
    · exact (reports_set _).bind (reports_performAll _ _ _ _)

theorem reports_openElement (name : QName) (attrs : Attributes)
    (declared : List (String × String)) : Reports (openElement c name attrs declared) := by
  refine reports_flush.bind (Reports.bind (fun _ _ _ ran => nomatch ran) (Reports.get fun ctx => ?_))
  exact (reports_set _).bind (reports_performAll _ _ _ _)

theorem reports_callEndings (frame : Frame) (text : String) :
    Reports (callEndings c frame text) := by
  refine Reports.get fun ctx => reports_flush.bind ?_
  exact (reports_performAll _ _ _ _).bind (reports_performAll _ _ _ _)

end Context

namespace Dispatcher
variable {σ : Type} {c : Catalogue σ} {d next : Dispatcher σ} {opened after : List QName}

def Amid (opened : List QName) (d : Dispatcher σ) : Prop :=
  ∃ ctx, d.progress = .live ctx ∧ ctx.frames.map Frame.name = opened ∧
    ctx.site.trail = .along opened.reverse

theorem Amid.depth_eq (amid : d.Amid opened) : d.depth = opened.length := by
  obtain ⟨ctx, live, _, trail⟩ := amid
  rw [depth, context?_of_live live]
  change ctx.site.trail.depth = _
  rw [trail, Trail.depth_along, List.length_reverse]

-- What becomes of a step within a document: these elements are open, or an action has failed and
-- the document is given up.
def Settles (opened : List QName) : Except ReadError Unit × Dispatcher σ → Prop
  | (.ok (), next) => next.Amid opened
  | (.error e, next) =>
    next.state = .aborted ∧ ∃ name phase path cause, e = .dispatch (.action name phase path cause)

theorem Settles.bind {middle : List QName} {step next : ReadM σ Unit}
    (first : Settles middle (step.perform d))
    (later : ∀ d : Dispatcher σ, d.Amid middle → Settles after (next.perform d)) :
    Settles after (Attempt.perform (do step; next) d) := by
  rw [Attempt.perform_bind]
  cases ran : step.perform d with
  | mk result told =>
    rw [ran] at first
    cases result with
    | ok value => exact later told first
    | error e => exact first

theorem perform_event (step : DispatchM σ Unit) (d : Dispatcher σ) :
    (event step).perform d =
      ((step.perform d).1.mapError ReadError.dispatch, (step.perform d).2) := rfl

theorem settles_event {e : Event} (inner : e ≠ .startDocument) {step : ContextM σ Unit}
    {before : Dispatcher σ} (ran : (e.run c).perform d = (withContext step).perform before)
    (same : before.progress = d.progress) {ctx : Context σ} (live : d.progress = .live ctx)
    (trail : ctx.site.trail = .along (ctx.frames.map Frame.name).reverse)
    (reports : ∀ e last, step.perform ctx = (.error e, last) →
      ∃ name phase path cause, e = .action name phase path cause) :
    Settles ((Course.visit ctx.site.rules d.trims ⟨ctx.frames, []⟩
      (e, Event.matched c e d)).frames.map Frame.name) ((event (e.run c)).perform d) := by
  rw [perform_event, ran, perform_withContext (same.trans live)]
  cases made : step.perform ctx with
  | mk result last =>
    cases result with
    | error e =>
      obtain ⟨name, phase, path, cause, rfl⟩ := reports e last made
      exact ⟨rfl, name, phase, path, cause, rfl⟩
    | ok value =>
      have on : Course.Of ⟨ctx.frames, []⟩ ctx.site.rules ctx := ⟨rfl, trail, rfl⟩
      have within : Event.Within c [e] d := ⟨fun same => absurd same inner, trivial⟩
      have lives : (Event.feed c [e] d).2.progress = .live last := by
        rw [Event.feed, ran, perform_withContext (same.trans live), made]
        rfl
      have follows := (Event.course_feed live on within lives).2
      exact ⟨last, rfl, congrArg (List.map Frame.name) follows.frames, follows.trail⟩

variable {name : QName}

theorem settles_declare (amid : d.Amid opened) (label uri : String) :
    Settles opened ((event ((Event.declare label uri).run c)).perform d) := amid

theorem settles_text (amid : d.Amid opened) (content : String) :
    Settles opened ((event ((Event.text content).run c)).perform d) := by
  obtain ⟨ctx, live, rfl, trail⟩ := amid
  have told : ((Event.text content).run c).perform d =
      (withContext (modify (·.addText content))).perform d := rfl
  have visited := settles_event (by simp) told rfl live trail (fun _ _ ran => nomatch ran)
  have names : (Course.addText ⟨ctx.frames, []⟩ content).frames.map Frame.name =
      ctx.frames.map Frame.name := by
    cases ctx.frames <;> rfl
  rwa [Course.visit, names] at visited

theorem settles_start (amid : d.Amid opened) (attrs : Attributes) :
    Settles (name :: opened) ((event ((Event.start name attrs).run c)).perform d) := by
  obtain ⟨ctx, live, rfl, trail⟩ := amid
  have visited := settles_event (by simp) (Event.perform_start d name attrs) rfl live trail
    (Context.reports_openElement (c := c) name attrs d.pending ctx)
  have names : (Course.flush ⟨ctx.frames, []⟩).frames.map Frame.name = ctx.frames.map Frame.name := by
    rw [Course.frames_flush, Course.names_delivered]
  rw [← names]
  exact visited

theorem settles_finish (amid : d.Amid (name :: opened)) :
    Settles opened ((event ((Event.finish name).run c)).perform d) := by
  obtain ⟨ctx, live, names, trail⟩ := amid
  cases shape : ctx.frames with
  | nil => simp [shape] at names
  | cons frame frames =>
    rw [shape, List.map_cons] at names
    obtain ⟨rfl, rfl⟩ := List.cons.inj names
    have visited := settles_event (by simp) (Event.perform_finish (c := c) d frame.name) rfl live
      (by rw [trail, shape, List.map_cons]) ?_
    · rw [Course.visit, shape] at visited
      exact visited
    -- The name is that of the innermost element, so that nothing can fail but a call.
    · intro e last failed
      rw [Context.perform_closeElement_of_frame c d.trims shape] at failed
      cases ran : (Context.callEndings c frame
          (if d.trims then Text.trimmed frame.body else frame.body)).perform ctx with
      | mk result told =>
        rw [ran] at failed
        cases result with
        | ok value => cases failed
        | error other =>
          cases failed
          exact Context.reports_callEndings frame _ ctx e last ran

theorem settles_tell {es : List Event} (nests : Event.Nests opened es after) (amid : d.Amid opened) :
    Settles after ((tell c es).perform d) := by
  induction nests generalizing d with
  | nil opened => exact amid
  | declare label uri _ ih =>
    rw [tell_cons]
    exact (settles_declare amid label uri).bind fun _ => ih
  | start attrs _ ih =>
    rw [tell_cons]
    exact (settles_start amid attrs).bind fun _ => ih
  | text content _ ih =>
    rw [tell_cons]
    exact (settles_text amid content).bind fun _ => ih
  | finish _ ih =>
    rw [tell_cons]
    exact (settles_finish amid).bind fun _ => ih

theorem perform_drive (tokens : List Token) (ending : Ending) (d : Dispatcher σ) :
    (drive c aware tokens ending).perform d =
      match (play c aware tokens ending).perform d with
      | (.ok (), next) => (.ok (), next)
      | (.error e, next) => (.error e, next.abort) := by
  unfold drive
  rw [Attempt.perform_tryCatch]
  cases (play c aware tokens ending).perform d with
  | mk result next => cases result <;> rfl

theorem state_abort (open_ : d.state = .documentStarted ∨ d.state = .aborted) :
    d.abort.state = .aborted := by
  rcases open_ with started | gone
  · obtain ⟨ctx, live⟩ := live_of_started started
    rw [abort, live]
    rfl
  · unfold abort
    split
    · rfl
    · exact gone

-- The misuse that the reader may run into: that of a dispatcher with a document in progress, and that
-- of a document that does not close its elements.
def Fitting (e : ReadError) : Prop := ∀ misuse, e = .dispatch (.internal misuse) →
  misuse = .alreadyStarted ∨ misuse = .strayEndTag ∨ ∃ path, misuse = .stillOpen path

def Closes : Except ReadError Unit × Dispatcher σ → Prop
  | (.ok (), next) => next.state = .documentEnded
  | (.error e, next) => (next.state = .documentStarted ∨ next.state = .aborted) ∧ Fitting e

theorem startDocument_cases (d : Dispatcher σ) :
    (∃ next, (event (Event.startDocument.run c)).perform d = (.ok (), next) ∧ next.Amid []) ∨
      ∃ e next, (event (Event.startDocument.run c)).perform d = (.error e, next) ∧
        (next.state = .documentStarted ∨ next.state = .aborted) ∧ Fitting e := by
  by_cases started : d.state = .documentStarted
  · refine .inr ⟨.dispatch (.internal .alreadyStarted), d, ?_, .inl started, ?_⟩
    · rw [perform_event, Event.perform_startDocument_refused started]
      rfl
    · rintro misuse ⟨⟩
      exact .inl rfl
  · have ran := Event.perform_startDocument (c := c) d started
    rw [perform_withContext (d := d.opened) rfl] at ran
    rw [perform_event, ran]
    let step : ContextM σ Unit :=
      Context.perform (.lifecycle .startParse) (c.start d.rules.actions)
    cases made : step.perform d.fresh with
    | mk result last =>
      cases result with
      | ok value =>
        have live : (Event.feed c [.startDocument] d).2.progress = .live last := by
          rw [Event.feed, ran, made]
          rfl
        have follows := (Event.course_start started live).2
        exact .inl ⟨_, rfl, last, rfl, congrArg (List.map Frame.name) follows.frames, follows.trail⟩
      | error e =>
        obtain ⟨cause, rfl⟩ := Context.error_of_perform made
        exact .inr ⟨_, _, rfl, .inr rfl, by rintro misuse ⟨⟩⟩

theorem closes_endDocument (amid : d.Amid opened) :
    Closes ((event (Event.endDocument.run c)).perform d) := by
  obtain ⟨ctx, live, -⟩ := amid
  rw [perform_event, Event.perform_endDocument live]
  cases ran : (finishRules c).perform ctx with
  | mk result last =>
    cases result with
    | ok value => rfl
    | error e =>
      refine ⟨.inr rfl, ?_⟩
      unfold finishRules at ran
      rw [Attempt.perform_bind, Attempt.perform_get] at ran
      dsimp only at ran
      split at ran
      · cases ran
        rintro misuse ⟨⟩
        exact .inr (.inr ⟨_, rfl⟩)
      · obtain ⟨cause, rfl⟩ := Context.error_of_perform ran
        rintro misuse ⟨⟩

theorem closes_conclude {fault : Option ReadError} (amid : d.Amid opened)
    (fits : ∀ e, fault = some e → Fitting e) (faulty : fault ≠ none) :
    Closes ((conclude fault).perform d) := by
  obtain ⟨ctx, live, -⟩ := amid
  cases fault with
  | none => exact absurd rfl faulty
  | some e => exact ⟨.inl (state_of_live live), fits e rfl⟩

theorem Settles.closes {step next : ReadM σ Unit} (first : Settles opened (step.perform d))
    (later : ∀ d : Dispatcher σ, d.Amid opened → Closes (next.perform d)) :
    Closes (Attempt.perform (do step; next) d) := by
  rw [Attempt.perform_bind]
  cases ran : step.perform d with
  | mk result told =>
    rw [ran] at first
    cases result with
    | ok value => exact later told first
    | error e =>
      obtain ⟨gone, name, phase, path, cause, rfl⟩ := first
      exact ⟨.inr gone, by rintro misuse ⟨⟩⟩

theorem fitting_fault {ending : Ending} {place : Place} {tokens : List Token} {e : ReadError}
    (fault : (place.script aware ending tokens).2 = some e) : Fitting e := by
  rintro misuse rfl
  exact .inr (.inl (DispatchError.internal.inj (Place.script_error fault)))

theorem closes_play (tokens : List Token) (ending : Ending) (d : Dispatcher σ) :
    Closes ((play c aware tokens ending).perform d) := by
  obtain ⟨es, last, after, split, nests, ends⟩ := Place.nests_script aware ending {} tokens
  rw [play_eq, split, tell_cons, tell_append, bind_assoc, bind_assoc]
  rcases startDocument_cases (c := c) d with ⟨next, ran, amid⟩ | ⟨e, next, ran, open_, fit⟩
  · rw [Attempt.perform_bind_ok ran]
    refine (settles_tell nests amid).closes fun d amid => ?_
    rcases ends with ⟨rfl, faulty⟩ | ⟨rfl, none⟩
    · exact closes_conclude amid (fun _ => fitting_fault) faulty
    · rw [none, tell_single]
      change Closes (Attempt.perform (event (Event.endDocument.run c) >>= pure) d)
      rw [bind_pure]
      exact closes_endDocument amid
  · rw [Attempt.perform_bind_error ran]
    exact ⟨open_, fit⟩

-- Between two tokens the names that the reader keeps are those of the open elements.
theorem amid_token {place last : Place} {token : Token} (amid : d.Amid place.opened)
    (ran : (Dispatcher.token c aware place token).perform d = (.ok last, next)) :
    next.Amid last.opened := by
  rw [token_eq] at ran
  cases said : place.said aware token with
  | error e =>
    rw [said] at ran
    cases ran
  | ok told =>
    obtain ⟨es, after⟩ := told
    rw [said, lift_ok, pure_bind] at ran
    obtain ⟨_, middle, first, rest⟩ := Attempt.ok_of_bind ran
    cases rest
    have settles := settles_tell (c := c) (Place.nests_said said) amid
    rw [first] at settles
    exact settles

theorem amid_tokens {place last : Place} {tokens : List Token} (amid : d.Amid place.opened)
    (ran : Attempt.perform (tokens.foldlM (Dispatcher.token c aware) place) d = (.ok last, next)) :
    next.Amid last.opened := by
  induction tokens generalizing place d with
  | nil =>
    cases ran
    exact amid
  | cons token tokens ih =>
    rw [List.foldlM_cons] at ran
    obtain ⟨middle, told, first, rest⟩ := Attempt.ok_of_bind ran
    exact ih (amid_token amid first) rest

theorem amid_started (ran : (event (startDocument c)).perform d = (.ok (), next)) : next.Amid [] := by
  rcases startDocument_cases (c := c) d with ⟨other, told, amid⟩ | ⟨e, other, told, _⟩
  · cases told.symm.trans ran
    exact amid
  · cases told.symm.trans ran

theorem context?_of_over (gone : d.state ≠ .documentStarted) : d.context? = none := by
  obtain ⟨rules, factory, trims, pending, initialRoot, progress⟩ := d
  cases progress with
  | live ctx => exact absurd rfl gone
  | idle | ended | aborted => rfl

theorem drive_closes (c : Catalogue σ) (aware : Bool) (tokens : List Token) (ending : Ending) (d : Dispatcher σ) :
    match (drive c aware tokens ending).perform d with
    | (.ok (), final) => final.state = .documentEnded
    | (.error e, final) => final.state = .aborted ∧ Fitting e := by
  have closes : Closes ((play c aware tokens ending).perform d) := closes_play tokens ending d
  rw [perform_drive]
  cases ran : (play c aware tokens ending).perform d with
  | mk result next =>
    rw [ran] at closes
    cases result with
    | ok value => exact closes
    | error e => exact ⟨state_abort closes.1, closes.2⟩

-- Whatever a document consists of and whatever the actions do, its reader ends with the innermost
-- open element or with none: what it tells follows from the document alone, it keeps the names of the
-- open elements at all times, and no document is left in progress.
theorem drive_in_step (c : Catalogue σ) (aware : Bool) (tokens : List Token) (ending : Ending)
    (d : Dispatcher σ) :
    let ran := (drive c aware tokens ending).perform d
    let script := Place.script aware ending {} tokens
    ((ran.1 = .ok () ∧ ran.2.state = .documentEnded ∨
        (∃ e, ran.1 = .error e) ∧ ran.2.state = .aborted) ∧ ran.2.context? = none) ∧
      (∀ ended opened, ran.1 ≠ .error (.dispatch (.internal (.wrongEnd ended opened)))) ∧
      (∀ done, done <+: tokens → ∀ place mid,
        Attempt.perform (do event (startDocument c); done.foldlM (token c aware) {}) d =
          (.ok place, mid) →
        mid.depth = place.opened.length ∧
          ∃ ctx, mid.progress = .live ctx ∧ ctx.frames.map Frame.name = place.opened) ∧
      play c aware tokens ending = (do tell c (.startDocument :: script.1); conclude script.2) ∧
      ∀ before name after, script.1 = before ++ .finish name :: after → ∀ mid,
        (tell c (.startDocument :: before)).perform d = (.ok (), mid) →
        ∃ ctx frame frames,
          mid.progress = .live ctx ∧ ctx.frames = frame :: frames ∧ frame.name = name := by
  dsimp only
  refine ⟨?_, ?_, ?_, play_eq tokens ending, ?_⟩
  · have closes := drive_closes c aware tokens ending d
    cases ran : (drive c aware tokens ending).perform d with
    | mk result final =>
      rw [ran] at closes
      cases result with
      | ok value =>
        exact ⟨.inl ⟨rfl, closes⟩, context?_of_over fun started => by cases closes.symm.trans started⟩
      | error e =>
        exact ⟨.inr ⟨⟨e, rfl⟩, closes.1⟩,
          context?_of_over fun started => by cases closes.1.symm.trans started⟩
  · intro ended opened misnamed
    have closes := drive_closes c aware tokens ending d
    cases ran : (drive c aware tokens ending).perform d with
    | mk result final =>
      rw [ran] at closes misnamed
      cases misnamed
      rcases closes.2 _ rfl with impossible | impossible | ⟨_, impossible⟩ <;> cases impossible
  · intro done _ place mid ran
    obtain ⟨_, started, first, rest⟩ := Attempt.ok_of_bind ran
    have amid := amid_tokens (amid_started first) rest
    obtain ⟨ctx, live, names, _⟩ := id amid
    exact ⟨amid.depth_eq, ctx, live, names⟩
  · intro before name after split mid ran
    rw [tell_cons] at ran
    obtain ⟨_, started, first, rest⟩ := Attempt.ok_of_bind ran
    obtain ⟨around, nests⟩ := Place.nests_before split
    have settles := settles_tell (c := c) nests (amid_started first)
    rw [rest] at settles
    obtain ⟨ctx, live, names, _⟩ := settles
    cases shape : ctx.frames with
    | nil => simp [shape] at names
    | cons frame frames =>
      rw [shape] at names
      exact ⟨ctx, frame, frames, live, shape, (List.cons.inj names).1⟩

-- An end tag too many: the reader finds out by itself, after it has ended all that was open.
theorem drive_in_step_of_stray_end :
    let c : Catalogue Unit := fun _ => { name := "none" }
    let d : Dispatcher Unit := .new (.base {}) {} false ()
    let tokens : List Token :=
      [.start (ascii "a"), .empty (ascii "b"), .close (ascii "a"), .close (ascii "b")]
    (∃ place mid, Attempt.perform (do
          event (startDocument c)
          (tokens.take 2).foldlM (token c true) {}) d = (.ok place, mid) ∧
        place.opened = [⟨"", "a"⟩] ∧ mid.depth = 1) ∧
      ((drive c true tokens .complete).perform d).1 = .error (.dispatch (.internal .strayEndTag)) ∧
      ((drive c true tokens .complete).perform d).2.state = .aborted := by
  intro c d tokens
  obtain ⟨⟨ends, _⟩, _, between, _⟩ := drive_in_step c true tokens .complete d
  have refused : ((drive c true tokens .complete).perform d).1 =
      .error (.dispatch (.internal .strayEndTag)) := by decide +kernel
  refine ⟨?_, refused, ?_⟩
  · let half : ReadM Unit Place := do
      event (startDocument c)
      (tokens.take 2).foldlM (token c true) {}
    have reached : (half.perform d).1.toOption.map Place.opened = some [⟨"", "a"⟩] := by
      decide +kernel
    cases ran : half.perform d with
    | mk result mid =>
      rw [ran] at reached
      cases result with
      | error e => cases reached
      | ok place =>
        have opened : place.opened = [⟨"", "a"⟩] := Option.some.inj reached
        refine ⟨place, mid, rfl, opened, ?_⟩
        rw [(between (tokens.take 2) (List.take_prefix 2 tokens) place mid ran).1, opened]
        rfl
  · rcases ends with ⟨fine, _⟩ | ⟨_, gone⟩
    · cases refused.symm.trans fine
    · exact gone

end Dispatcher
end XmlRules
