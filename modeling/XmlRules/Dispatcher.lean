import XmlRules.Dispatch.Context
namespace XmlRules

inductive DispatchState where
  | idle
  | documentStarted
  | documentEnded
  | aborted
deriving DecidableEq, Repr

-- How far a dispatcher has come. A document that is over leaves its objects and the journal; the
-- root is kept after one that ended well.
inductive Progress (σ : Type) where
  | idle (journal : σ)
  | live (ctx : Context σ)
  | ended (root : Option Ref) (store : Store) (journal : σ)
  | aborted (store : Store) (journal : σ)

namespace Progress
variable {σ : Type}

def state : Progress σ → DispatchState
  | .idle _ => .idle
  | .live _ => .documentStarted
  | .ended _ _ _ => .documentEnded
  | .aborted _ _ => .aborted

def journal : Progress σ → σ
  | .idle journal => journal
  | .live ctx => ctx.work.journal
  | .ended _ _ journal => journal
  | .aborted _ journal => journal

def withJournal (p : Progress σ) (journal : σ) : Progress σ :=
  match p with
  | .idle _ => .idle journal
  | .live ctx => .live { ctx with work := { ctx.work with journal } }
  | .ended root store _ => .ended root store journal
  | .aborted store _ => .aborted store journal

def store : Progress σ → Store
  | .idle _ => {}
  | .live ctx => ctx.work.store
  | .ended _ store _ => store
  | .aborted store _ => store

def context? : Progress σ → Option (Context σ)
  | .live ctx => some ctx
  | _ => none

end Progress

structure Dispatcher (σ : Type) where
  rules : Registry
  factory : Factory := {}
  trims : Bool := false
  -- Prefixes declared for the next element to start.
  pending : List (String × String) := []
  initialRoot : Option Object := none
  progress : Progress σ

abbrev DispatchM (σ : Type) := Attempt DispatchError (Dispatcher σ)

namespace Dispatcher
variable {σ : Type}

def new (rules : Registry) (factory : Factory) (trims : Bool) (journal : σ) : Dispatcher σ :=
  { rules, factory, trims, progress := .idle journal }

def state (d : Dispatcher σ) : DispatchState := d.progress.state
def context? (d : Dispatcher σ) : Option (Context σ) := d.progress.context?
def depth (d : Dispatcher σ) : Nat := (d.context?.map Context.depth).getD 0

def root? (d : Dispatcher σ) : Option Ref :=
  match d.progress with
  | .ended root _ _ => root
  | _ => none

def rootObject? (d : Dispatcher σ) : Option Object := d.root?.bind d.progress.store.get?

def takeRoot (d : Dispatcher σ) : Dispatcher σ :=
  match d.progress with
  | .ended _ store journal => { d with progress := .ended none store journal }
  | _ => d

def setRoot (d : Dispatcher σ) (o : Object) : Dispatcher σ := { d with initialRoot := some o }

def abandon (d : Dispatcher σ) (ctx : Context σ) : Dispatcher σ :=
  { d with progress := .aborted ctx.work.store ctx.work.journal }

def abort (d : Dispatcher σ) : Dispatcher σ :=
  match d.progress with
  | .live ctx => d.abandon ctx
  | _ => d

def withContext (step : ContextM σ Unit) : DispatchM σ Unit := do
  let d ← get
  match d.progress with
  | .live ctx =>
    let (result, ctx) := step.perform ctx
    match result with
    | .ok () => set { d with progress := .live ctx }
    | .error e =>
      set (d.abandon ctx)
      throw e
  | .aborted _ _ => throw (.internal .aborted)
  | _ => throw (.internal .notStarted)

def freshWork (initial : Option Object) (journal : σ) : Workspace σ :=
  match initial with
  | none => { journal }
  | some o => { store := ⟨#[o]⟩, objects := [⟨0⟩], root := some ⟨0⟩, journal }

-- Nothing of an earlier document is carried over but the journal.
def fresh (d : Dispatcher σ) : Context σ where
  site := { rules := d.rules, factory := d.factory }
  work := freshWork d.initialRoot d.progress.journal

def startDocument (catalogue : Catalogue σ) : DispatchM σ Unit := do
  let d ← get
  match d.progress with
  | .live _ => throw (.internal .alreadyStarted)
  | _ =>
    set { d with initialRoot := none, pending := [], progress := .live d.fresh }
    withContext (Context.perform (.lifecycle .startParse) (catalogue.start d.rules.actions))

def startPrefixMapping (d : Dispatcher σ) (label uri : String) : Dispatcher σ :=
  { d with pending := d.pending ++ [(label, uri)] }

-- The pending prefixes are used up even when the element is refused.
def startElement (catalogue : Catalogue σ) (name : QName) (attrs : Attributes) : DispatchM σ Unit := do
  let declared := (← get).pending
  modify fun d => { d with pending := [] }
  withContext (Context.openElement catalogue name attrs declared)

def characters (text : String) : DispatchM σ Unit := withContext (modify (·.addText text))

def endElement (catalogue : Catalogue σ) (name : QName) : DispatchM σ Unit := do
  let trims := (← get).trims
  withContext (Context.closeElement catalogue trims name)

-- The rules that are finished are those of the document, whatever scopes are open.
def finishRules (catalogue : Catalogue σ) : ContextM σ Unit := do
  let ctx ← get
  if 0 < ctx.depth then throw (.internal (.stillOpen ctx.path))
  Context.perform (.lifecycle .finishParse) (catalogue.finish ctx.site.rules.actions)

def endDocument (catalogue : Catalogue σ) : DispatchM σ Unit := do
  withContext (finishRules catalogue)
  modify fun d => match d.progress with
    | .live ctx => { d with progress := .ended ctx.work.root ctx.work.store ctx.work.journal }
    | _ => d

end Dispatcher
end XmlRules
