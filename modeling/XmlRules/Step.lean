import XmlRules.Workspace
namespace XmlRules

abbrev Step (σ : Type) := ReaderT Site (Attempt ActionError (Workspace σ))

def Step.perform {σ α : Type} (step : Step σ α) (site : Site) (ws : Workspace σ) :
    Except ActionError α × Workspace σ :=
  (step site).perform ws

namespace Step
variable {σ : Type}

def path : Step σ String := return (← read).trail.path
def depth : Step σ Nat := return (← read).trail.depth

-- Objects

def create (o : Object) : Step σ Ref := do
  let ws ← get
  let (ref, store) := ws.store.add o
  set { ws with store }
  return ref

-- The first object on an empty stack becomes the root, unless there is one already.
def push (ref : Ref) : Step σ Unit := do
  let ws ← get
  let root := if ws.objects.isEmpty && ws.root.isNone then some ref else ws.root
  set { ws with root, objects := ref :: ws.objects }

def pop : Step σ Ref := do
  let ws ← get
  match ws.objects with
  | [] => throw (.emptyStack "objects")
  | ref :: objects =>
    set { ws with objects }
    return ref

-- The object `n` places below the top. The place is counted from the bottom in machine words, so
-- `n + 1` starts again at zero behind the largest word.
def peekAt (n : UInt64) : Step σ Ref := do
  let objects := (← get).objects
  let below := (n + 1).toNat
  if objects.length < below then throw (.emptyStack "objects")
  match objects.reverse[objects.length - below]? with
  | some ref => return ref
  | none => throw (.outOfRange (objects.length - below) objects.length)

def peek : Step σ Ref := peekAt 0

def size : Step σ Nat := return (← get).objects.length

def look (ref : Ref) : Step σ Object := do
  match (← get).store.get? ref with
  | some o => return o
  | none => throw (.outOfRange ref.index (← get).store.objects.size)

def look? (ref : Option Ref) : Step σ (Option Object) := ref.mapM look

def expect (type : ObjectType) (ref : Ref) : Step σ Object := do
  let o ← look ref
  if o.type = type then return o else throw (.typeMismatch type)

def put (ref : Ref) (o : Object) : Step σ Unit :=
  modify fun ws => { ws with store := ws.store.put ref o }

def root : Step σ (Option Ref) := return (← get).root
def setRoot (ref : Ref) : Step σ Unit := modify fun ws => { ws with root := some ref }

-- Named stacks

def namedStack (stack : String) : Step σ (List Ref) := return (← get).named.getD stack []

def pushNamed (stack : String) (ref : Ref) : Step σ Unit := do
  let refs ← namedStack stack
  modify fun ws => { ws with named := ws.named.insert stack (ref :: refs) }

def peekNamed (stack : String) : Step σ Ref := do
  match ← namedStack stack with
  | [] => throw (.emptyStack stack)
  | ref :: _ => return ref

def popNamed (stack : String) : Step σ Ref := do
  match ← namedStack stack with
  | [] => throw (.emptyStack stack)
  | ref :: refs =>
    modify fun ws => { ws with named := ws.named.insert stack refs }
    return ref

-- Parameters of pending calls

def pushParams (frame : ParamFrame) : Step σ Unit :=
  modify fun ws => { ws with params := frame :: ws.params }

def peekParams : Step σ ParamFrame := do
  match (← get).params with
  | [] => throw (.emptyStack "params")
  | frame :: _ => return frame

def popParams : Step σ ParamFrame := do
  let ws ← get
  match ws.params with
  | [] => throw (.emptyStack "params")
  | frame :: params =>
    set { ws with params }
    return frame

def setParam (index : Nat) (value : Option String) : Step σ Bool := do
  let ws ← get
  match ws.params with
  | [] => throw (.emptyStack "params")
  | frame :: params =>
    if index < frame.length then
      set { ws with params := frame.set index value :: params }
      return true
    else return false

-- Rule scopes

def activeRules : Step σ Registry := do
  match (← get).scopes with
  | [] => return (← read).rules
  | scope :: _ => return scope.rules

def openScope (rules : Registry) (mountActions : List ActionId) (owner : Option Owner) :
    Step σ Unit := do
  let mountDepth ← depth
  modify fun ws => { ws with scopes := ⟨rules, mountDepth, mountActions, owner⟩ :: ws.scopes }

def ownedHere (owner : Owner) (depth : Nat) (scope : Scope) : Bool :=
  scope.owner = some owner && scope.mountDepth = depth

def ownedScope? (owner : Owner) : Step σ (Option Scope) := do
  let here ← depth
  return (← get).scopes.find? (ownedHere owner here)

-- Takes out the innermost scope of this owner, wherever it stands among the scopes of the element.
def closeOwnedScope (owner : Owner) : Step σ Scope := do
  let here ← depth
  let ws ← get
  match ws.scopes.find? (ownedHere owner here) with
  | none => throw (.noRuleScope (← path))
  | some scope =>
    set { ws with scopes := ws.scopes.eraseP (ownedHere owner here) }
    return scope

def scope? : Step σ (Option Scope) := return (← get).scopes.head?
def scopeCount : Step σ Nat := return (← get).scopes.length

def closeScope : Step σ Scope := do
  let ws ← get
  match ws.scopes with
  | [] => throw (.noRuleScope (← path))
  | scope :: scopes =>
    set { ws with scopes }
    return scope

def note (f : σ → σ) : Step σ Unit := modify fun ws => { ws with journal := f ws.journal }

end Step
end XmlRules
