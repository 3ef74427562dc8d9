import XmlRules.Attempt
import XmlRules.Pattern.Parser
namespace XmlRules

-- An action is known by its identity alone; what it does stands in a catalogue.
structure ActionId where
  index : Nat
deriving DecidableEq, Repr

-- Where the mandatory actions stand: behind the universal ones, or between them and the rest.
inductive Placement where
  | afterUniversal
  | beforeUniversal
deriving DecidableEq, Repr

structure Stamped where
  stamp : Nat
  action : ActionId
deriving DecidableEq, Repr

-- All registrations under one pattern key: the actions, and beside them the numbers of their
-- registrations. The pattern is the one that was registered first.
structure RuleEntry where
  pattern : Pattern
  actions : List ActionId
  order : List Nat
deriving DecidableEq, Repr

def RuleEntry.add (e : RuleEntry) (handler : Stamped) : RuleEntry :=
  { e with actions := e.actions ++ [handler.action], order := e.order ++ [handler.stamp] }

def RuleEntry.handlers (e : RuleEntry) : List Stamped := e.order.zipWith Stamped.mk e.actions

theorem RuleEntry.action_mem_of_handlers {e : RuleEntry} {handler : Stamped}
    (member : handler ∈ e.handlers) : handler.action ∈ e.actions := by
  rw [handlers, ← List.map_uncurry_zip_eq_zipWith] at member
  obtain ⟨pair, paired, rfl⟩ := List.mem_map.mp member
  exact (List.of_mem_zip paired).2

-- Entries are referred to by their position. `absolute` holds the exact absolute patterns by their
-- fixed part and `relative` the exact relative ones by their last segment, so that a lookup looks
-- only at patterns that can name the end of the path.
structure RuleTable where
  prefixes : Prefixes := {}
  entries : List RuleEntry := []
  byKey : Std.TreeMap String Nat := {}
  absolute : Std.TreeMap String Nat := {}
  relative : Std.TreeMap String (List Nat) := {}
  wildcards : List Nat := []
  universal : List Nat := []
  actions : List ActionId := []
  fallback : List ActionId := []
  mandatory : List ActionId := []
  placement : Placement := .afterUniversal
  registrations : Nat := 0

namespace RuleTable

def patterns (t : RuleTable) : List Pattern := t.entries.map RuleEntry.pattern

def remember (t : RuleTable) (a : ActionId) : RuleTable :=
  if a ∈ t.actions then t else { t with actions := t.actions ++ [a] }

def file (t : RuleTable) (position : Nat) (p : Pattern) : RuleTable :=
  if p.universal then { t with universal := t.universal ++ [position] }
  else match p.form, p.anchor with
    | .exact, .absolute => { t with absolute := t.absolute.insert p.fixed position }
    | .exact, .relative =>
      let last := p.lastFixedSegment
      { t with relative := t.relative.insert last (t.relative.getD last [] ++ [position]) }
    | _, _ => { t with wildcards := t.wildcards ++ [position] }

def append (t : RuleTable) (p : Pattern) (handler : Stamped) : RuleTable :=
  let position := t.entries.length
  RuleTable.file
    { t with
      entries := t.entries ++ [⟨p, [handler.action], [handler.stamp]⟩]
      byKey := t.byKey.insert p.key position }
    position p

def extend (t : RuleTable) (position : Nat) (handler : Stamped) : RuleTable :=
  { t with entries := t.entries.modify position (·.add handler) }

def addPattern (t : RuleTable) (p : Pattern) (a : ActionId) : RuleTable :=
  let handler : Stamped := ⟨t.registrations, a⟩
  let t := { t.remember a with registrations := t.registrations + 1 }
  match t.byKey[p.key]? with
  | some position => t.extend position handler
  | none => t.append p handler

def declare (t : RuleTable) (label uri : String) : RuleTable :=
  { t with prefixes := t.prefixes.insert label uri }

def addFallback (t : RuleTable) (a : ActionId) : RuleTable :=
  { t.remember a with fallback := t.fallback ++ [a] }

def addMandatory (t : RuleTable) (a : ActionId) : RuleTable :=
  { t.remember a with mandatory := t.mandatory ++ [a] }

end RuleTable

inductive Registration where
  | declare (label uri : String)
  | rule (pattern : String) (action : ActionId)
  | fallback (action : ActionId)
  | fallbacks (actions : List ActionId)
  | mandatory (action : ActionId)
  | mandatories (actions : List ActionId)
deriving DecidableEq, Repr

abbrev RuleM := Attempt RuleError RuleTable

namespace RuleTable

-- Only a pattern can be refused, and it is judged before anything is changed.
def addRule (text : String) (a : ActionId) : RuleM Unit := do
  match Pattern.parse (← get).prefixes text with
  | .error fault => throw (.pattern text fault)
  | .ok p => modify (·.addPattern p a)

def register : Registration → RuleM Unit
  | .declare label uri => modify (·.declare label uri)
  | .rule pattern a => addRule pattern a
  | .fallback a => modify (·.addFallback a)
  | .fallbacks as => modify fun t => as.foldl addFallback t
  | .mandatory a => modify (·.addMandatory a)
  | .mandatories as => modify fun t => as.foldl addMandatory t

def registerAll (entries : List Registration) : RuleM Unit := entries.forM register

def addRules (pattern : String) (actions : List ActionId) : RuleM Unit :=
  actions.forM (addRule pattern)

def build (placement : Placement) (entries : List Registration) : Except RuleError RuleTable :=
  let (result, table) := (registerAll entries).perform { placement }
  result.map fun _ => table

end RuleTable
end XmlRules
