import XmlRules.Processor
namespace XmlRules

-- A registry that several owners may share. Registries it was built under are kept alive by it.
structure RuleCell where
  registry : Registry
  under : List Nat := []

structure Station where
  cell : Nat
  factory : Factory := {}
  settings : Settings := {}

-- Processors side by side, some over the same rules, and dispatchers that are kept alive.
structure Bench where
  cells : List RuleCell := []
  stations : List (String × Station) := []
  current : String
  held : List Nat := []

namespace Bench

def start (settings : Settings) : Bench where
  cells := [{ registry := (Processor.new settings).rules }]
  stations := [("main", { cell := 0, settings })]
  current := "main"

def station? (b : Bench) : Option Station := b.stations.lookup b.current

def registry (b : Bench) (cell : Nat) : Registry :=
  match b.cells[cell]? with
  | some c => c.registry
  | none => .base {}

def processor (b : Bench) (s : Station) : Processor := ⟨b.registry s.cell, s.factory, s.settings⟩

def direct (b : Bench) : List Nat := b.stations.map (·.2.cell) ++ b.held

def parents (b : Bench) (cell : Nat) : List Nat := (b.cells[cell]?.map RuleCell.under).getD []

def alive (b : Bench) : List Nat := (b.direct ++ b.direct.flatMap b.parents).eraseDups

-- How many owners a cell has: direct ones, and living registries built under it.
def owners (b : Bench) (cell : Nat) : Nat :=
  b.direct.count cell + (b.alive.filter fun c => (b.parents c).head? = some cell).length

def place (b : Bench) (name : String) (s : Station) : Bench :=
  { b with stations := (name, s) :: b.stations.filter (·.1 ≠ name) }

def addCell (b : Bench) (c : RuleCell) : Nat × Bench :=
  (b.cells.length, { b with cells := b.cells ++ [c] })

abbrev BenchM := Attempt ReadError Bench

-- Changes the rules of a station, which must be their only owner.
def amend (s : Station) (change : RuleM Unit) : BenchM Unit := do
  let b ← get
  if b.owners s.cell ≠ 1 then throw .sharedRules
  let (result, registry) := (b.registry s.cell).amend change
  set { b with cells := b.cells.modify s.cell fun c => { c with registry } }
  match result with
  | .ok () => pure ()
  | .error e => throw (.rule e)

def register (s : Station) (entry : Registration) : BenchM Unit := amend s (RuleTable.register entry)

def addRules (s : Station) (pattern : String) (actions : List ActionId) : BenchM Unit :=
  amend s (RuleTable.addRules pattern actions)

def copy (s : Station) (name : String) : BenchM Unit := do
  let b ← get
  match (b.registry s.cell).copy with
  | .error e => throw (.rule e)
  | .ok registry =>
    let (cell, b) := b.addCell { registry }
    set (b.place name { s with cell })

def clone (b : Bench) (s : Station) (name : String) : Bench := b.place name s

def nest (b : Bench) (s : Station) (name mountPoint : String) : Bench :=
  let registry := Registry.within (b.registry s.cell) {} mountPoint
  let (cell, b) := b.addCell { registry, under := s.cell :: b.parents s.cell }
  b.place name { s with cell }

def drop (b : Bench) (name : String) : Bench :=
  { b with stations := b.stations.filter (·.1 ≠ name) }

def hold (b : Bench) (s : Station) : Bench := { b with held := s.cell :: b.held }
def release (b : Bench) : Bench := { b with held := [] }

end Bench
end XmlRules
