import XmlRules.Processor
import XmlRules.Settings.Reader
import XmlRules.Text.Quoted
namespace XmlRules
open Step

abbrev Lines := Array String

namespace Trace

def line (label event : String) (trail : Trail) : String :=
  String.join (List.replicate (trail.depth - 1) "  ") ++ "[" ++ label ++ "] " ++ event ++ " " ++
    trail.path

def tell (label event : String) : Step Lines Unit := do
  let trail := (← read).trail
  note (·.push (line label event trail))

def describe (attrs : Attributes) : String :=
  " ".intercalate (attrs.items.map fun a => a.written ++ "=" ++ Text.quoted a.value)

def behaviour (label : String) : Behaviour Lines where
  name := label
  onBegin _ attrs := tell label ("begin " ++ describe attrs)
  onBody _ text := do
    let shown := Text.trimmed text
    if shown ≠ "" then tell label ("body " ++ Text.quoted shown)
  onEnd _ := tell label "end"

end Trace

structure TraceRequest where
  rules : List String := []
  universal : List String := []
  fallback : Bool := false
  mandatory : Bool := false
  bindings : List String := []
deriving DecidableEq, Repr

namespace TraceRequest

-- A binding without an equals sign is the URI of the empty prefix.
def declaration (binding : String) : Registration :=
  match Text.cutAt '=' binding.toList with
  | some (label, uri) => .declare (String.ofList label) (String.ofList uri)
  | none => .declare "" binding

def universalText (pattern : String) : String :=
  if pattern.toList.head? = some '!' then pattern else "!" ++ pattern

def labels (r : TraceRequest) : List String :=
  r.rules ++ r.universal.map universalText ++ (if r.fallback then ["fallback"] else [])
    ++ (if r.mandatory then ["mandatory"] else [])

def registrations (r : TraceRequest) : List Registration :=
  let patterns := r.rules ++ r.universal.map universalText
  let next := patterns.length
  r.bindings.map declaration
    ++ patterns.mapIdx (fun i pattern => .rule pattern ⟨i⟩)
    ++ (if r.fallback then [.fallback ⟨next⟩] else [])
    ++ (if r.mandatory then [.mandatory ⟨next + if r.fallback then 1 else 0⟩] else [])

def catalogue (r : TraceRequest) : Catalogue Lines := fun id =>
  Trace.behaviour (r.labels[id.index]?.getD "")

def processor (r : TraceRequest) (settings : Settings) : Except RuleError Processor :=
  (RuleTable.build settings.placement r.registrations).map fun table =>
    { rules := .base table, settings }

end TraceRequest
end XmlRules
