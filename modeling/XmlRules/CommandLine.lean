import XmlRules.Trace
namespace XmlRules

structure CommandLine where
  file : Option String := none
  settings : Option String := none
  request : TraceRequest := {}
deriving DecidableEq, Repr

namespace CommandLine

inductive Valued where
  | rule
  | universal
  | binding
  | settings
deriving DecidableEq, Repr

inductive Switch where
  | fallback
  | mandatory
deriving DecidableEq, Repr

def longValued? : String → Option Valued
  | "rule" => some .rule
  | "universal" => some .universal
  | "namespace" => some .binding
  | "config" => some .settings
  | _ => none

def longSwitch? : String → Option Switch
  | "fallback" => some .fallback
  | "mandatory" => some .mandatory
  | _ => none

def shortValued? : Char → Option Valued
  | 'r' => some .rule
  | 'u' => some .universal
  | 'n' => some .binding
  | 'c' => some .settings
  | _ => none

inductive Word where
  | escape
  | long (name : String) (value : Option String)
  | short (letter : Char) (rest : List Char)
  | plain
deriving DecidableEq, Repr

def word (argument : String) : Word :=
  match argument.toList with
  | ['-', '-'] => .escape
  | '-' :: '-' :: rest =>
    match Text.cutAt '=' rest with
    | some (name, value) => .long (String.ofList name) (some (String.ofList value))
    | none => .long (String.ofList rest) none
  | '-' :: letter :: rest => .short letter rest
  | _ => .plain

-- Patterns and bindings may be given any number of times, the settings file once and not empty.
def set (c : CommandLine) (option : Valued) (value : String) : Option CommandLine :=
  let request := c.request
  match option with
  | .rule => some { c with request := { request with rules := request.rules ++ [value] } }
  | .universal => some { c with request := { request with universal := request.universal ++ [value] } }
  | .binding => some { c with request := { request with bindings := request.bindings ++ [value] } }
  | .settings => if c.settings.isSome ∨ value = "" then none else some { c with settings := some value }

def turnOn (c : CommandLine) (switch : Switch) : Option CommandLine :=
  match switch with
  | .fallback =>
    if c.request.fallback then none else some { c with request := { c.request with fallback := true } }
  | .mandatory =>
    if c.request.mandatory then none else some { c with request := { c.request with mandatory := true } }

def setFile (c : CommandLine) (file : String) : Option CommandLine :=
  if c.file.isSome ∨ file = "" then none else some { c with file := some file }

def attached? : List Char → Option String
  | [] => none
  | '=' :: rest => some (String.ofList rest)
  | rest => some (String.ofList rest)

-- `none` is wrong usage. Behind `--` everything is a file name.
def parseFrom (c : CommandLine) (escaped : Bool) : List String → Option CommandLine
  | [] => some c
  | argument :: rest =>
    -- An option without a value takes the next argument, unless that looks like an option too.
    let withNext (option : Valued) : Option CommandLine :=
      match rest with
      | [] => none
      | value :: more =>
        if word value = .plain then (c.set option value).bind fun c => parseFrom c false more else none
    if escaped then (c.setFile argument).bind fun c => parseFrom c true rest
    else match word argument with
      | .escape => parseFrom c true rest
      | .plain => (c.setFile argument).bind fun c => parseFrom c false rest
      | .long name value =>
        match longValued? name, longSwitch? name, value with
        | some option, _, some value => (c.set option value).bind fun c => parseFrom c false rest
        | some option, _, none => withNext option
        | none, some switch, none => (c.turnOn switch).bind fun c => parseFrom c false rest
        | none, _, _ => none
      | .short letter tail =>
        match shortValued? letter, attached? tail with
        | some option, some value => (c.set option value).bind fun c => parseFrom c false rest
        | some option, none => withNext option
        | none, _ => none

def parse? (arguments : List String) : Option CommandLine :=
  (parseFrom {} false arguments).filter (·.file.isSome)

structure Report where
  lines : Lines := #[]
  exit : Nat := 0
deriving DecidableEq, Repr

def usage : Report := { exit := 2 }
def failure : Report := { exit := 1 }

def settingsFrom (c : CommandLine) (file : Option Markup.Bytes) : Option Settings :=
  match c.settings with
  | none => some {}
  | some _ => do Settings.parse? (← Markup.decode? (← file))

-- Settings and rules are judged before the document is looked at. What was printed up to a failure
-- stays printed.
def run (c : CommandLine) (settingsFile document : Option Markup.Bytes) : Report :=
  match c.settingsFrom settingsFile with
  | none => failure
  | some settings =>
    match c.request.processor settings, document with
    | .ok processor, some bytes =>
      let outcome := processor.read c.request.catalogue #[] bytes
      { lines := outcome.journal, exit := if outcome.result.isOk then 0 else 1 }
    | _, _ => failure

end CommandLine
end XmlRules
