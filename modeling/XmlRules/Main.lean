import XmlRules.CommandLine
open XmlRules

def readFile? (path : String) : IO (Option Markup.Bytes) :=
  try return some (← IO.FS.readBinFile path).toList catch _ => return none

def main (arguments : List String) : IO UInt32 := do
  match CommandLine.parse? arguments with
  | none =>
    IO.eprintln ("usage: FILE [-r PATTERN] [-u PATTERN] [--fallback] [--mandatory] "
      ++ "[-n PREFIX=URI] [-c FILE]")
    return CommandLine.usage.exit.toUInt32
  | some c =>
    let settings ← match c.settings with
      | none => pure none
      | some path => readFile? path
    let document ← readFile? (c.file.getD "")
    let report := c.run settings document
    for line in report.lines do IO.println line
    return report.exit.toUInt32
