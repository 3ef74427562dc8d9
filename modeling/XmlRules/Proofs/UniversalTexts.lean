import Mathlib.Data.List.TakeWhile
import XmlRules.CommandLine
import XmlRules.Proofs.FullScan
import XmlRules.Proofs.RefusedRegistrations
import XmlRules.Proofs.SegmentSpellings
namespace XmlRules

namespace Pattern
open Text

theorem trimEnd_behind {c : Char} (solid : isBlank c = false) (front rest : List Char) :
    trimEnd (front ++ c :: rest) = front ++ c :: trimEnd rest := by
  have stop : ∀ d ∈ (front ++ [c]).getLast?, isBlank d = false := by
    intro d last
    obtain rfl : c = d := by simpa using last
    exact solid
  have filled : front ++ [c] ≠ [] := by simp
  have behind := dropTrailing_behind filled stop rest
  simpa [trimEnd] using behind

theorem trimStart_behind {c : Char} (solid : isBlank c = false) {front : List Char}
    (blank : ∀ d ∈ front, isBlank d = true) (rest : List Char) :
    trimStart (front ++ c :: rest) = c :: rest := by
  rw [trimStart, List.dropWhile_append_of_pos blank, List.dropWhile_cons, solid]
  rfl

theorem trimStart_trimEnd (cs : List Char) : trimStart (trimEnd cs) = trim cs := by
  have whole := List.takeWhile_append_dropWhile (p := isBlank) (l := cs)
  have blank : ∀ d ∈ cs.takeWhile isBlank, isBlank d = true := by
    exact List.all_eq_true.mp List.all_takeWhile
  cases shape : cs.dropWhile isBlank with
  | nil =>
    have all : ∀ d ∈ cs, isBlank d = true := List.dropWhile_eq_nil_iff.mp shape
    have gone : trimEnd cs = [] := by
      rw [trimEnd, dropTrailing, List.dropWhile_eq_nil_iff.mpr (by simpa using all),
        List.reverse_nil]
    rw [gone, trim, trimStart, trimStart, shape]
    rfl
  | cons c rest =>
    have solid : isBlank c = false := by
      have first := List.head?_dropWhile_not isBlank cs
      rw [shape] at first
      simpa using first
    rw [shape] at whole
    rw [← whole, trim, trimStart_behind solid blank, trimEnd_behind solid,
      trimStart_behind solid blank]
    exact (trimEnd_behind solid [] rest).symm

variable {prefixes : Prefixes} {text : String} {p : Pattern}

theorem parseFixed_passes (source other : String) (universal marked : Bool) (rest : List Char) :
    parseFixed other prefixes marked rest = (parseFixed source prefixes universal rest).map
      fun p => { p with source := other, universal := marked } := by
  unfold parseFixed
  generalize readAnchor rest = anchored
  obtain ⟨anchor, body⟩ := anchored
  cases body : dropTrailing (· == '/') body with
  | nil => simp only [body]; rfl
  | cons c cs =>
    cases shape : readForm (Path.segments (c :: cs)) with
    | mk form segments =>
      cases segments with
      | nil => simp only [body, shape]; rfl
      | cons segment segments =>
        cases expanded : (segment :: segments).mapM (expandSegment prefixes) with
        | error fault => simp only [body, shape, expanded]; rfl
        | ok expanded => simp only [body, shape, expanded]; rfl

-- The mark is the only difference that a mark makes.
theorem parse_marked (text : String) (unmarked : (trim text.toList).head? ≠ some '!') :
    parse prefixes ("!" ++ text) = (parse prefixes text).map
      fun p => { p with source := "!" ++ text, universal := true } := by
  have read : readMarker (trim ("!" ++ text).toList) = (true, trim text.toList) := by
    have front : trim ("!" ++ text).toList = '!' :: trimEnd text.toList := by
      rw [String.toList_append]
      exact trimEnd_behind (by decide) [] text.toList
    rw [front, ← trimStart_trimEnd]
    rfl
  have plain : readMarker (trim text.toList) = (false, trim text.toList) := by
    unfold readMarker
    split
    · rename_i rest shape
      rw [shape] at unmarked
      exact absurd rfl unmarked
    · rfl
  unfold parse
  rw [read, plain]
  dsimp only
  split
  · rfl
  · split
    · rfl
    · exact parseFixed_passes text _ false true _

theorem marker_of_parse (accepted : parse prefixes text = .ok p) :
    p.universal = true ↔ (trim text.toList).head? = some '!' := by
  obtain ⟨-, rest, marked, -⟩ := layout_of_parse accepted
  cases universal : p.universal with
  | true =>
    rw [universal] at marked
    obtain ⟨gap, -, shape⟩ := marked
    simp [shape]
  | false =>
    rw [universal] at marked
    obtain ⟨shape, other⟩ := marked
    simp [shape, other]

end Pattern

def Registration.known (prefixes : Prefixes) : Registration → Prefixes
  | .declare label uri => prefixes.insert label uri
  | _ => prefixes

-- Only a rule can be refused, for its text.
def Registration.Admitted (prefixes : Prefixes) : Registration → Prop
  | .rule text _ => ∃ p, Pattern.parse prefixes text = .ok p
  | _ => True

def Registration.Steady (entries : List Registration) : Prop :=
  ∀ label uri, Registration.declare label uri ∉ entries

theorem Registration.Steady.known {entries : List Registration} (steady : Steady entries)
    (prefixes : Prefixes) : entries.foldl Registration.known prefixes = prefixes := by
  induction entries generalizing prefixes with
  | nil => rfl
  | cons entry entries ih =>
    have same : entry.known prefixes = prefixes := by
      cases entry with
      | declare label uri => exact absurd List.mem_cons_self (steady label uri)
      | rule | fallback | fallbacks | mandatory | mandatories => rfl
    rw [List.foldl_cons, same]
    exact ih (fun label uri member => steady label uri (List.mem_cons_of_mem _ member)) prefixes

namespace Ledger
variable {l : Ledger} {entries : List Registration}

-- Each registration is judged by the prefixes that are known when its turn comes.
def Admits (l : Ledger) : List Registration → Prop
  | [] => True
  | entry :: entries => entry.Admitted l.prefixes ∧ (l.enter entry).Admits entries

theorem admits_append {more : List Registration} :
    l.Admits (entries ++ more) ↔ l.Admits entries ∧ (entries.foldl enter l).Admits more := by
  induction entries generalizing l with
  | nil => simp [Admits]
  | cons entry entries ih => simp [Admits, ih, and_assoc]

theorem prefixes_enter (l : Ledger) (entry : Registration) :
    (l.enter entry).prefixes = entry.known l.prefixes := by
  cases entry with
  | rule text a =>
    rw [enter]
    cases Pattern.parse l.prefixes text <;> rfl
  | declare | fallback | fallbacks | mandatory | mandatories => rfl

theorem prefixes_entered (l : Ledger) (entries : List Registration) :
    (entries.foldl enter l).prefixes = entries.foldl Registration.known l.prefixes := by
  induction entries generalizing l with
  | nil => rfl
  | cons entry entries ih => rw [List.foldl_cons, List.foldl_cons, ih, prefixes_enter]

theorem admits_of_steady (steady : Registration.Steady entries)
    (read : ∀ text a, .rule text a ∈ entries → ∃ p, Pattern.parse l.prefixes text = .ok p) :
    l.Admits entries := by
  induction entries generalizing l with
  | nil => trivial
  | cons entry entries ih =>
    have later : Registration.Steady entries := fun label uri member =>
      steady label uri (List.mem_cons_of_mem _ member)
    have same : (l.enter entry).prefixes = l.prefixes := by
      have single : Registration.Steady [entry] := fun label uri member =>
        steady label uri (List.mem_singleton.mp member ▸ List.mem_cons_self)
      rw [prefixes_enter]
      exact single.known l.prefixes
    refine ⟨?_, ih later fun text a member => ?_⟩
    · cases entry with
      | rule text a => exact read text a List.mem_cons_self
      | declare | fallback | fallbacks | mandatory | mandatories => trivial
    · rw [same]
      exact read text a (List.mem_cons_of_mem _ member)

theorem rules_enter {rule : Pattern × ActionId} (member : rule ∈ l.rules) (entry : Registration) :
    rule ∈ (l.enter entry).rules := by
  cases entry with
  | rule text a =>
    rw [enter]
    cases Pattern.parse l.prefixes text with
    | error fault => exact member
    | ok p => exact List.mem_append_left _ member
  | declare | fallback | fallbacks | mandatory | mandatories => exact member

theorem rules_entered {rule : Pattern × ActionId} (member : rule ∈ l.rules)
    (entries : List Registration) : rule ∈ (entries.foldl enter l).rules := by
  induction entries generalizing l with
  | nil => exact member
  | cons entry entries ih => exact ih (rules_enter member entry)

theorem rule_entered {front back : List Registration} {text : String} {a : ActionId} {p : Pattern}
    (read : Pattern.parse (front.foldl enter l).prefixes text = .ok p) :
    (p, a) ∈ ((front ++ .rule text a :: back).foldl enter l).rules := by
  rw [List.foldl_append, List.foldl_cons]
  apply rules_entered
  rw [enter, read]
  exact List.mem_append_right _ (List.mem_singleton_self _)

theorem formed_entered (formed : ∀ p ∈ l.patterns, p.Formed) (entries : List Registration) :
    ∀ p ∈ (entries.foldl enter l).patterns, p.Formed := by
  induction entries generalizing l with
  | nil => exact formed
  | cons entry entries ih => exact ih (formed_note formed (.register entry))

end Ledger

namespace RuleTable
variable {t : RuleTable} {l : Ledger}

theorem Holds.admitted (holds : t.Holds l) {entry : Registration}
    (admitted : entry.Admitted l.prefixes) :
    ∃ u, (RuleTable.register entry).perform t = (.ok (), u) ∧ u.Holds (l.enter entry) := by
  have after := holds.register entry
  cases entry with
  | rule text a =>
    obtain ⟨p, read⟩ := admitted
    rw [← holds.prefixes] at read
    have done : (RuleTable.register (.rule text a)).perform t = (.ok (), t.addPattern p a) :=
      addRule_done read a
    rw [done] at after
    exact ⟨_, done, after⟩
  | declare | fallback | fallbacks | mandatory | mandatories => exact ⟨_, rfl, after⟩

theorem Holds.registerAll (holds : t.Holds l) {entries : List Registration}
    (admits : l.Admits entries) : ∃ u, (RuleTable.registerAll entries).perform t = (.ok (), u) ∧
      u.Holds (entries.foldl Ledger.enter l) := by
  induction entries generalizing t l with
  | nil => exact ⟨t, rfl, holds⟩
  | cons entry entries ih =>
    obtain ⟨u, done, holding⟩ := holds.admitted admits.1
    obtain ⟨v, rest, last⟩ := ih holding admits.2
    refine ⟨v, ?_, last⟩
    change (RuleTable.register entry >>= fun _ => RuleTable.registerAll entries).perform t = _
    rw [Attempt.perform_bind_ok done]
    exact rest

theorem Holds.entry_of_rule (holds : t.Holds l) (formed : ∀ p ∈ l.patterns, p.Formed) {p : Pattern}
    {a : ActionId} (member : (p, a) ∈ l.rules) :
    ∃ e ∈ t.entries, a ∈ e.actions ∧ e.pattern = { p with source := e.pattern.source } := by
  have inside : p ∈ l.patterns := List.mem_map.mpr ⟨_, member, rfl⟩
  obtain ⟨first, listed, same⟩ := Pattern.exists_first inside
  refine ⟨l.entryOf first, ?_, ?_, ?_⟩
  · rw [holds.entries]
    exact List.mem_map.mpr ⟨first, listed, rfl⟩
  · rw [Ledger.actions_entryOf, Ledger.actionsUnder, same]
    exact List.mem_map.mpr ⟨(p, a), List.mem_filter.mpr ⟨member, by simp⟩, rfl⟩
  · exact Pattern.eq_of_key_eq (formed first (Pattern.mem_of_mem_firsts listed)) (formed p inside) same

end RuleTable

namespace TraceRequest
open Pattern Text

theorem parse_universalText {prefixes : Prefixes} {text : String} {p : Pattern}
    (accepted : parse prefixes text = .ok p)
    (bare : p.universal = true → text.toList.head? = some '!') :
    parse prefixes (universalText text) =
      .ok { p with source := universalText text, universal := true } := by
  by_cases marked : text.toList.head? = some '!'
  · have whole : universalText text = text := if_pos marked
    have universal : p.universal = true := by
      obtain ⟨rest, shape⟩ := List.head?_eq_some_iff.mp marked
      have trimmed : trim text.toList = '!' :: trimEnd rest := by
        rw [shape]
        exact trimEnd_behind (by decide) [] rest
      rw [marker_of_parse accepted, trimmed]
      rfl
    have source : p.source = text := (layout_of_parse accepted).1
    rw [whole, accepted, ← universal, ← source]
  · have whole : universalText text = "!" ++ text := if_neg marked
    have unmarked : (trim text.toList).head? ≠ some '!' := fun first =>
      marked (bare ((marker_of_parse accepted).mpr first))
    rw [whole, parse_marked text unmarked, accepted]
    rfl

def prefixes (r : TraceRequest) : Prefixes := (r.bindings.map declaration).foldl Registration.known {}

def patterns (r : TraceRequest) : List String := r.rules ++ r.universal.map universalText

variable {r : TraceRequest}

theorem declaration_shape (binding : String) : ∃ label uri, declaration binding = .declare label uri := by
  unfold declaration
  cases Text.cutAt '=' binding.toList with
  | none => exact ⟨_, _, rfl⟩
  | some parts => exact ⟨_, _, rfl⟩

theorem registrations_eq (r : TraceRequest) : ∃ more,
    r.registrations = r.bindings.map declaration ++ more ∧ Registration.Steady more ∧
      ∀ text a, .rule text a ∈ more ↔ r.patterns[a.index]? = some text := by
  refine ⟨r.patterns.mapIdx (fun i pattern => .rule pattern ⟨i⟩)
    ++ ((if r.fallback then [.fallback ⟨r.patterns.length⟩] else [])
    ++ (if r.mandatory then [.mandatory ⟨r.patterns.length + if r.fallback then 1 else 0⟩] else [])),
    ?_, ?_, ?_⟩
  · simp only [registrations, patterns, List.append_assoc]
  · intro label uri member
    rcases List.mem_append.mp member with rule | other
    · simp at rule
    · split at other <;> split at other <;> simp at other
  · intro text a
    have none : .rule text a ∉ (if r.fallback then [Registration.fallback ⟨r.patterns.length⟩] else [])
        ++ (if r.mandatory then
          [.mandatory ⟨r.patterns.length + if r.fallback then 1 else 0⟩] else []) := by
      split <;> split <;> simp
    rw [List.mem_append, or_iff_left none, List.mem_mapIdx]
    constructor
    · rintro ⟨i, inside, same⟩
      cases same
      exact List.getElem?_eq_getElem inside
    · intro listed
      obtain ⟨inside, same⟩ := List.getElem?_eq_some_iff.mp listed
      exact ⟨a.index, inside, by rw [same]⟩

theorem admits_declarations (bindings : List String) (l : Ledger) :
    l.Admits (bindings.map declaration) := by
  induction bindings generalizing l with
  | nil => trivial
  | cons binding bindings ih =>
    obtain ⟨label, uri, shape⟩ := declaration_shape binding
    refine ⟨?_, ih _⟩
    rw [shape]
    trivial

theorem admits_registrations (placement : Placement)
    (readable : ∀ text ∈ r.patterns, ∃ p, parse r.prefixes text = .ok p) :
    Ledger.Admits { placement } r.registrations := by
  obtain ⟨more, whole, steady, rules⟩ := r.registrations_eq
  rw [whole, Ledger.admits_append]
  refine ⟨admits_declarations r.bindings _, Ledger.admits_of_steady steady ?_⟩
  intro text a member
  rw [Ledger.prefixes_entered]
  exact readable text (List.mem_of_getElem? ((rules text a).mp member))

-- Each pattern goes on record as it is read in the namespaces of the request.
theorem rule_on_record {text : String} {p : Pattern} {i : Nat} (placement : Placement)
    (listed : r.patterns[i]? = some text) (read : parse r.prefixes text = .ok p) :
    (p, ⟨i⟩) ∈ (r.registrations.foldl Ledger.enter { placement }).rules := by
  obtain ⟨more, whole, steady, rules⟩ := r.registrations_eq
  obtain ⟨front, back, shape⟩ := List.append_of_mem ((rules text ⟨i⟩).mpr listed)
  rw [whole, shape, ← List.append_assoc]
  apply Ledger.rule_entered
  have earlier : Registration.Steady front := fun label uri member =>
    steady label uri (shape ▸ List.mem_append_left _ member)
  rw [List.foldl_append, Ledger.prefixes_entered, Ledger.prefixes_entered, earlier.known]
  exact read

-- A text asked for as a universal rule is registered as the universal form of the pattern that it
-- stands for by itself, unless blanks are in front of a mark of its own.
theorem universal_registered {text : String} {p : Pattern} (settings : Settings)
    (asked : text ∈ r.universal) (accepted : parse r.prefixes text = .ok p)
    (bare : p.universal = true → text.toList.head? = some '!')
    (others : ∀ other ∈ r.patterns, other ≠ universalText text →
      ∃ q, parse r.prefixes other = .ok q) :
    ∃ processor, r.processor settings = .ok processor ∧ ∃ e ∈ processor.rules.table.entries,
      e.pattern.universal = true ∧ e.pattern.anchor = p.anchor ∧ e.pattern.form = p.form ∧
        e.pattern.fixed = p.fixed ∧
        ∃ a ∈ e.actions, r.labels[a.index]? = some (universalText text) := by
  have read := parse_universalText accepted bare
  have readable : ∀ other ∈ r.patterns, ∃ q, parse r.prefixes other = .ok q := by
    intro other member
    by_cases same : other = universalText text
    · exact ⟨_, same ▸ read⟩
    · exact others other member same
  obtain ⟨t, done, holds⟩ := (RuleTable.holds_empty settings.placement).registerAll
    (admits_registrations settings.placement readable)
  obtain ⟨i, listed⟩ : ∃ i, r.patterns[i]? = some (universalText text) :=
    List.getElem?_of_mem (List.mem_append_right _ (List.mem_map_of_mem asked))
  have noted := rule_on_record settings.placement listed read
  have formed := Ledger.formed_entered (l := { placement := settings.placement })
    (by simp [Ledger.patterns]) r.registrations
  obtain ⟨e, entry, called, same⟩ := holds.entry_of_rule formed noted
  refine ⟨{ rules := .base t, settings }, ?_, e, entry, ?_, ?_, ?_, ?_, ⟨i⟩, called, ?_⟩
  · simp [processor, RuleTable.build, done, Except.map]
  · rw [same]
  · rw [same]
  · rw [same]
  · rw [same]
  · have label : r.labels[i]? = r.patterns[i]? := by
      rw [labels, List.append_assoc]
      exact List.getElem?_append_left (List.getElem?_eq_some_iff.mp listed).1
    exact label.trans listed

theorem universal_registered_spaced :
    let r : TraceRequest :=
      { rules := ["b"], universal := [" \u00a0p:a/? ", "! /c "], bindings := ["p=urn:x"] }
    ∃ processor, r.processor {} = .ok processor ∧ ∃ e ∈ processor.rules.table.entries,
      e.pattern.universal = true ∧ e.pattern.anchor = .relative ∧ e.pattern.form = .anyChild ∧
        e.pattern.fixed = "\x7burn:x\x7da" ∧
        ∃ a ∈ e.actions, r.labels[a.index]? = some "! \u00a0p:a/? " := by
  intro r
  let p : Pattern := ⟨" \u00a0p:a/? ", false, .relative, .anyChild, "\x7burn:x\x7da"⟩
  have accepted : parse r.prefixes " \u00a0p:a/? " = .ok p := by decide +kernel
  have others : ∀ other ∈ r.patterns, (parse r.prefixes other).isOk := by decide +kernel
  refine universal_registered {} (by decide) accepted (by decide) fun other member _ => ?_
  cases read : parse r.prefixes other with
  | ok q => exact ⟨q, rfl⟩
  | error fault =>
    have done := others other member
    rw [read] at done
    cases done

-- The mark behind a blank is taken for the first letter of a name.
theorem universal_registered_behind_blank :
    let r : TraceRequest := { universal := [" !a"] }
    let parts (p : Pattern) := (p.universal, p.anchor, p.form, p.fixed)
    (CommandLine.parse? ["a.xml", "--universal", " !a"]).map CommandLine.request = some r ∧
      (parse r.prefixes " !a").map parts = .ok (true, .relative, .exact, "a") ∧
      (r.processor {}).map (fun processor =>
        processor.rules.table.entries.map fun e => parts e.pattern) =
          .ok [(true, .relative, .exact, "!a")] := by
  decide +kernel

end TraceRequest
end XmlRules
