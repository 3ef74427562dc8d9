import XmlRules.Proofs.FullScan
import XmlRules.Proofs.SegmentSpellings
namespace XmlRules

namespace Pattern

def textless (p : Pattern) : Pattern := { p with source := "" }

end Pattern

def RuleEntry.textless (e : RuleEntry) : RuleEntry := { e with pattern := e.pattern.textless }

namespace RuleTable

def textless (t : RuleTable) : RuleTable := { t with entries := t.entries.map RuleEntry.textless }

variable {t u : RuleTable}

theorem entriesAt_textless (t : RuleTable) (positions : List Nat) :
    t.textless.entriesAt positions = (t.entriesAt positions).map RuleEntry.textless := by
  simp [entriesAt, textless, List.map_filterMap]

theorem matchesAt_textless (t : RuleTable) (positions : List Nat) (path : String) :
    t.textless.matchesAt positions path = (t.matchesAt positions path).map RuleEntry.textless := by
  rw [matchesAt, entriesAt_textless, List.filter_map]
  rfl

theorem ordinary?_textless (t : RuleTable) (path : String) :
    t.textless.ordinary? path = (t.ordinary? path).map RuleEntry.textless := by
  have exact : (t.absolute[path]?.bind fun i => t.textless.entries[i]?) =
      (t.absolute[path]?.bind fun i => t.entries[i]?).map RuleEntry.textless := by
    cases t.absolute[path]? <;> simp [textless]
  unfold ordinary?
  rw [matchesAt_textless, matchesAt_textless, lastGreatest_map, lastGreatest_map]
  simp only [Option.orElse_eq_orElse, Option.orElse_eq_or, Option.map_or]
  exact congrArg (Option.or · _) exact

theorem universalHandlers_textless (t : RuleTable) (path : String) :
    t.textless.universalHandlers path = t.universalHandlers path := by
  rw [universalHandlers, matchesAt_textless, List.flatMap_map]
  rfl

theorem matching_textless (t : RuleTable) (path : String) : t.textless.matching path = t.matching path := by
  unfold matching
  rw [universalHandlers_textless, ordinary?_textless]
  cases t.ordinary? path <;> rfl

theorem modify_textless (es : List RuleEntry) (position : Nat) (handler : Stamped) :
    (es.modify position (·.add handler)).map RuleEntry.textless =
      (es.map RuleEntry.textless).modify position (·.add handler) := by
  refine List.ext_getElem? fun i => ?_
  rw [List.getElem?_map, List.getElem?_modify, List.getElem?_modify, List.getElem?_map]
  cases es[i]? with
  | none => rfl
  | some e => by_cases same : position = i <;> simp [same, RuleEntry.textless, RuleEntry.add]

theorem addPattern_textless (t : RuleTable) (p : Pattern) (a : ActionId) :
    (t.addPattern p a).textless = t.textless.addPattern p.textless a := by
  have lookup : t.textless.byKey[p.textless.key]? = t.byKey[p.key]? := rfl
  unfold addPattern
  simp only [remember_eq, lookup]
  cases t.byKey[p.key]? with
  | some position =>
    unfold extend textless
    rw [modify_textless]
  | none =>
    unfold append
    rw [file_eq, file_eq]
    unfold textless
    simp only [List.map_append, List.length_map]
    rfl

theorem addFallback_textless (t : RuleTable) (a : ActionId) :
    (t.addFallback a).textless = t.textless.addFallback a := by
  unfold addFallback
  rw [remember_eq, remember_eq]
  rfl

theorem addMandatory_textless (t : RuleTable) (a : ActionId) :
    (t.addMandatory a).textless = t.textless.addMandatory a := by
  unfold addMandatory
  rw [remember_eq, remember_eq]
  rfl

theorem addFallbacks_textless (t : RuleTable) (as : List ActionId) :
    (as.foldl addFallback t).textless = as.foldl addFallback t.textless :=
  (List.foldl_hom textless fun t a => (addFallback_textless t a).symm).symm

theorem addMandatories_textless (t : RuleTable) (as : List ActionId) :
    (as.foldl addMandatory t).textless = as.foldl addMandatory t.textless :=
  (List.foldl_hom textless fun t a => (addMandatory_textless t a).symm).symm

theorem addRule_textless (a : ActionId) (same : t.textless = u.textless) {text other : String}
    (agree : (Pattern.parse t.prefixes text).map Pattern.textless =
      (Pattern.parse u.prefixes other).map Pattern.textless) :
    ((addRule text a).perform t).2.textless = ((addRule other a).perform u).2.textless := by
  rw [perform_addRule, perform_addRule]
  cases read : Pattern.parse t.prefixes text with
  | error fault =>
    cases readToo : Pattern.parse u.prefixes other with
    | error _ => exact same
    | ok q => simp [read, readToo, Except.map] at agree
  | ok p =>
    cases readToo : Pattern.parse u.prefixes other with
    | error _ => simp [read, readToo, Except.map] at agree
    | ok q =>
      simp only [read, readToo, Except.map, Except.ok.injEq] at agree
      rw [addPattern_textless, addPattern_textless, same, agree]

-- What a table knows after a call depends on what it knew before, not on how that was spelled.
theorem answer_textless (call : TableCall) (same : t.textless = u.textless) :
    (t.answer call).textless = (u.answer call).textless := by
  have known : t.textless.prefixes = u.textless.prefixes := congrArg RuleTable.prefixes same
  cases call with
  | place placement => exact congrArg (fun w : RuleTable => { w with placement }) same
  | register entry =>
    unfold answer
    cases entry with
    | declare label uri => exact congrArg (·.declare label uri) same
    | rule text a =>
      have agree : Pattern.parse t.prefixes text = Pattern.parse u.prefixes text :=
        congrArg (Pattern.parse · text) known
      exact addRule_textless a same (congrArg (Except.map Pattern.textless) agree)
    | fallback a =>
      change (t.addFallback a).textless = (u.addFallback a).textless
      rw [addFallback_textless, addFallback_textless, same]
    | fallbacks as =>
      change (as.foldl addFallback t).textless = (as.foldl addFallback u).textless
      rw [addFallbacks_textless, addFallbacks_textless, same]
    | mandatory a =>
      change (t.addMandatory a).textless = (u.addMandatory a).textless
      rw [addMandatory_textless, addMandatory_textless, same]
    | mandatories as =>
      change (as.foldl addMandatory t).textless = (as.foldl addMandatory u).textless
      rw [addMandatories_textless, addMandatories_textless, same]

theorem fold_textless (calls : List TableCall) (same : t.textless = u.textless) :
    (calls.foldl answer t).textless = (calls.foldl answer u).textless := by
  induction calls generalizing t u with
  | nil => exact same
  | cons call calls ih => exact ih (answer_textless call same)

theorem after_textless (early late : List TableCall) {text other : String} {p q : Pattern} (a : ActionId)
    (read : Pattern.parse (after early).prefixes text = .ok p)
    (readToo : Pattern.parse (after early).prefixes other = .ok q) (same : p.textless = q.textless) :
    (after (early ++ .register (.rule text a) :: late)).textless =
      (after (early ++ .register (.rule other a) :: late)).textless := by
  rw [after, after, List.foldl_append, List.foldl_append, List.foldl_cons, List.foldl_cons]
  refine fold_textless late (addRule_textless a rfl ?_)
  rw [← after, read, readToo]
  exact congrArg Except.ok same

theorem matching_of_textless (same : t.textless = u.textless) (path : String) :
    t.matching path = u.matching path := by
  rw [← matching_textless t, same, matching_textless u]

end RuleTable

namespace Pattern
open Text

-- The prefixed and the written spelling of a segment are interchangeable, at every place of every
-- accepted text and of every history of registrations, except that braces with no URI in them are not
-- taken for no namespace: there the written text is a pattern with a key of its own.
theorem spellings_interchangeable {prefixes : Prefixes} {label uri name front back : String}
    (bound : prefixes[label]? = some uri) (plain : ∀ c ∈ label.toList,
      c ∉ [':', '/', '!', '\x7b', '\x7d'] ∧ isBlank c = false) (closing : '\x7d' ∉ uri.toList)
    (word : IsWord name.toList) (opens : Opens front.toList) (closes : Closes back.toList) {p : Pattern}
    (accepted : parse prefixes (front ++ prefixed label name ++ back) = .ok p) :
    let text := front ++ prefixed label name ++ back
    let other := front ++ braced uri name ++ back
    ∃ q, parse prefixes other = .ok q ∧
      q.universal = p.universal ∧ q.anchor = p.anchor ∧ q.form = p.form ∧
      (q.key = p.key ↔ uri ≠ "") ∧
      (uri ≠ "" → (∀ path, q.isMatch path = p.isMatch path) ∧
        ∀ (early late : List TableCall) (a : ActionId), (RuleTable.after early).prefixes = prefixes →
          let t := RuleTable.after (early ++ .register (.rule text a) :: late)
          let u := RuleTable.after (early ++ .register (.rule other a) :: late)
          t.textless = u.textless ∧ ∀ path, t.matching path = u.matching path) := by
  intro text other
  obtain ⟨fixed, acceptedToo, twins⟩ := parse_braced bound plain closing word opens closes accepted
  refine ⟨_, acceptedToo, rfl, rfl, rfl, ?_, fun some => ?_⟩
  · rw [← twins]
    constructor
    · intro same
      have twin := eq_of_key_eq (formed_of_parse acceptedToo) (formed_of_parse accepted) same
      exact congrArg Pattern.fixed twin
    · rintro rfl
      rfl
  · obtain rfl := twins.mpr some
    refine ⟨fun path => rfl, fun early late a known => ?_⟩
    subst known
    have same := RuleTable.after_textless early late a accepted acceptedToo rfl
    exact ⟨same, RuleTable.matching_of_textless same⟩

theorem spellings_interchangeable_in_between :
    let early : List TableCall := [.register (.declare "p" "urn:a b/c:d")]
    let late : List TableCall := [.register (.rule "!x/\x7bu/v\x7dy/p:n/?" ⟨1⟩)]
    let text := "! x/\x7bu/v\x7dy/" ++ prefixed "p" "n" ++ "/?// "
    let other := "! x/\x7bu/v\x7dy/" ++ braced "urn:a b/c:d" "n" ++ "/?// "
    let t := RuleTable.after (early ++ .register (.rule text ⟨0⟩) :: late)
    let u := RuleTable.after (early ++ .register (.rule other ⟨0⟩) :: late)
    (∃ p q, parse (RuleTable.after early).prefixes text = .ok p ∧
      parse (RuleTable.after early).prefixes other = .ok q ∧ q.key = p.key) ∧
      (∀ path, t.matching path = u.matching path) ∧ u.entries.map (·.actions) = [[⟨0⟩, ⟨1⟩]] := by
  intro early late text other t u
  let p : Pattern :=
    ⟨text, true, .relative, .anyChild, "x/\x7bu/v\x7dy/\x7burn:a b/c:d\x7dn"⟩
  have bound : (RuleTable.after early).prefixes["p"]? = some "urn:a b/c:d" := by decide +kernel
  have accepted : parse (RuleTable.after early).prefixes text = .ok p := by decide +kernel
  have plain : ∀ c ∈ "p".toList, c ∉ [':', '/', '!', '\x7b', '\x7d'] ∧ isBlank c = false := by
    intro c member
    obtain rfl : c = 'p' := by simpa using member
    exact ⟨by decide, by decide⟩
  have name : IsName "n".toList := ⟨by decide +kernel, by decide +kernel⟩
  have word : IsWord "n".toList := name.isWord (by decide +kernel)
  have opens : Opens "! x/\x7bu/v\x7dy/".toList :=
    .inr ⟨"x/\x7bu/v\x7dy".toList, by decide +kernel, by decide +kernel⟩
  have closes : Closes "/?// ".toList := by
    intro c first
    have head : (trimEnd "/?// ".toList).head? = some '/' := by decide +kernel
    rw [head] at first
    exact (Option.some.inj first).symm
  obtain ⟨q, acceptedToo, -, -, -, key, alike⟩ :=
    spellings_interchangeable bound plain (by decide +kernel) word opens closes accepted
  obtain ⟨-, shared⟩ := alike (by decide)
  exact ⟨⟨p, q, accepted, acceptedToo, key.mpr (by decide)⟩, (shared early late ⟨0⟩ rfl).2,
    by decide +kernel⟩

theorem spellings_of_no_namespace :
    let calls : List TableCall := [.register (.declare "p" ""), .register (.rule "p:a" ⟨0⟩),
      .register (.rule "\x7b\x7da" ⟨1⟩)]
    let t := RuleTable.after calls
    t.prefixes["p"]? = some "" ∧ (parse t.prefixes "p:a").map key = .ok "*/a" ∧
      (parse t.prefixes "\x7b\x7da").map key = .ok "*/\x7b\x7da" ∧
      t.entries.map (·.actions) = [[⟨0⟩], [⟨1⟩]] ∧ t.matching "/a" = [⟨0⟩] := by
  decide +kernel

end Pattern
end XmlRules
