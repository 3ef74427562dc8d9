import XmlRules.Registry
import XmlRules.Proofs.UniqueWinner
namespace XmlRules

namespace Ledger

def wantedBy (l : Ledger) (wanted : Pattern → Bool) : List RuleEntry :=
  ((Pattern.firsts l.patterns).filter wanted).map l.entryOf

variable {l : Ledger} {p : Pattern} {a : ActionId}

theorem forall_patterns_addRule (holds : Pattern → Prop) :
    (∀ q ∈ (l.addRule p a).patterns, holds q) ↔ (∀ q ∈ l.patterns, holds q) ∧ holds p := by
  simp [patterns_addRule, or_imp, forall_and]

-- A search that does not want the new pattern finds what it found before: neither the entry of a new
-- key nor a further handler under an old one shows.
theorem wantedBy_addRule (formed : ∀ q ∈ (l.addRule p a).patterns, q.Formed) {wanted : Pattern → Bool}
    (blind : ∀ (q : Pattern) (source : String), wanted { q with source } = wanted q)
    (aside : wanted p = false) : (l.addRule p a).wantedBy wanted = l.wantedBy wanted := by
  obtain ⟨known, added⟩ := (forall_patterns_addRule (· ∈ (l.addRule p a).patterns)).mp fun _ => id
  have keeps : ∀ q ∈ (Pattern.firsts l.patterns).filter wanted,
      (l.addRule p a).entryOf q = l.entryOf q := by
    intro q member
    obtain ⟨first, hit⟩ := List.mem_filter.mp member
    have other : p.key ≠ q.key := by
      intro same
      have twins := Pattern.eq_of_twins formed blind p added q
        (known q (Pattern.mem_of_mem_firsts first)) same
      simp [← twins, aside] at hit
    simp [entryOf, handlersUnder_addRule, other]
  unfold wantedBy
  cases found : (Pattern.firsts l.patterns).findIdx? fun q => q.key = p.key with
  | some position =>
    rw [RuleTable.firsts_of_known found]
    exact List.map_congr_left keeps
  | none =>
    rw [RuleTable.firsts_of_unknown found, List.filter_append]
    simpa [aside] using keeps

end Ledger

namespace Pattern
variable {p : Pattern} {path : String}

-- An exact absolute pattern is looked up without being matched, but under no other path than its own.
theorem aside_of_whole (formed : p.Formed) (aside : p.universal = true ∨ p.isMatch path = false) :
    (p.isWhole && p.fixed == path) = false := by
  cases whole : p.isWhole with
  | false => rfl
  | true =>
    cases aside with
    | inl universal => simp [ordinary_of_isWhole whole] at universal
    | inr missed => simpa [whole_isMatch formed whole] using missed

end Pattern

namespace RuleTable
variable {t u : RuleTable} {l : Ledger} {p : Pattern} {a : ActionId} {path : String}

theorem Holds.matchesAt_wantedBy (holds : t.Holds l) (kind : Pattern → Bool) (path : String) :
    t.matchesAt ((Pattern.firsts l.patterns).findIdxs kind) path =
      l.wantedBy fun p => kind p && p.isMatch path := holds.matchesAt kind path

theorem Holds.absolute_wantedBy (holds : t.Holds l) (formed : ∀ q ∈ l.patterns, q.Formed)
    (path : String) : (t.absolute[path]?.bind fun i => t.entries[i]?) =
      (l.wantedBy fun p => p.isWhole && p.fixed == path).head? := by
  rw [holds.absolute formed, l.whole?_eq formed, Ledger.wantedBy, List.head?_map, List.head?_filter]

theorem ordinary?_of_aside (before : t.Holds l) (after : u.Holds (l.addRule p a))
    (formed : ∀ q ∈ (l.addRule p a).patterns, q.Formed)
    (aside : p.universal = true ∨ p.isMatch path = false) : u.ordinary? path = t.ordinary? path := by
  obtain ⟨earlier, own⟩ := (Ledger.forall_patterns_addRule Pattern.Formed).mp formed
  have tail : (p.isTail && p.isMatch path) = false := by
    cases aside with
    | inl universal => simp [Pattern.isTail, universal]
    | inr missed => simp [missed]
  have wildcard : (p.isWildcard && p.isMatch path) = false := by
    cases aside with
    | inl universal => simp [Pattern.isWildcard, universal]
    | inr missed => simp [missed]
  unfold RuleTable.ordinary?
  rw [after.absolute_wantedBy formed, before.absolute_wantedBy earlier,
    Ledger.wantedBy_addRule formed (fun _ _ => rfl) (Pattern.aside_of_whole own aside),
    after.indexes.relative, before.indexes.relative, after.matchesAt_wantedBy, before.matchesAt_wantedBy,
    Ledger.wantedBy_addRule formed (fun _ _ => rfl) (by simp [Bool.and_right_comm, tail]),
    after.indexes.wildcards, before.indexes.wildcards, after.matchesAt_wantedBy,
    before.matchesAt_wantedBy, Ledger.wantedBy_addRule formed (fun _ _ => rfl) wildcard]

theorem universalHandlers_of_addRule (before : t.Holds l) (after : u.Holds (l.addRule p a))
    (formed : ∀ q ∈ (l.addRule p a).patterns, q.Formed) (path : String) :
    u.universalHandlers path = t.universalHandlers path ++
      if p.universal && p.isMatch path then [⟨l.rules.length, a⟩] else [] := by
  obtain ⟨earlier, -⟩ := (Ledger.forall_patterns_addRule Pattern.Formed).mp formed
  rw [after.universalHandlers formed, before.universalHandlers earlier, Ledger.stamped_addRule,
    List.filter_append, List.map_append]
  cases hit : p.universal && p.isMatch path with
  | true => simp [List.filter_cons_of_pos, hit]
  | false => simp [List.filter_cons_of_neg, hit]

end RuleTable

theorem Registry.table_amend (r : Registry) (change : RuleM Unit) :
    (r.amend change).2.table = (change.perform r.table).2 := by
  cases r <;> rfl

def Placement.arrange (placement : Placement) (chosen additive mandatory : List ActionId) :
    List ActionId :=
  match placement with
  | .afterUniversal => chosen ++ additive ++ mandatory
  | .beforeUniversal => chosen ++ mandatory ++ additive

namespace RuleTable

def ordinaryBlock (t : RuleTable) (path : String) : List ActionId :=
  ((t.ordinary? path).map RuleEntry.actions).getD []

def fallbackBlock (t : RuleTable) (path : String) : List ActionId :=
  if t.ordinary? path = none ∧ t.universalHandlers path = [] then t.fallback else []

def universalBlock (t : RuleTable) (path : String) : List ActionId :=
  unseen (t.ordinaryBlock path) ((t.universalHandlers path).map Stamped.action)

theorem matching_eq_blocks (t : RuleTable) (path : String) : t.matching path =
    t.placement.arrange (t.ordinaryBlock path ++ t.fallbackBlock path) (t.universalBlock path)
      t.mandatory := by
  unfold RuleTable.matching Placement.arrange universalBlock ordinaryBlock fallbackBlock
  cases t.ordinary? path with
  | some e => cases t.placement <;> simp
  | none => cases t.placement <;> cases t.universalHandlers path <;> simp [unseen]

theorem unseen_snoc (seen as : List ActionId) (a : ActionId) : unseen seen (as ++ [a]) =
    unseen seen as ++ if a ∈ seen ++ unseen seen as then [] else [a] := by
  simp only [unseen_eq, List.filter_append]
  by_cases known : a ∈ seen
  · simp [known]
  · rw [List.filter_cons_of_pos (by simp [known]), List.filter_nil, eraseDups_snoc]
    split <;> simp_all

variable {t u : RuleTable} {l : Ledger} {p : Pattern} {a : ActionId} {path : String}

theorem matching_of_missed (before : t.Holds l) (after : u.Holds (l.addRule p a))
    (formed : ∀ q ∈ (l.addRule p a).patterns, q.Formed) (missed : p.isMatch path = false) :
    u.matching path = t.matching path := by
  have ordinary := ordinary?_of_aside before after formed (.inr missed)
  have universal : u.universalHandlers path = t.universalHandlers path := by
    simp [universalHandlers_of_addRule before after formed, missed]
  simp only [RuleTable.matching, ordinary, universal, after.fallback, after.mandatory, after.placement,
    before.fallback, before.mandatory, before.placement]
  rfl

theorem matching_of_universal (before : t.Holds l) (after : u.Holds (l.addRule p a))
    (formed : ∀ q ∈ (l.addRule p a).patterns, q.Formed) (universal : p.universal = true)
    (hit : p.isMatch path = true) : u.matching path =
      t.placement.arrange (t.ordinaryBlock path)
        (t.universalBlock path ++
          if a ∈ t.ordinaryBlock path ++ t.universalBlock path then [] else [a]) t.mandatory := by
  have handlers := universalHandlers_of_addRule before after formed path
  have ordinary : u.ordinaryBlock path = t.ordinaryBlock path := by
    unfold ordinaryBlock
    rw [ordinary?_of_aside before after formed (.inl universal)]
  have fallback : u.fallbackBlock path = [] := by
    simp [fallbackBlock, handlers, universal, hit]
  have placement : u.placement = t.placement := after.placement.trans before.placement.symm
  have mandatory : u.mandatory = t.mandatory := after.mandatory.trans before.mandatory.symm
  rw [matching_eq_blocks, ordinary, fallback, placement, mandatory, universalBlock, ordinary, handlers]
  simp [universal, hit, unseen_snoc, universalBlock]

theorem addRule_accepted {t : RuleTable} {text : String}
    (accepted : ((addRule text a).perform t).1 = .ok ()) :
    ∃ p, Pattern.parse t.prefixes text = .ok p := by
  rw [addRule, Attempt.perform_bind, Attempt.perform_get] at accepted
  cases parsed : Pattern.parse t.prefixes text with
  | error fault => simp [parsed] at accepted
  | ok p => exact ⟨p, rfl⟩

theorem after_of_build {placement : Placement} {entries : List Registration} {t : RuleTable}
    (built : build placement entries = .ok t) :
    t = .after (.place placement :: entries.map .register) := by
  have run : ∀ (t u : RuleTable), (registerAll entries).perform t = (.ok (), u) →
      u = (entries.map TableCall.register).foldl answer t := by
    clear built
    induction entries with
    | nil =>
      intro t u ran
      cases ran
      rfl
    | cons entry entries ih =>
      intro t u ran
      obtain ⟨⟨⟩, between, first, rest⟩ := Attempt.ok_of_bind ran
      simpa [answer, first] using ih between u rest
  unfold build at built
  cases ran : (registerAll entries).perform { placement } with
  | mk result made =>
    rw [ran] at built
    cases result with
    | error e => cases built
    | ok done =>
      cases built
      exact run _ _ ran

-- Registrations do not interfere: every history of a registry, scoped or not, every text that it
-- accepts and every path. Where the pattern does not match, nothing changes; where a universal one
-- does, its action is at most one more behind all that were there, and only the fallback goes.
theorem addRule_steady (calls : List TableCall) {r : Registry} (known : r.table = .after calls)
    {text : String} {a : ActionId} (accepted : (r.amend (addRule text a)).1 = .ok ()) :
    let after := (r.amend (addRule text a)).2
    let t := r.table
    ∃ p, Pattern.parse t.prefixes text = .ok p ∧
      (∀ path, p.isMatch path = false → after.matching path = r.matching path) ∧
      (p.universal = true → ∀ path, p.isMatch path = true →
        r.matching path = t.placement.arrange (t.ordinaryBlock path ++ t.fallbackBlock path)
          (t.universalBlock path) t.mandatory ∧
        after.matching path = t.placement.arrange (t.ordinaryBlock path)
          (t.universalBlock path ++
            if a ∈ t.ordinaryBlock path ++ t.universalBlock path then [] else [a]) t.mandatory) := by
  intro after t
  have accepted : ((addRule text a).perform t).1 = .ok () := by
    simpa [Registry.amend] using accepted
  obtain ⟨p, parsed⟩ := addRule_accepted accepted
  have told : after.table = t.addPattern p a := by
    rw [Registry.table_amend, perform_addRule, parsed]
  have before : t.Holds (Ledger.after calls) := by
    simpa [t, known] using holds_after calls
  have next : after.table.Holds ((Ledger.after calls).addRule p a) := told ▸ before.addPattern p a
  have formed : ∀ q ∈ ((Ledger.after calls).addRule p a).patterns, q.Formed :=
    (Ledger.forall_patterns_addRule Pattern.Formed).mpr
      ⟨Ledger.formed_after calls, Pattern.formed_of_parse parsed⟩
  refine ⟨p, parsed, fun path => matching_of_missed before next formed, ?_⟩
  intro universal path hit
  exact ⟨t.matching_eq_blocks path, matching_of_universal before next formed universal hit⟩

-- A second spelling shares the list of the first and is not seen from elsewhere; a universal pattern
-- drives the fallback out where there was nothing else.
theorem addRule_steady_shared :
    let calls : List TableCall := [.register (.declare "p" "urn:a/b"), .register (.rule "p:x" ⟨0⟩),
      .register (.fallback ⟨4⟩), .register (.mandatory ⟨5⟩)]
    let r : Registry := .within (.base {}) (.after calls) "/r"
    let spelled : RuleM Unit := addRule "*/\x7burn:a/b\x7dx/" ⟨1⟩
    let every : RuleM Unit := addRule "!*" ⟨0⟩
    let path := "/r/\x7burn:a/b\x7dx"
    (r.amend spelled).1 = .ok () ∧ (r.amend every).1 = .ok () ∧
      (r.amend spelled).2.matching path = [⟨0⟩, ⟨1⟩, ⟨5⟩] ∧
      (r.amend spelled).2.matching "/r" = r.matching "/r" ∧ r.matching "/r" = [⟨4⟩, ⟨5⟩] ∧
      (r.amend every).2.matching "/r" = [⟨0⟩, ⟨5⟩] ∧
      (r.amend every).2.matching path = r.matching path := by
  intro calls r spelled every path
  have spelledToo : (r.amend spelled).1 = .ok () := rfl
  have accepted : (r.amend every).1 = .ok () := rfl
  obtain ⟨p, parsed, missed, -⟩ := addRule_steady calls (r := r) rfl spelledToo
  obtain ⟨q, found, -, added⟩ := addRule_steady calls (r := r) rfl accepted
  have aside : ((Pattern.parse r.table.prefixes "*/\x7burn:a/b\x7dx/").map (·.isMatch "/r")) =
      .ok false := by
    decide +kernel
  have hits : ((Pattern.parse r.table.prefixes "!*").map fun q =>
      (q.universal, q.isMatch "/r", q.isMatch path)) = .ok (true, true, true) := by
    decide +kernel
  simp only [parsed, found, Except.map, Except.ok.injEq, Prod.mk.injEq] at aside hits
  obtain ⟨universal, root, inner⟩ := hits
  refine ⟨spelledToo, accepted, by decide +kernel, missed "/r" aside, by decide +kernel, ?_, ?_⟩
  · rw [(added universal "/r" root).2]
    decide +kernel
  · rw [(added universal path inner).2, (added universal path inner).1]
    decide +kernel

end RuleTable
end XmlRules
