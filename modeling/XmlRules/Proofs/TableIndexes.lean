import Mathlib.Data.List.Basic
import XmlRules.Proofs.Ledger
namespace XmlRules

namespace Ledger

def stamped (l : Ledger) : List (Pattern × Stamped) :=
  l.rules.zipIdx.map fun r => (r.1.1, ⟨r.2, r.1.2⟩)

def handlersUnder (l : Ledger) (key : String) : List Stamped :=
  (l.stamped.filter fun r => r.1.key = key).map Prod.snd

def entryOf (l : Ledger) (p : Pattern) : RuleEntry :=
  ⟨p, (l.handlersUnder p.key).map Stamped.action, (l.handlersUnder p.key).map Stamped.stamp⟩

theorem handlers_entryOf (l : Ledger) (p : Pattern) :
    (l.entryOf p).handlers = l.handlersUnder p.key := by
  simp [RuleEntry.handlers, entryOf, List.zipWith_map]

theorem stamped_addRule (l : Ledger) (p : Pattern) (a : ActionId) :
    (l.addRule p a).stamped = l.stamped ++ [(p, ⟨l.rules.length, a⟩)] := by
  simp [stamped, addRule, List.zipIdx_append]

theorem patterns_addRule (l : Ledger) (p : Pattern) (a : ActionId) :
    (l.addRule p a).patterns = l.patterns ++ [p] := by
  simp [patterns, addRule]

theorem handlersUnder_addRule (l : Ledger) (p : Pattern) (a : ActionId) (key : String) :
    (l.addRule p a).handlersUnder key =
      l.handlersUnder key ++ if p.key = key then [⟨l.rules.length, a⟩] else [] := by
  rw [handlersUnder, stamped_addRule, List.filter_append, List.map_append, handlersUnder]
  by_cases same : p.key = key <;> simp [same]

theorem handlersUnder_of_unknown {l : Ledger} {key : String} (unknown : ∀ p ∈ l.patterns, p.key ≠ key) :
    l.handlersUnder key = [] := by
  rw [handlersUnder, List.map_eq_nil_iff, List.filter_eq_nil_iff]
  intro r member
  obtain ⟨⟨⟨p, a⟩, n⟩, inside, rfl⟩ := List.mem_map.mp member
  have rule := List.fst_mem_of_mem_zipIdx inside
  simpa using unknown p (List.mem_map.mpr ⟨_, rule, rfl⟩)

end Ledger

namespace RuleTable

-- Every index is a search among the patterns, remembered.
structure Indexes (t : RuleTable) (ps : List Pattern) : Prop where
  byKey : ∀ key, t.byKey[key]? = ps.findIdx? fun p => p.key = key
  absolute : ∀ path, t.absolute[path]? = ps.findIdx? fun p => p.isWhole && p.fixed == path
  relative : ∀ last, t.relative.getD last [] =
    ps.findIdxs fun p => p.isTail && p.lastFixedSegment == last
  wildcards : t.wildcards = ps.findIdxs Pattern.isWildcard
  universal : t.universal = ps.findIdxs Pattern.universal

-- What a table knows when it has been told what the ledger says.
structure Holds (t : RuleTable) (l : Ledger) : Prop where
  prefixes : t.prefixes = l.prefixes
  entries : t.entries = (Pattern.firsts l.patterns).map l.entryOf
  indexes : t.Indexes (Pattern.firsts l.patterns)
  actions : t.actions = l.given.eraseDups
  fallback : t.fallback = l.fallback
  mandatory : t.mandatory = l.mandatory
  placement : t.placement = l.placement
  registrations : t.registrations = l.rules.length

theorem file_eq (t : RuleTable) (position : Nat) (p : Pattern) : t.file position p =
    { t with
      absolute := if p.isWhole then t.absolute.insert p.fixed position else t.absolute
      relative := if p.isTail then
          t.relative.insert p.lastFixedSegment (t.relative.getD p.lastFixedSegment [] ++ [position])
        else t.relative
      wildcards := if p.isWildcard then t.wildcards ++ [position] else t.wildcards
      universal := if p.universal then t.universal ++ [position] else t.universal } := by
  unfold file Pattern.isWhole Pattern.isTail Pattern.isWildcard
  cases universal : p.universal with
  | true => simp
  | false => cases form : p.form <;> cases anchor : p.anchor <;> simp

theorem append_entries (t : RuleTable) (p : Pattern) (handler : Stamped) :
    (t.append p handler).entries = t.entries ++ [⟨p, [handler.action], [handler.stamp]⟩] := by
  rw [append, file_eq]

theorem Indexes.keep {t u : RuleTable} {ps : List Pattern} (indexes : t.Indexes ps)
    (byKey : u.byKey = t.byKey) (absolute : u.absolute = t.absolute)
    (relative : u.relative = t.relative) (wildcards : u.wildcards = t.wildcards)
    (universal : u.universal = t.universal) : u.Indexes ps := by
  refine ⟨?_, ?_, ?_, ?_, ?_⟩
  · rw [byKey]
    exact indexes.byKey
  · rw [absolute]
    exact indexes.absolute
  · rw [relative]
    exact indexes.relative
  · rw [wildcards]
    exact indexes.wildcards
  · rw [universal]
    exact indexes.universal

theorem key_of_isWhole {p q : Pattern} (left : p.isWhole = true) (right : q.isWhole = true)
    (same : p.fixed = q.fixed) : p.key = q.key := by
  simp only [Pattern.isWhole, Bool.and_eq_true, Bool.not_eq_true', beq_iff_eq] at left right
  simp [Pattern.key, left, right, same]

theorem Indexes.append {t : RuleTable} {ps : List Pattern} (indexes : t.Indexes ps)
    (count : t.entries.length = ps.length) {p : Pattern} (fresh : ∀ q ∈ ps, q.key ≠ p.key)
    (handler : Stamped) : (t.append p handler).Indexes (ps ++ [p]) := by
  rw [RuleTable.append, file_eq, count]
  refine ⟨?_, ?_, ?_, ?_, ?_⟩
  · intro key
    rw [Std.TreeMap.getElem?_insert, List.findIdx?_append, indexes.byKey]
    by_cases same : p.key = key
    · have unknown : (ps.findIdx? fun q => decide (q.key = key)) = none := by
        rw [List.findIdx?_eq_none_iff]
        intro q member
        simpa [← same] using fresh q member
      simp [same, unknown]
    · simp [same]
  · intro path
    rw [List.findIdx?_append, ← indexes.absolute]
    by_cases whole : p.isWhole = true
    · simp only [whole, if_true]
      rw [Std.TreeMap.getElem?_insert]
      by_cases same : p.fixed = path
      · have unknown : t.absolute[path]? = none := by
          rw [indexes.absolute, List.findIdx?_eq_none_iff]
          intro q member
          rw [Bool.and_eq_false_iff]
          by_cases other : q.isWhole = true
          · refine .inr ?_
            rw [beq_eq_false_iff_ne, ← same]
            exact fun twin => fresh q member (key_of_isWhole other whole twin)
          · exact .inl (by simpa using other)
        simp [same, unknown, whole]
      · simp [same]
    · simp [whole]
  · intro last
    rw [List.findIdxs_append, ← indexes.relative]
    by_cases tail : p.isTail = true
    · simp only [tail, if_true]
      rw [Std.TreeMap.getD_insert]
      by_cases same : p.lastFixedSegment = last
      · simp [same, tail]
      · simp [same]
    · simp [tail]
  · rw [List.findIdxs_append, ← indexes.wildcards]
    by_cases wildcard : p.isWildcard = true <;> simp [wildcard]
  · rw [List.findIdxs_append, ← indexes.universal]
    by_cases universal : p.universal = true <;> simp [universal]

theorem remember_eq (t : RuleTable) (a : ActionId) :
    t.remember a = { t with actions := if a ∈ t.actions then t.actions else t.actions ++ [a] } := by
  unfold remember
  split <;> rfl

theorem eraseDups_snoc (as : List ActionId) (a : ActionId) : (as ++ [a]).eraseDups =
    if a ∈ as.eraseDups then as.eraseDups else as.eraseDups ++ [a] := by
  rw [List.eraseDups_append]
  by_cases known : a ∈ as <;> simp [List.removeAll, known, List.eraseDups_cons]

theorem nodup_eraseDups (as : List ActionId) : as.eraseDups.Nodup := by
  induction as using List.reverseRecOn with
  | nil => simp
  | append_singleton as a ih =>
    rw [eraseDups_snoc]
    split
    · exact ih
    · rename_i fresh
      refine List.nodup_append.mpr ⟨ih, by simp, ?_⟩
      intro b member c last same
      rw [List.mem_singleton.mp last] at same
      exact fresh (same ▸ member)

variable {t : RuleTable} {l : Ledger}

theorem Holds.count (holds : t.Holds l) :
    t.entries.length = (Pattern.firsts l.patterns).length := by
  rw [holds.entries, List.length_map]

theorem firsts_of_known {p : Pattern} {a : ActionId} {position : Nat}
    (found : (Pattern.firsts l.patterns).findIdx? (fun q => q.key = p.key) = some position) :
    Pattern.firsts (l.addRule p a).patterns = Pattern.firsts l.patterns := by
  obtain ⟨within, same, _⟩ := List.findIdx?_eq_some_iff_getElem.mp found
  rw [Ledger.patterns_addRule, Pattern.firsts_append, if_pos]
  exact List.any_eq_true.mpr ⟨_, List.getElem_mem within, same⟩

theorem firsts_of_unknown {p : Pattern} {a : ActionId}
    (missing : (Pattern.firsts l.patterns).findIdx? (fun q => q.key = p.key) = none) :
    Pattern.firsts (l.addRule p a).patterns = Pattern.firsts l.patterns ++ [p] := by
  rw [Ledger.patterns_addRule, Pattern.firsts_append, if_neg]
  intro known
  obtain ⟨q, member, same⟩ := List.any_eq_true.mp known
  have other := List.findIdx?_eq_none_iff.mp missing q member
  rw [same] at other
  cases other

theorem entries_of_known {p : Pattern} {a : ActionId} {position : Nat}
    (found : (Pattern.firsts l.patterns).findIdx? (fun q => q.key = p.key) = some position) :
    ((Pattern.firsts l.patterns).map l.entryOf).modify position
        (·.add ⟨l.rules.length, a⟩) =
      (Pattern.firsts l.patterns).map (l.addRule p a).entryOf := by
  obtain ⟨within, same, _⟩ := List.findIdx?_eq_some_iff_getElem.mp found
  have distinct := List.pairwise_iff_getElem.mp (Pattern.firsts_distinct l.patterns)
  apply List.ext_getElem (by simp)
  intro i left right
  rw [List.getElem_modify, List.getElem_map, List.getElem_map]
  have inside : i < (Pattern.firsts l.patterns).length := by simpa using right
  have key := of_decide_eq_true same
  split
  · rename_i here
    subst here
    simp [Ledger.entryOf, RuleEntry.add, Ledger.handlersUnder_addRule, key]
  · rename_i elsewhere
    have other : p.key ≠ (Pattern.firsts l.patterns)[i].key := by
      rw [← key]
      rcases Nat.lt_or_gt_of_ne elsewhere with less | more
      · exact distinct position i within inside less
      · exact (distinct i position inside within more).symm
    simp [Ledger.entryOf, Ledger.handlersUnder_addRule, other]

theorem entries_of_unknown {p : Pattern} {a : ActionId}
    (missing : (Pattern.firsts l.patterns).findIdx? (fun q => q.key = p.key) = none) :
    (Pattern.firsts l.patterns).map l.entryOf ++ [⟨p, [a], [l.rules.length]⟩] =
      (Pattern.firsts l.patterns ++ [p]).map (l.addRule p a).entryOf := by
  have fresh : ∀ q ∈ Pattern.firsts l.patterns, p.key ≠ q.key := by
    intro q member same
    simpa [same] using List.findIdx?_eq_none_iff.mp missing q member
  have unknown : ∀ q ∈ l.patterns, q.key ≠ p.key := by
    intro q member same
    obtain ⟨first, inside, twin⟩ := Pattern.exists_first member
    exact fresh first inside (twin.trans same).symm
  rw [List.map_append, List.map_singleton]
  congr 1
  · apply List.map_congr_left
    intro q member
    simp [Ledger.entryOf, Ledger.handlersUnder_addRule, fresh q member]
  · simp [Ledger.entryOf, Ledger.handlersUnder_addRule, Ledger.handlersUnder_of_unknown unknown]

theorem Holds.addPattern (holds : t.Holds l) (p : Pattern) (a : ActionId) :
    (t.addPattern p a).Holds (l.addRule p a) := by
  have given : (t.remember a).actions = (l.given ++ [a]).eraseDups := by
    rw [remember_eq, eraseDups_snoc, holds.actions]
  unfold RuleTable.addPattern
  simp only [remember_eq] at given ⊢
  rw [holds.indexes.byKey, holds.registrations]
  cases found : (Pattern.firsts l.patterns).findIdx? fun q => q.key = p.key with
  | some position =>
    refine ⟨holds.prefixes, ?_, ?_, given, holds.fallback, holds.mandatory, holds.placement, ?_⟩
    · rw [firsts_of_known found, ← entries_of_known found, ← holds.entries]
      rfl
    · rw [firsts_of_known found]
      exact holds.indexes.keep rfl rfl rfl rfl rfl
    · simp [extend, Ledger.addRule]
  | none =>
    have fresh : ∀ q ∈ Pattern.firsts l.patterns, q.key ≠ p.key := by
      intro q member same
      simpa [same] using List.findIdx?_eq_none_iff.mp found q member
    let noted : RuleTable :=
      { t with
        actions := if a ∈ t.actions then t.actions else t.actions ++ [a]
        registrations := l.rules.length + 1 }
    have before : noted.Indexes (Pattern.firsts l.patterns) := holds.indexes.keep rfl rfl rfl rfl rfl
    have indexes := before.append holds.count fresh ⟨l.rules.length, a⟩
    have entries := append_entries noted p ⟨l.rules.length, a⟩
    change (noted.append p ⟨l.rules.length, a⟩).Holds _
    rw [RuleTable.append, file_eq] at indexes entries ⊢
    refine ⟨holds.prefixes, ?_, ?_, given, holds.fallback, holds.mandatory, holds.placement, ?_⟩
    · rw [entries, firsts_of_unknown found, ← entries_of_unknown found, ← holds.entries]
    · rw [firsts_of_unknown found]
      exact indexes
    · simp [noted, Ledger.addRule]

theorem Holds.addFallback (holds : t.Holds l) (a : ActionId) :
    (t.addFallback a).Holds (l.addFallbacks [a]) := by
  have given : (t.remember a).actions = (l.given ++ [a]).eraseDups := by
    rw [remember_eq, eraseDups_snoc, holds.actions]
  rw [remember_eq] at given
  rw [RuleTable.addFallback, remember_eq]
  refine ⟨holds.prefixes, holds.entries, ?_, given, ?_, holds.mandatory, holds.placement,
    holds.registrations⟩
  · exact holds.indexes.keep rfl rfl rfl rfl rfl
  · simp [Ledger.addFallbacks, holds.fallback]

theorem Holds.addMandatory (holds : t.Holds l) (a : ActionId) :
    (t.addMandatory a).Holds (l.addMandatories [a]) := by
  have given : (t.remember a).actions = (l.given ++ [a]).eraseDups := by
    rw [remember_eq, eraseDups_snoc, holds.actions]
  rw [remember_eq] at given
  rw [RuleTable.addMandatory, remember_eq]
  refine ⟨holds.prefixes, holds.entries, ?_, given, holds.fallback, ?_, holds.placement,
    holds.registrations⟩
  · exact holds.indexes.keep rfl rfl rfl rfl rfl
  · simp [Ledger.addMandatories, holds.mandatory]

theorem Holds.addFallbacks (holds : t.Holds l) (as : List ActionId) :
    (as.foldl RuleTable.addFallback t).Holds (l.addFallbacks as) := by
  induction as generalizing t l with
  | nil => simpa [Ledger.addFallbacks] using holds
  | cons a as ih =>
    have next := ih (holds.addFallback a)
    simpa [Ledger.addFallbacks] using next

theorem Holds.addMandatories (holds : t.Holds l) (as : List ActionId) :
    (as.foldl RuleTable.addMandatory t).Holds (l.addMandatories as) := by
  induction as generalizing t l with
  | nil => simpa [Ledger.addMandatories] using holds
  | cons a as ih =>
    have next := ih (holds.addMandatory a)
    simpa [Ledger.addMandatories] using next

theorem perform_addRule (t : RuleTable) (text : String) (a : ActionId) :
    ((RuleTable.addRule text a).perform t).2 =
      match Pattern.parse t.prefixes text with
      | .error _ => t
      | .ok p => t.addPattern p a := by
  rw [RuleTable.addRule, Attempt.perform_bind, Attempt.perform_get]
  dsimp only
  cases Pattern.parse t.prefixes text <;> rfl

theorem Holds.register (holds : t.Holds l) (entry : Registration) :
    ((RuleTable.register entry).perform t).2.Holds (l.enter entry) := by
  cases entry with
  | declare label uri =>
    refine ⟨?_, holds.entries, ?_, holds.actions, holds.fallback, holds.mandatory, holds.placement,
      holds.registrations⟩
    · exact congrArg (fun prefixes : Prefixes => prefixes.insert label uri) holds.prefixes
    · exact holds.indexes.keep rfl rfl rfl rfl rfl
  | rule text a =>
    rw [RuleTable.register, perform_addRule, holds.prefixes, Ledger.enter]
    cases Pattern.parse l.prefixes text with
    | error fault => exact holds
    | ok p => exact holds.addPattern p a
  | fallback a => exact holds.addFallback a
  | fallbacks as => exact holds.addFallbacks as
  | mandatory a => exact holds.addMandatory a
  | mandatories as => exact holds.addMandatories as

theorem Holds.answer (holds : t.Holds l) (call : TableCall) : (t.answer call).Holds (l.note call) := by
  cases call with
  | register entry => exact holds.register entry
  | place placement =>
    exact ⟨holds.prefixes, holds.entries,
      holds.indexes.keep rfl rfl rfl rfl rfl,
      holds.actions, holds.fallback, holds.mandatory, rfl, holds.registrations⟩

theorem holds_empty (placement : Placement) :
    RuleTable.Holds { placement } { placement } := by
  refine ⟨rfl, rfl, ⟨?_, ?_, ?_, rfl, rfl⟩, rfl, rfl, rfl, rfl, rfl⟩
  · intro key
    simp [Ledger.patterns]
  · intro path
    simp [Ledger.patterns]
  · intro last
    simp [Ledger.patterns]

-- After every history the table is the log and its indexes.
theorem holds_after (calls : List TableCall) : (RuleTable.after calls).Holds (Ledger.after calls) := by
  have run : ∀ (t : RuleTable) (l : Ledger), t.Holds l →
      (calls.foldl RuleTable.answer t).Holds (calls.foldl Ledger.note l) := by
    induction calls with
    | nil => exact fun _ _ holds => holds
    | cons call calls ih => exact fun t l holds => ih _ _ (holds.answer call)
  exact run _ _ (holds_empty .afterUniversal)

theorem nodup_actions_after (calls : List TableCall) : (RuleTable.after calls).actions.Nodup := by
  rw [(holds_after calls).actions]
  exact nodup_eraseDups _

end RuleTable

theorem Ledger.formed_note {l : Ledger} (formed : ∀ p ∈ l.patterns, p.Formed) (call : TableCall) :
    ∀ p ∈ (l.note call).patterns, p.Formed := by
  cases call with
  | place placement => exact formed
  | register entry =>
    cases entry with
    | rule text a =>
      rw [Ledger.note, Ledger.enter]
      split
      · exact formed
      · rename_i q accepted
        intro p member
        rw [Ledger.patterns_addRule] at member
        rcases List.mem_append.mp member with earlier | last
        · exact formed p earlier
        · rw [List.mem_singleton.mp last]
          exact Pattern.formed_of_parse accepted
    | declare label uri => exact formed
    | fallback a => exact formed
    | fallbacks as => exact formed
    | mandatory a => exact formed
    | mandatories as => exact formed

theorem Ledger.formed_after (calls : List TableCall) :
    ∀ p ∈ (Ledger.after calls).patterns, p.Formed := by
  have run : ∀ l : Ledger, (∀ p ∈ l.patterns, p.Formed) →
      ∀ p ∈ (calls.foldl Ledger.note l).patterns, p.Formed := by
    induction calls with
    | nil => exact fun _ formed => formed
    | cons call calls ih => exact fun l formed => ih _ (Ledger.formed_note formed call)
  exact run {} (by simp [Ledger.patterns])

end XmlRules
