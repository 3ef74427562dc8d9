import Mathlib.Data.List.Nodup
import Mathlib.Data.List.Perm.Subperm
import XmlRules.Proofs.TableIndexes
namespace XmlRules

-- A place where positions of entries are filed: one of the indexes, in a map also the name there.
inductive Shelf where
  | absolute (fixed : String)
  | relative (last : String)
  | wildcards
  | universal
deriving DecidableEq, Repr

def Pattern.shelf (p : Pattern) : Shelf :=
  if p.universal then .universal
  else match p.form, p.anchor with
    | .exact, .absolute => .absolute p.fixed
    | .exact, .relative => .relative p.lastFixedSegment
    | _, _ => .wildcards

section Slots
variable {β : Type} {m : Std.TreeMap String β} {k : String} {v : β}

theorem nodup_slots (m : Std.TreeMap String β) : m.toList.Nodup :=
  Std.TreeMap.distinct_keys_toList.imp fun other same => other (by simp [same])

theorem slots_of_getElem? (found : m[k]? = some v) :
    m.toList.Perm ((k, v) :: m.toList.filter (¬k == ·.1)) := by
  refine (List.perm_ext_iff_of_nodup (nodup_slots m) ?_).mpr fun slot => ?_
  · exact List.nodup_cons.mpr ⟨by simp, (nodup_slots m).filter _⟩
  · obtain ⟨name, value⟩ := slot
    rw [List.mem_cons, List.mem_filter, Std.TreeMap.mem_toList_iff_getElem?_eq_some]
    by_cases same : k = name
    · subst same
      simp [found, eq_comm]
    · simp [same, Ne.symm same]

theorem slots_of_none (missing : m[k]? = none) : m.toList.filter (¬k == ·.1) = m.toList := by
  refine List.filter_eq_self.mpr fun slot member => ?_
  have found := Std.TreeMap.mem_toList_iff_getElem?_eq_some.mp member
  have other : k ≠ slot.1 := by
    rintro rfl
    rw [missing] at found
    cases found
  simpa using other

end Slots

namespace RuleTable

def underSegment (slot : String × List Nat) : List (Shelf × Nat) :=
  slot.2.map fun i => (.relative slot.1, i)

-- All positions that the indexes hold, as often as they hold them, with where they stand.
def filings (t : RuleTable) : List (Shelf × Nat) :=
  t.absolute.toList.map (fun slot => (.absolute slot.1, slot.2)) ++
    t.relative.toList.flatMap underSegment ++
    t.wildcards.map (fun i => (.wildcards, i)) ++
    t.universal.map fun i => (.universal, i)

structure Consistent (t : RuleTable) : Prop where
  -- The key map holds the key of each entry with its position, and nothing else.
  keyed : ∀ (key : String) (i : Nat),
    t.byKey[key]? = some i ↔ (t.patterns.map Pattern.key)[i]? = some key
  distinct : (t.patterns.map Pattern.key).Nodup
  -- Each position stands once in all the indexes, on the shelf of its pattern.
  filed : t.filings.Perm (t.patterns.map Pattern.shelf).zipIdx
  paired : ∀ e ∈ t.entries, e.actions.length = e.order.length ∧ e.order ≠ []
  rising : ∀ e ∈ t.entries, e.order.Pairwise (· < ·)
  -- Each number that has been given out stands once in all the entries.
  numbered : (t.entries.flatMap RuleEntry.order).Perm (List.range t.registrations)

variable {t u : RuleTable} {p : Pattern}

def rulePart (t : RuleTable) :=
  (t.entries, t.byKey, t.absolute, t.relative, t.wildcards, t.universal, t.registrations)

theorem filings_of_rulePart (same : u.rulePart = t.rulePart) : u.filings = t.filings := by
  simp only [rulePart, Prod.mk.injEq] at same
  simp only [filings, same]

theorem Consistent.of_rulePart (consistent : t.Consistent) (same : u.rulePart = t.rulePart) :
    u.Consistent := by
  have filings := filings_of_rulePart same
  simp only [rulePart, Prod.mk.injEq] at same
  obtain ⟨entries, byKey, -, -, -, -, registrations⟩ := same
  have patterns : u.patterns = t.patterns := congrArg (List.map RuleEntry.pattern) entries
  refine ⟨?_, ?_, ?_, ?_, ?_, ?_⟩
  · rw [byKey, patterns]
    exact consistent.keyed
  · rw [patterns]
    exact consistent.distinct
  · rw [filings, patterns]
    exact consistent.filed
  · rw [entries]
    exact consistent.paired
  · rw [entries]
    exact consistent.rising
  · rw [entries, registrations]
    exact consistent.numbered

theorem isWhole_of_shelf {fixed : String} (shelf : p.shelf = .absolute fixed) :
    p.isWhole = true ∧ p.fixed = fixed := by
  unfold Pattern.shelf at shelf
  unfold Pattern.isWhole
  split at shelf
  · cases shelf
  · split at shelf <;> simp_all

theorem Consistent.vacant (consistent : t.Consistent) (unknown : t.byKey[p.key]? = none)
    (whole : p.isWhole = true) : t.absolute[p.fixed]? = none := by
  refine Option.eq_none_iff_forall_ne_some.mpr fun i found => ?_
  have slot := Std.TreeMap.mem_toList_iff_getElem?_eq_some.mpr found
  have filing : (Shelf.absolute p.fixed, i) ∈ t.filings := by
    simp only [filings, List.append_assoc]
    exact List.mem_append_left _ (List.mem_map.mpr ⟨_, slot, rfl⟩)
  have stands := List.mem_zipIdx_iff_getElem?.mp (consistent.filed.mem_iff.mp filing)
  rw [List.getElem?_map, Option.map_eq_some_iff] at stands
  obtain ⟨q, here, shelf⟩ := stands
  obtain ⟨wholeToo, fixed⟩ := isWhole_of_shelf shelf
  have key : q.key = p.key := key_of_isWhole wholeToo whole fixed
  have known := (consistent.keyed p.key i).mpr (by rw [List.getElem?_map, here, ← key]; rfl)
  rw [unknown] at known
  cases known

theorem underSegment_insert (m : Std.TreeMap String (List Nat)) (last : String) (position : Nat) :
    ((m.insert last (m.getD last [] ++ [position])).toList.flatMap underSegment).Perm
      ((.relative last, position) :: m.toList.flatMap underSegment) := by
  let rest := m.toList.filter (¬last == ·.1)
  have before : (m.toList.flatMap underSegment).Perm
      (underSegment (last, m.getD last []) ++ rest.flatMap underSegment) := by
    rw [Std.TreeMap.getD_eq_getD_getElem?]
    cases found : m[last]? with
    | none =>
      simp only [rest, slots_of_none found]
      exact .refl _
    | some positions => exact (slots_of_getElem? found).flatMap_right underSegment
  have after : ((m.insert last (m.getD last [] ++ [position])).toList.flatMap underSegment).Perm
      (underSegment (last, m.getD last [] ++ [position]) ++ rest.flatMap underSegment) :=
    Std.TreeMap.toList_insert_perm.flatMap_right underSegment
  refine after.trans (List.Perm.trans ?_ (before.symm.cons _))
  simp only [underSegment, List.map_append, List.map_singleton, List.append_assoc,
    List.singleton_append]
  exact List.perm_middle

theorem filings_file (position : Nat) (vacant : p.isWhole = true → t.absolute[p.fixed]? = none) :
    (t.file position p).filings.Perm ((p.shelf, position) :: t.filings) := by
  have wildcard : ({ t with wildcards := t.wildcards ++ [position] } : RuleTable).filings.Perm
      ((.wildcards, position) :: t.filings) := by
    simp only [filings, List.map_append, List.map_singleton, ← List.append_assoc]
    exact (List.perm_append_singleton _ _).append_right _
  unfold file Pattern.shelf
  cases universal : p.universal with
  | true =>
    simp only [if_true, filings, List.map_append, List.map_singleton, ← List.append_assoc]
    exact List.perm_append_singleton _ _
  | false =>
    simp only [Bool.false_eq_true, if_false]
    cases form : p.form with
    | exact =>
      cases anchor : p.anchor with
      | absolute =>
        have slots := Std.TreeMap.toList_insert_perm (t := t.absolute) (k := p.fixed) (v := position)
        rw [slots_of_none (vacant (by simp [Pattern.isWhole, universal, form, anchor]))] at slots
        exact (((slots.map _).append_right _).append_right _).append_right _
      | relative =>
        have slots := underSegment_insert t.relative p.lastFixedSegment position
        exact (((slots.append_left _).trans List.perm_middle).append_right _).append_right _
    | anyChild => exact wildcard
    | anyDescendant => exact wildcard
    | everything => exact wildcard

theorem getElem?_concat_eq_some_iff {α : Type} {xs : List α} {x y : α} {i : Nat} :
    (xs ++ [x])[i]? = some y ↔ xs[i]? = some y ∨ i = xs.length ∧ x = y := by
  rw [List.getElem?_append]
  split
  · rename_i inside
    simp [Nat.ne_of_lt inside]
  · rename_i behind
    have place : i - xs.length = 0 ↔ i = xs.length := by omega
    rw [List.getElem?_singleton, List.getElem?_eq_none (Nat.le_of_not_lt behind)]
    simp [place]

def counted (t : RuleTable) : RuleTable := { t with registrations := t.registrations + 1 }

theorem rulePart_addPattern (t : RuleTable) (p : Pattern) (a : ActionId) :
    (t.addPattern p a).rulePart = (match t.byKey[p.key]? with
      | some position => (t.extend position ⟨t.registrations, a⟩).counted
      | none => (t.append p ⟨t.registrations, a⟩).counted).rulePart := by
  unfold addPattern
  simp only [remember_eq]
  cases t.byKey[p.key]? with
  | some position => rfl
  | none =>
    simp only [RuleTable.append, file_eq]
    rfl

section Additions
variable {position : Nat} {a : ActionId}

theorem patterns_extend (t : RuleTable) (position : Nat) (handler : Stamped) :
    (t.extend position handler).patterns = t.patterns := by
  refine List.ext_getElem? fun i => ?_
  simp only [RuleTable.patterns, extend, List.getElem?_map, List.getElem?_modify]
  cases t.entries[i]? with
  | none => rfl
  | some e => by_cases here : position = i <;> simp [here, RuleEntry.add]

theorem Consistent.below (consistent : t.Consistent) {e : RuleEntry} (member : e ∈ t.entries)
    {n : Nat} (given : n ∈ e.order) : n < t.registrations :=
  List.mem_range.mp (consistent.numbered.mem_iff.mp (List.mem_flatMap.mpr ⟨e, member, given⟩))

theorem Consistent.extend (consistent : t.Consistent) (known : t.byKey[p.key]? = some position) :
    (t.extend position ⟨t.registrations, a⟩).counted.Consistent := by
  have patterns : (t.extend position ⟨t.registrations, a⟩).counted.patterns = t.patterns :=
    patterns_extend t position _
  have within : position < t.entries.length := by
    obtain ⟨inside, -⟩ := List.getElem?_eq_some_iff.mp ((consistent.keyed p.key position).mp known)
    simpa [RuleTable.patterns] using inside
  obtain ⟨before, e, behind, shape, -, changed⟩ :=
    List.exists_of_modify (·.add ⟨t.registrations, a⟩) within
  have entries : (t.extend position ⟨t.registrations, a⟩).counted.entries =
      before ++ e.add ⟨t.registrations, a⟩ :: behind := changed
  have below : ∀ n ∈ e.order, n < t.registrations :=
    fun n given => consistent.below (by simp [shape]) given
  have paired := consistent.paired
  have rising := consistent.rising
  have numbered := consistent.numbered
  rw [shape] at paired rising numbered
  simp only [List.forall_mem_append, List.forall_mem_cons] at paired rising
  refine ⟨?_, ?_, ?_, ?_, ?_, ?_⟩
  · rw [patterns]
    exact consistent.keyed
  · rw [patterns]
    exact consistent.distinct
  · rw [patterns]
    exact consistent.filed
  · simp only [entries, List.forall_mem_append, List.forall_mem_cons]
    refine ⟨paired.1, ⟨?_, by simp [RuleEntry.add]⟩, paired.2.2⟩
    simp [RuleEntry.add, paired.2.1.1]
  · simp only [entries, List.forall_mem_append, List.forall_mem_cons]
    refine ⟨rising.1, ?_, rising.2.2⟩
    exact List.pairwise_append.mpr ⟨rising.2.1, by simp, by simpa using below⟩
  · have grown : ((t.extend position ⟨t.registrations, a⟩).counted.entries.flatMap RuleEntry.order).Perm
        ((before ++ e :: behind).flatMap RuleEntry.order ++ [t.registrations]) := by
      simp only [entries, RuleEntry.add, List.flatMap_append, List.flatMap_cons, List.append_assoc]
      exact (List.perm_append_comm.append_left _).append_left _
    rw [counted, List.range_succ]
    exact grown.trans (numbered.append_right _)

theorem filings_append (handler : Stamped) (vacant : p.isWhole = true → t.absolute[p.fixed]? = none) :
    (t.append p handler).filings.Perm ((p.shelf, t.entries.length) :: t.filings) :=
  filings_file (t := { t with
    entries := t.entries ++ [⟨p, [handler.action], [handler.stamp]⟩]
    byKey := t.byKey.insert p.key t.entries.length }) t.entries.length vacant

theorem Consistent.append (consistent : t.Consistent) (unknown : t.byKey[p.key]? = none) :
    (t.append p ⟨t.registrations, a⟩).counted.Consistent := by
  have entries : (t.append p ⟨t.registrations, a⟩).counted.entries =
      t.entries ++ [⟨p, [a], [t.registrations]⟩] := append_entries t p _
  have patterns : (t.append p ⟨t.registrations, a⟩).counted.patterns = t.patterns ++ [p] := by
    rw [RuleTable.patterns, entries, List.map_append]
    rfl
  have byKey : (t.append p ⟨t.registrations, a⟩).counted.byKey =
      t.byKey.insert p.key t.patterns.length := by
    rw [counted, RuleTable.append, file_eq, RuleTable.patterns, List.length_map]
  have registrations : (t.append p ⟨t.registrations, a⟩).counted.registrations =
      t.registrations + 1 := by
    rw [counted, RuleTable.append, file_eq]
  have fresh : p.key ∉ t.patterns.map Pattern.key := by
    intro member
    obtain ⟨i, here⟩ := List.mem_iff_getElem?.mp member
    rw [(consistent.keyed p.key i).mpr here] at unknown
    cases unknown
  refine ⟨?_, ?_, ?_, ?_, ?_, ?_⟩
  · intro key i
    rw [byKey, patterns, List.map_append, Std.TreeMap.getElem?_insert, List.map_singleton,
      getElem?_concat_eq_some_iff, List.length_map, ← consistent.keyed]
    by_cases same : p.key = key
    · subst same
      simp [unknown, eq_comm]
    · simp [same]
  · rw [patterns, List.map_append]
    exact List.nodup_append.mpr ⟨consistent.distinct, by simp, by simpa using fresh⟩
  · have filed := filings_append ⟨t.registrations, a⟩ (consistent.vacant unknown)
    rw [patterns, List.map_append, List.zipIdx_append, List.length_map, Nat.zero_add]
    refine filed.trans ((consistent.filed.cons _).trans ?_)
    rw [RuleTable.patterns, List.length_map]
    exact (List.perm_append_singleton _ _).symm
  · simp only [entries, List.forall_mem_append, List.forall_mem_singleton]
    exact ⟨consistent.paired, rfl, by simp⟩
  · simp only [entries, List.forall_mem_append, List.forall_mem_singleton]
    exact ⟨consistent.rising, by simp⟩
  · simp only [entries, List.flatMap_append, List.flatMap_singleton]
    rw [registrations, List.range_succ]
    exact consistent.numbered.append_right _

theorem Consistent.addPattern (consistent : t.Consistent) (p : Pattern) (a : ActionId) :
    (t.addPattern p a).Consistent := by
  have parts := rulePart_addPattern t p a
  cases found : t.byKey[p.key]? with
  | some position =>
    rw [found] at parts
    exact (consistent.extend found).of_rulePart parts
  | none =>
    rw [found] at parts
    exact (consistent.append found).of_rulePart parts

theorem Consistent.filings_addPattern (consistent : t.Consistent) (p : Pattern) (a : ActionId) :
    t.filings.Subperm (t.addPattern p a).filings := by
  have filings := filings_of_rulePart (rulePart_addPattern t p a)
  cases found : t.byKey[p.key]? with
  | some position =>
    rw [found] at filings
    rw [filings]
    exact List.Subperm.refl _
  | none =>
    rw [found] at filings
    rw [filings]
    have grown := filings_append ⟨t.registrations, a⟩ (consistent.vacant found)
    exact (List.sublist_cons_self _ _).subperm.trans grown.symm.subperm

end Additions

theorem rulePart_foldl {step : RuleTable → ActionId → RuleTable}
    (keeps : ∀ t a, (step t a).rulePart = t.rulePart) (as : List ActionId) (t : RuleTable) :
    (as.foldl step t).rulePart = t.rulePart := by
  induction as generalizing t with
  | nil => rfl
  | cons a as ih => exact (ih _).trans (keeps t a)

theorem rulePart_addFallback (t : RuleTable) (a : ActionId) :
    (t.addFallback a).rulePart = t.rulePart := by
  rw [addFallback, remember_eq]
  rfl

theorem rulePart_addMandatory (t : RuleTable) (a : ActionId) :
    (t.addMandatory a).rulePart = t.rulePart := by
  rw [addMandatory, remember_eq]
  rfl

theorem answer_cases (t : RuleTable) (call : TableCall) :
    (t.answer call).rulePart = t.rulePart ∨
      ∃ text a p, call = .register (.rule text a) ∧ Pattern.parse t.prefixes text = .ok p ∧
        t.answer call = t.addPattern p a := by
  cases call with
  | place placement => exact .inl rfl
  | register entry =>
    cases entry with
    | declare label uri => exact .inl rfl
    | rule text a =>
      rw [answer, register, perform_addRule]
      cases read : Pattern.parse t.prefixes text with
      | error fault => exact .inl rfl
      | ok p => exact .inr ⟨text, a, p, rfl, read, rfl⟩
    | fallback a => exact .inl (rulePart_addFallback t a)
    | fallbacks as => exact .inl (rulePart_foldl rulePart_addFallback as t)
    | mandatory a => exact .inl (rulePart_addMandatory t a)
    | mandatories as => exact .inl (rulePart_foldl rulePart_addMandatory as t)

theorem Consistent.answer (consistent : t.Consistent) (call : TableCall) :
    (t.answer call).Consistent ∧ t.filings.Subperm (t.answer call).filings := by
  obtain untouched | ⟨text, a, p, -, -, added⟩ := answer_cases t call
  · refine ⟨consistent.of_rulePart untouched, ?_⟩
    rw [filings_of_rulePart untouched]
  · rw [added]
    exact ⟨consistent.addPattern p a, consistent.filings_addPattern p a⟩

theorem Consistent.answers (consistent : t.Consistent) (calls : List TableCall) :
    (calls.foldl RuleTable.answer t).Consistent ∧
      t.filings.Subperm (calls.foldl RuleTable.answer t).filings := by
  induction calls generalizing t with
  | nil => exact ⟨consistent, List.Subperm.refl _⟩
  | cons call calls ih =>
    obtain ⟨next, kept⟩ := consistent.answer call
    obtain ⟨final, keptToo⟩ := ih next
    exact ⟨final, kept.trans keptToo⟩

theorem consistent_empty (placement : Placement) : RuleTable.Consistent { placement } := by
  refine ⟨?_, ?_, ?_, ?_, ?_, ?_⟩
  · intro key i
    simp [RuleTable.patterns]
  · simp [RuleTable.patterns]
  · exact .refl _
  · simp
  · simp
  · simp

-- Whatever has been said to a table, refusals and repetitions included, its entries, its key map, its
-- four indexes and the numbers of the registrations fit together; and what the indexes hold once,
-- they hold for ever.
theorem consistent_after (calls : List TableCall) :
    (RuleTable.after calls).Consistent ∧ ∀ more : List TableCall,
      (RuleTable.after calls).filings.Subperm (RuleTable.after (calls ++ more)).filings := by
  obtain ⟨consistent, -⟩ := (consistent_empty .afterUniversal).answers calls
  refine ⟨consistent, fun more => ?_⟩
  rw [RuleTable.after, RuleTable.after, List.foldl_append]
  exact (consistent.answers more).2

end RuleTable
end XmlRules
