import XmlRules.Proofs.Precedence
namespace XmlRules

namespace RuleTable

theorem entriesAt_findIdxs (t : RuleTable) (ps : List Pattern) (entry : Pattern → RuleEntry)
    (entries : t.entries = ps.map entry) (kind : Pattern → Bool) :
    t.entriesAt (ps.findIdxs kind) = (ps.filter kind).map entry := by
  have scan : ∀ rest before : List Pattern, ps = before ++ rest →
      t.entriesAt (rest.findIdxs kind before.length) = (rest.filter kind).map entry := by
    intro rest
    induction rest with
    | nil => exact fun _ _ => rfl
    | cons p rest ih =>
      intro before shape
      have later := ih (before ++ [p]) (by simp [shape])
      rw [List.length_append, List.length_singleton] at later
      have here : t.entries[before.length]? = some (entry p) := by
        simp [entries, shape]
      rw [List.findIdxs_cons]
      cases hit : kind p with
      | true =>
        rw [if_pos rfl, List.filter_cons_of_pos hit, List.map_cons, ← later]
        simp [entriesAt, here]
      | false =>
        rw [if_neg (by simp), List.filter_cons_of_neg (by simp [hit]), later]
  exact scan ps [] rfl

variable {t : RuleTable} {l : Ledger}

theorem Holds.matchesAt (holds : t.Holds l) (kind : Pattern → Bool) (path : String) :
    t.matchesAt ((Pattern.firsts l.patterns).findIdxs kind) path =
      ((Pattern.firsts l.patterns).filter fun p => kind p && p.isMatch path).map l.entryOf := by
  rw [RuleTable.matchesAt, entriesAt_findIdxs t _ _ holds.entries, List.filter_map, List.filter_filter]
  congr 1
  apply List.filter_congr
  intro p _
  exact Bool.and_comm _ _

theorem lastGreatest_map {α β : Type} (f : α → β) (atMost : β → β → Bool) (xs : List α) :
    lastGreatest atMost (xs.map f) = (lastGreatest (fun x y => atMost (f x) (f y)) xs).map f := by
  induction xs with
  | nil => rfl
  | cons x xs ih =>
    rw [List.map_cons, lastGreatest, lastGreatest, ih]
    cases lastGreatest (fun x y => atMost (f x) (f y)) xs with
    | none => rfl
    | some y =>
      simp only [Option.map_some]
      split <;> rfl

theorem Holds.absolute (holds : t.Holds l) (formed : ∀ p ∈ l.patterns, p.Formed) (path : String) :
    (t.absolute[path]?.bind fun i => t.entries[i]?) = (l.whole? path).map l.entryOf := by
  rw [holds.indexes.absolute, l.whole?_eq formed, List.find?_eq_bind_findIdx?_getElem?, holds.entries]
  simp only [List.getElem?_map]
  cases (Pattern.firsts l.patterns).findIdx? fun p => p.isWhole && p.fixed == path <;> rfl

theorem Holds.tails (holds : t.Holds l) (formed : ∀ p ∈ l.patterns, p.Formed) {names : List QName}
    (clean : ∀ q ∈ names, q.Clean) :
    lastGreatest (fun e f => e.pattern.specificity ≤ f.pattern.specificity)
        (t.matchesAt (t.relative.getD (Path.lastSegment (Trail.along names).path) [])
          (Trail.along names).path) =
      (l.longestTail? (Trail.along names).path).map l.entryOf := by
  have found : ((Pattern.firsts l.patterns).filter fun p =>
      (p.isTail && p.lastFixedSegment == Path.lastSegment (Trail.along names).path) &&
        p.isMatch (Trail.along names).path) =
      (Pattern.firsts l.patterns).filter fun p => p.isTail && p.isMatch (Trail.along names).path := by
    apply List.filter_congr
    intro p member
    rw [Bool.eq_iff_iff]
    simp only [Bool.and_eq_true, beq_iff_eq]
    constructor
    · rintro ⟨⟨tail, _⟩, hit⟩
      exact ⟨tail, hit⟩
    · rintro ⟨tail, hit⟩
      have valid := formed p (Pattern.mem_of_mem_firsts member)
      exact ⟨⟨tail, Pattern.lastFixedSegment_of_tail clean valid tail hit⟩, hit⟩
  rw [holds.indexes.relative, holds.matchesAt, found, lastGreatest_map, l.longestTail?_eq formed]
  rfl

theorem Holds.wildcards (holds : t.Holds l) (formed : ∀ p ∈ l.patterns, p.Formed) (path : String) :
    lastGreatest (fun e f => (e.pattern.compareWildcards f.pattern).isLE)
        (t.matchesAt t.wildcards path) =
      (l.highestWildcard? path).map l.entryOf := by
  rw [holds.indexes.wildcards, holds.matchesAt, lastGreatest_map, l.highestWildcard?_eq formed]
  rfl

theorem Holds.ordinary? (holds : t.Holds l) (formed : ∀ p ∈ l.patterns, p.Formed)
    {names : List QName} (clean : ∀ q ∈ names, q.Clean) :
    t.ordinary? (Trail.along names).path = (l.winner? (Trail.along names).path).map l.entryOf := by
  unfold RuleTable.ordinary? Ledger.winner?
  rw [holds.absolute formed, holds.tails formed clean, holds.wildcards formed]
  cases l.whole? (Trail.along names).path with
  | some p => rfl
  | none =>
    cases l.longestTail? (Trail.along names).path with
    | some p => rfl
    | none => rfl

end RuleTable

namespace Stamped

theorem insert_perm (s : Stamped) (rs : List Stamped) : (insert s rs).Perm (s :: rs) := by
  induction rs with
  | nil => exact .refl _
  | cons r rs ih =>
    rw [insert]
    split
    · exact .refl _
    · exact (ih.cons r).trans (.swap s r rs)

theorem sort_perm (rs : List Stamped) : (sort rs).Perm rs := by
  induction rs with
  | nil => exact .refl _
  | cons r rs ih => exact (insert_perm r (sort rs)).trans (ih.cons r)

theorem insert_ordered (s : Stamped) {rs : List Stamped}
    (ordered : rs.Pairwise fun r q => r.stamp ≤ q.stamp) :
    (insert s rs).Pairwise fun r q => r.stamp ≤ q.stamp := by
  induction rs with
  | nil => simp [insert]
  | cons r rs ih =>
    obtain ⟨first, later⟩ := List.pairwise_cons.mp ordered
    rw [insert]
    split
    · rename_i less
      refine List.pairwise_cons.mpr ⟨?_, ordered⟩
      intro q member
      rcases List.mem_cons.mp member with rfl | other
      · exact less
      · exact Nat.le_trans less (first q other)
    · rename_i more
      refine List.pairwise_cons.mpr ⟨?_, ih later⟩
      intro q member
      rcases List.mem_cons.mp ((insert_perm s rs).mem_iff.mp member) with rfl | other
      · omega
      · exact first q other

theorem sort_ordered (rs : List Stamped) : (sort rs).Pairwise fun r q => r.stamp ≤ q.stamp := by
  induction rs with
  | nil => exact .nil
  | cons r rs ih => exact insert_ordered r ih

theorem sort_eq {rs ordered : List Stamped} (perm : rs.Perm ordered)
    (strict : ordered.Pairwise fun r q => r.stamp < q.stamp) : sort rs = ordered := by
  refine List.Perm.eq_of_pairwise ?_ (sort_ordered rs) (strict.imp Nat.le_of_lt)
    ((sort_perm rs).trans perm)
  intro r q left right less more
  have member := perm.mem_iff.mp ((sort_perm rs).mem_iff.mp left)
  have distinct : (ordered.map Stamped.stamp).Nodup :=
    List.pairwise_map.mpr (strict.imp Nat.ne_of_lt)
  exact List.inj_on_of_nodup_map distinct member right (Nat.le_antisymm less more)

end Stamped

-- What is gathered key by key is what is gathered at once.
theorem flatMap_filter_perm {α κ : Type} [DecidableEq κ] (key : α → κ) (xs : List α) {keys : List κ}
    (distinct : keys.Nodup) :
    (keys.flatMap fun k => xs.filter fun x => key x = k).Perm (xs.filter fun x => key x ∈ keys) := by
  induction keys with
  | nil => simp
  | cons k keys ih =>
    obtain ⟨fresh, rest⟩ := List.nodup_cons.mp distinct
    have parts := List.filter_append_perm (fun x => decide (key x = k))
      (xs.filter fun x => key x ∈ k :: keys)
    have here : ((xs.filter fun x => key x ∈ k :: keys).filter fun x => key x = k) =
        xs.filter fun x => key x = k := by
      rw [List.filter_filter]
      apply List.filter_congr
      intro x _
      by_cases same : key x = k <;> simp [same]
    have there : ((xs.filter fun x => key x ∈ k :: keys).filter fun x => !decide (key x = k)) =
        xs.filter fun x => key x ∈ keys := by
      rw [List.filter_filter]
      apply List.filter_congr
      intro x _
      by_cases same : key x = k
      · simp [same, fresh]
      · simp [same]
    rw [here, there] at parts
    rw [List.flatMap_cons]
    exact ((ih rest).append_left _).trans parts

namespace Ledger

theorem patterns_stamped (l : Ledger) : l.stamped.map Prod.fst = l.patterns := by
  rw [patterns, ← List.zipIdx_map_fst 0 l.rules, stamped, List.map_map, List.map_map]
  rfl

theorem rules_stamped (l : Ledger) : l.stamped.map (fun r => (r.1, r.2.action)) = l.rules := by
  rw [stamped, List.map_map]
  exact List.zipIdx_map_fst 0 l.rules

theorem stamped_ordered (l : Ledger) : l.stamped.Pairwise fun r s => r.2.stamp < s.2.stamp := by
  have numbers : (l.rules.zipIdx.map Prod.snd).Pairwise (· < ·) := by
    rw [List.zipIdx_map_snd]
    exact List.pairwise_lt_range'
  exact List.pairwise_map.mpr (List.pairwise_map.mp numbers)

theorem actions_stamped (l : Ledger) (wanted : Pattern → Bool) :
    ((l.stamped.filter fun r => wanted r.1).map Prod.snd).map Stamped.action =
      (l.rules.filter fun r => wanted r.1).map Prod.snd := by
  rw [← rules_stamped, List.filter_map, List.map_map, List.map_map]
  rfl

theorem actions_entryOf (l : Ledger) (p : Pattern) : (l.entryOf p).actions = l.actionsUnder p.key :=
  l.actions_stamped fun q => q.key = p.key

end Ledger

namespace RuleTable
variable {t : RuleTable} {l : Ledger}

theorem Holds.universalHandlers (holds : t.Holds l) (formed : ∀ p ∈ l.patterns, p.Formed)
    (path : String) : t.universalHandlers path =
      (l.stamped.filter fun r => r.1.universal && r.1.isMatch path).map Prod.snd := by
  let wanted := (Pattern.firsts l.patterns).filter fun p => p.universal && p.isMatch path
  have distinct : (wanted.map Pattern.key).Nodup :=
    List.pairwise_map.mpr ((Pattern.firsts_distinct l.patterns).filter _)
  have gathered := flatMap_filter_perm (fun r : Pattern × Stamped => r.1.key) l.stamped distinct
  have covered : (l.stamped.filter fun r => r.1.key ∈ wanted.map Pattern.key) =
      l.stamped.filter fun r => r.1.universal && r.1.isMatch path := by
    apply List.filter_congr
    intro r member
    have known : r.1 ∈ l.patterns := by
      rw [← l.patterns_stamped]
      exact List.mem_map_of_mem member
    have twins : ∀ p ∈ l.patterns, ∀ q ∈ l.patterns, p.key = q.key →
        (p.universal && p.isMatch path) = (q.universal && q.isMatch path) :=
      Ledger.hit_of_twins formed fun _ _ => rfl
    rw [Bool.eq_iff_iff, decide_eq_true_iff, List.mem_map]
    constructor
    · rintro ⟨p, inside, same⟩
      obtain ⟨first, hit⟩ := List.mem_filter.mp inside
      rwa [← twins p (Pattern.mem_of_mem_firsts first) r.1 known same]
    · intro hit
      obtain ⟨p, first, same⟩ := Pattern.exists_first known
      have like := twins p (Pattern.mem_of_mem_firsts first) r.1 known same
      exact ⟨p, List.mem_filter.mpr ⟨first, like.trans hit⟩, same⟩
  rw [covered] at gathered
  have handlers : (t.matchesAt t.universal path).flatMap RuleEntry.handlers =
      ((wanted.map Pattern.key).flatMap fun key =>
        l.stamped.filter fun r => r.1.key = key).map Prod.snd := by
    rw [holds.indexes.universal, holds.matchesAt, List.flatMap_map, List.flatMap_map,
      List.map_flatMap]
    simp only [Ledger.handlers_entryOf]
    rfl
  rw [RuleTable.universalHandlers, handlers]
  refine Stamped.sort_eq (gathered.map Prod.snd) (List.pairwise_map.mpr ?_)
  exact l.stamped_ordered.filter _

theorem unseen_eq (seen as : List ActionId) :
    unseen seen as = (as.filter fun a => a ∉ seen).eraseDups := by
  induction as generalizing seen with
  | nil => rfl
  | cons a as ih =>
    rw [unseen]
    by_cases known : a ∈ seen
    · rw [if_pos known, ih, List.filter_cons_of_neg (by simp [known])]
    · rw [if_neg known, ih, List.filter_cons_of_pos (by simp [known]), List.eraseDups_cons,
        List.filter_filter]
      congr 2
      apply List.filter_congr
      intro b _
      by_cases same : b = a <;> simp [same]

-- Every history and every path that a document can have: looking things up in the indexes gives what
-- a scan over the log of registrations gives.
theorem matching_eq_scan (calls : List TableCall) {names : List QName}
    (clean : ∀ q ∈ names, q.Clean) :
    (RuleTable.after calls).matching (Trail.along names).path =
      (Ledger.after calls).matching (Trail.along names).path := by
  have holds := holds_after calls
  have formed := Ledger.formed_after calls
  generalize RuleTable.after calls = t at holds
  generalize Ledger.after calls = l at holds formed
  have universal : (t.universalHandlers (Trail.along names).path).map Stamped.action =
      l.universalActions (Trail.along names).path := by
    rw [holds.universalHandlers formed]
    exact l.actions_stamped fun p => p.universal && p.isMatch (Trail.along names).path
  simp only [RuleTable.matching, holds.ordinary? formed clean, universal, unseen_eq, holds.fallback,
    holds.mandatory, holds.placement]
  cases winner : l.winner? (Trail.along names).path with
  | some p =>
    have chosen : l.chosen (Trail.along names).path = (l.entryOf p).actions := by
      simp [Ledger.chosen, winner, l.actions_entryOf]
    simp only [Option.map_some, ← chosen]
    rfl
  | none =>
    have chosen : l.chosen (Trail.along names).path =
        if (l.universalActions (Trail.along names).path).isEmpty then l.fallback else [] := by
      simp [Ledger.chosen, winner]
    simp only [Option.map_none, ← chosen]
    rfl

theorem matching_eq_scan_two_spellings :
    let calls : List TableCall :=
      [.register (.declare "p" "urn:a/b"), .register (.rule "p:x" ⟨0⟩), .register (.rule "!*" ⟨3⟩),
        .register (.rule "q:x" ⟨9⟩), .register (.rule "*/\x7burn:a/b\x7dx/" ⟨1⟩),
        .register (.rule "/r/?" ⟨2⟩), .register (.rule "! p:x" ⟨1⟩), .register (.fallback ⟨4⟩),
        .register (.mandatory ⟨3⟩), .place .beforeUniversal]
    let names : List QName := [⟨"", "r"⟩, ⟨"urn:a/b", "x"⟩]
    (∀ q ∈ names, q.Clean) ∧
      (RuleTable.after calls).matching (Trail.along names).path =
        (Ledger.after calls).matching (Trail.along names).path ∧
      (Ledger.after calls).matching (Trail.along names).path = [⟨0⟩, ⟨1⟩, ⟨3⟩, ⟨3⟩] := by
  intro calls names
  have clean : ∀ q ∈ names, q.Clean := by decide
  exact ⟨clean, matching_eq_scan calls clean, by decide +kernel⟩

end RuleTable
end XmlRules
