import Mathlib.Data.List.Nodup
import XmlRules.Proofs.StructuralMatch
import XmlRules.Proofs.TableIndexes
namespace XmlRules

theorem Standing.le_iff (s t : Standing) : s ≤ t ↔
    s.form < t.form ∨ s.form = t.form ∧ (s.length < t.length ∨ s.length = t.length ∧
      (s.anchor < t.anchor ∨ s.anchor = t.anchor ∧ s.since ≤ t.since)) := Iff.rfl

instance : Std.IsLinearOrder Standing where
  le_refl s := by
    rw [Standing.le_iff]
    omega
  le_trans s t u := by
    simp only [Standing.le_iff]
    omega
  le_antisymm s t := by
    cases s
    cases t
    simp only [Standing.le_iff, Standing.mk.injEq]
    omega
  le_total s t := by
    simp only [Standing.le_iff]
    omega

section Greatest
variable {α β : Type} [LE β] {atMost : α → α → Bool} {weight : α → β} {xs : List α}

theorem lastGreatest_eq_none_iff : lastGreatest atMost xs = none ↔ xs = [] := by
  cases xs with
  | nil => simp [lastGreatest]
  | cons x xs =>
    simp only [lastGreatest]
    split
    · simp
    · split <;> simp

theorem lastGreatest_some [Std.IsLinearOrder β]
    (agrees : xs.Pairwise fun x y => atMost x y = true ↔ weight x ≤ weight y)
    {y : α} (found : lastGreatest atMost xs = some y) :
    y ∈ xs ∧ ∀ x ∈ xs, weight x ≤ weight y := by
  induction xs generalizing y with
  | nil => simp [lastGreatest] at found
  | cons x xs ih =>
    obtain ⟨first, later⟩ := List.pairwise_cons.mp agrees
    rw [lastGreatest] at found
    cases rest : lastGreatest atMost xs with
    | none =>
      rw [lastGreatest_eq_none_iff] at rest
      subst rest
      simp only [lastGreatest, Option.some.injEq] at found
      subst found
      refine ⟨by simp, ?_⟩
      intro z member
      rw [List.mem_singleton.mp member]
      exact Std.le_refl _
    | some z =>
      obtain ⟨inside, upper⟩ := ih later rest
      simp only [rest] at found
      split at found
      · rename_i less
        cases found
        refine ⟨List.mem_cons_of_mem _ inside, ?_⟩
        intro w member
        rcases List.mem_cons.mp member with rfl | other
        · exact (first _ inside).mp less
        · exact upper w other
      · rename_i more
        cases found
        have above : weight z ≤ weight x := by
          rcases Std.le_total (a := weight x) (b := weight z) with less | above
          · exact absurd ((first z inside).mpr less) more
          · exact above
        refine ⟨by simp, ?_⟩
        intro w member
        rcases List.mem_cons.mp member with rfl | other
        · exact Std.le_refl _
        · exact Std.le_trans (upper w other) above

theorem greatest?_some [DecidableLE β] {x : α} (found : greatest? weight xs = some x) :
    x ∈ xs ∧ ∀ y ∈ xs, weight y ≤ weight x := by
  refine ⟨List.mem_of_find?_eq_some found, ?_⟩
  have upper := List.find?_some (p := fun x => xs.all fun y => weight y ≤ weight x) found
  intro y member
  exact of_decide_eq_true (List.all_eq_true.mp upper y member)

theorem lastGreatest_eq_greatest? [DecidableLE β] [Std.IsLinearOrder β] (agrees : xs.Pairwise fun x y =>
    (atMost x y = true ↔ weight x ≤ weight y) ∧ weight x ≠ weight y) :
    lastGreatest atMost xs = greatest? weight xs := by
  have distinct : (xs.map weight).Nodup := List.pairwise_map.mpr (agrees.imp And.right)
  cases found : lastGreatest atMost xs with
  | none =>
    rw [lastGreatest_eq_none_iff] at found
    rw [found]
    rfl
  | some y =>
    obtain ⟨inside, upper⟩ := lastGreatest_some (agrees.imp And.left) found
    cases other : greatest? weight xs with
    | none =>
      have refused := List.find?_eq_none.mp other y inside
      exact absurd (List.all_eq_true.mpr fun x member => decide_eq_true (upper x member)) refused
    | some z =>
      obtain ⟨member, above⟩ := greatest?_some other
      have same := Std.le_antisymm (above y inside) (upper z member)
      rw [List.inj_on_of_nodup_map distinct inside member same]

end Greatest

namespace Pattern
variable {ps : List Pattern}

-- Whatever does not look at the source text depends on the key alone.
theorem eq_of_twins {α : Type} (formed : ∀ p ∈ ps, p.Formed) {f : Pattern → α}
    (blind : ∀ (p : Pattern) (source : String), f { p with source } = f p) :
    ∀ p ∈ ps, ∀ q ∈ ps, p.key = q.key → f p = f q := by
  intro p left q right same
  rw [eq_of_key_eq (formed p left) (formed q right) same]
  exact blind q p.source

theorem greatest?_firsts {β : Type} [LE β] [DecidableLE β] {weight : Pattern → β}
    {kind : Pattern → Bool} (kinds : ∀ p ∈ ps, ∀ q ∈ ps, p.key = q.key → kind p = kind q)
    (weights : ∀ p ∈ ps, ∀ q ∈ ps, p.key = q.key → weight p = weight q) :
    greatest? weight ((firsts ps).filter kind) = greatest? weight (ps.filter kind) := by
  have scan : ∀ p : Pattern, (((firsts ps).filter kind).all fun q => weight q ≤ weight p) =
      (ps.filter kind).all fun q => weight q ≤ weight p := by
    intro p
    rw [Bool.eq_iff_iff, List.all_eq_true, List.all_eq_true]
    constructor
    · intro upper q member
      obtain ⟨inside, hit⟩ := List.mem_filter.mp member
      obtain ⟨first, there, same⟩ := exists_first inside
      have within := mem_of_mem_firsts there
      have like : kind first = true := (kinds first within q inside same).trans hit
      have bound := upper first (List.mem_filter.mpr ⟨there, like⟩)
      rwa [weights first within q inside same] at bound
    · intro upper q member
      obtain ⟨inside, hit⟩ := List.mem_filter.mp member
      exact upper q (List.mem_filter.mpr ⟨mem_of_mem_firsts inside, hit⟩)
  unfold greatest?
  simp only [scan]
  rw [List.find?_filter, List.find?_filter]
  apply find?_firsts
  intro p left q right same
  rw [kinds p left q right same, weights p left q right same]

-- Tails of one path are tails of one another, and the longer one has more bytes.
theorem eq_of_tails {l r cs : List Char} (left : l <:+ cs) (right : r <:+ cs)
    (same : Text.width l = Text.width r) : l = r := by
  have nested : ∀ l r : List Char, l <:+ r → Text.width l = Text.width r → l = r := by
    rintro l _ ⟨front, rfl⟩ same
    rw [Text.width_append] at same
    cases front with
    | nil => rfl
    | cons c cs =>
      have := c.utf8Size_pos
      simp only [Text.width] at same
      omega
  rcases List.suffix_or_suffix_of_suffix left right with shorter | longer
  · exact nested l r shorter same
  · exact (nested r l longer same.symm).symm

theorem utf8ByteSize_eq_width (s : String) : s.utf8ByteSize = Text.width s.toList := by
  have spread : ∀ cs : List Char, (String.ofList cs).utf8ByteSize = Text.width cs := by
    intro cs
    induction cs with
    | nil => rfl
    | cons c cs ih =>
      rw [String.ofList_cons, String.utf8ByteSize_append, String.utf8ByteSize_singleton, ih,
        Text.width]
  rw [← spread, String.ofList_toList]

variable {p q : Pattern} {path : String}

theorem isMatch_of_isTail (tail : p.isTail = true) :
    p.isMatch path = (path ≠ "" && Path.endsOnBoundary path p.fixed) := by
  simp only [isTail, Bool.and_eq_true, Bool.not_eq_true', beq_iff_eq] at tail
  simp [isMatch, fixedMatches, tail]

theorem fixed_of_tail (tail : p.isTail = true) (hit : p.isMatch path = true) :
    p.fixed.toList <:+ path.toList := by
  rw [isMatch_of_isTail tail, Bool.and_eq_true, Path.endsOnBoundary_iff] at hit
  obtain ⟨_, _, before, shape, _⟩ := hit
  exact ⟨before, shape.symm⟩

theorem key_of_tails (left : p.isTail = true) (right : q.isTail = true)
    (hitLeft : p.isMatch path = true) (hitRight : q.isMatch path = true)
    (same : p.specificity = q.specificity) : p.key = q.key := by
  unfold specificity at same
  rw [utf8ByteSize_eq_width, utf8ByteSize_eq_width] at same
  have fixed := String.toList_inj.mp
    (eq_of_tails (fixed_of_tail left hitLeft) (fixed_of_tail right hitRight) same)
  simp only [isTail, Bool.and_eq_true, Bool.not_eq_true', beq_iff_eq] at left right
  simp [key, left, right, fixed]

-- A tail ends in the last segment of every path it matches, so the index finds it there.
theorem lastFixedSegment_of_tail {names : List QName} (clean : ∀ q ∈ names, q.Clean)
    (formed : p.Formed) (tail : p.isTail = true)
    (hit : p.isMatch (Trail.along names).path = true) :
    p.lastFixedSegment = Path.lastSegment (Trail.along names).path := by
  rw [isMatch_of_isTail tail, Bool.and_eq_true, Path.endsOnBoundary_iff] at hit
  obtain ⟨_, _, before, shape, rfl | ⟨outer, rfl⟩⟩ := hit
  · rw [List.nil_append, String.toList_inj] at shape
    rw [lastFixedSegment, shape]
  · rw [List.append_assoc, List.singleton_append] at shape
    have outside := outside_before_tail clean shape formed.firstBrace
    unfold lastFixedSegment
    rcases Path.split_last false p.fixed.toList with whole | ⟨l, r, within, clear, last⟩
    · rw [Path.lastSegment_of_whole _ whole, Path.lastSegment_of_last _ _ _ shape outside whole,
        String.ofList_toList]
    · have further : (Trail.along names).path.toList = (outer ++ '/' :: l) ++ '/' :: r := by
        rw [shape, within]
        simp
      have beyond : Path.inUriAfter false (outer ++ '/' :: l) = false := by
        simp [outside, clear]
      rw [Path.lastSegment_of_last _ _ _ within clear last,
        Path.lastSegment_of_last _ _ _ further beyond last]

theorem isLE_compareThrice (a b c d e f : Nat) :
    ((compare a b).then ((compare c d).then (compare e f))).isLE = true ↔
      a < b ∨ a = b ∧ (c < d ∨ c = d ∧ e ≤ f) := by
  rw [Ordering.isLE_then_iff_or, Ordering.isLE_then_iff_or, Nat.compare_eq_lt, Nat.compare_eq_eq,
    Nat.compare_eq_lt, Nat.compare_eq_eq, Nat.isLE_compare]

theorem standing_le_iff {l : Ledger} (later : l.firstUnder p.key < l.firstUnder q.key) :
    (p.compareWildcards q).isLE = true ↔ l.standing p ≤ l.standing q := by
  rw [Standing.le_iff, compareWildcards, isLE_compareThrice]
  unfold Ledger.standing
  dsimp only
  omega

end Pattern

namespace Ledger
variable {l : Ledger} {path : String}

theorem hit_of_twins (formed : ∀ p ∈ l.patterns, p.Formed) {kind : Pattern → Bool}
    (blind : ∀ (p : Pattern) (source : String), kind { p with source } = kind p) :
    ∀ p ∈ l.patterns, ∀ q ∈ l.patterns, p.key = q.key →
      (kind p && p.isMatch path) = (kind q && q.isMatch path) := by
  apply Pattern.eq_of_twins formed
  intro p source
  rw [blind]
  rfl

theorem whole?_eq (formed : ∀ p ∈ l.patterns, p.Formed) (path : String) :
    l.whole? path = (Pattern.firsts l.patterns).find? fun p => p.isWhole && p.fixed == path := by
  apply Eq.symm
  apply Pattern.find?_firsts
  exact Pattern.eq_of_twins formed fun _ _ => rfl

theorem longestTail?_eq (formed : ∀ p ∈ l.patterns, p.Formed) (path : String) :
    l.longestTail? path = lastGreatest (fun p q => p.specificity ≤ q.specificity)
      ((Pattern.firsts l.patterns).filter fun p => p.isTail && p.isMatch path) := by
  rw [longestTail?, hits, ← Pattern.greatest?_firsts (hit_of_twins formed fun _ _ => rfl)
    (Pattern.eq_of_twins formed fun _ _ => rfl)]
  apply Eq.symm
  apply lastGreatest_eq_greatest?
  refine ((Pattern.firsts_distinct l.patterns).filter _).imp_of_mem ?_
  intro p q left right distinct
  have hitLeft := (List.mem_filter.mp left).2
  have hitRight := (List.mem_filter.mp right).2
  rw [Bool.and_eq_true] at hitLeft hitRight
  refine ⟨decide_eq_true_iff, ?_⟩
  intro same
  exact distinct (Pattern.key_of_tails hitLeft.1 hitRight.1 hitLeft.2 hitRight.2 same)

theorem highestWildcard?_eq (formed : ∀ p ∈ l.patterns, p.Formed) (path : String) :
    l.highestWildcard? path = lastGreatest (fun p q => (p.compareWildcards q).isLE)
      ((Pattern.firsts l.patterns).filter fun p => p.isWildcard && p.isMatch path) := by
  have standings : ∀ p ∈ l.patterns, ∀ q ∈ l.patterns, p.key = q.key →
      l.standing p = l.standing q := by
    intro p left q right same
    have twins : (p.form, p.fixed, p.anchor) = (q.form, q.fixed, q.anchor) :=
      Pattern.eq_of_twins formed (f := fun p => (p.form, p.fixed, p.anchor)) (fun _ _ => rfl)
        p left q right same
    simp only [Prod.mk.injEq] at twins
    simp [standing, Pattern.specificity, twins, same]
  rw [highestWildcard?, hits, ← Pattern.greatest?_firsts (hit_of_twins formed fun _ _ => rfl) standings]
  apply Eq.symm
  apply lastGreatest_eq_greatest?
  refine ((Pattern.firsts_ordered l.patterns).filter _).imp ?_
  intro p q less
  refine ⟨Pattern.standing_le_iff less, ?_⟩
  intro same
  simp only [standing, Standing.mk.injEq] at same
  exact absurd same.2.2.2 (Nat.ne_of_lt less)

end Ledger
end XmlRules
