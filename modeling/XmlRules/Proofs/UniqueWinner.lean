import XmlRules.Proofs.FullScan
namespace XmlRules

def maxima {α : Type} (atMost : α → α → Bool) (xs : List α) : List α :=
  xs.filter fun x => xs.all fun y => atMost y x

section Maxima
variable {α : Type} {atMost : α → α → Bool} {xs : List α}

theorem mem_maxima {x : α} : x ∈ maxima atMost xs ↔ x ∈ xs ∧ ∀ y ∈ xs, atMost y x = true := by
  rw [maxima, List.mem_filter, List.all_eq_true]

theorem maxima_map {β : Type} (f : β → α) (ys : List β) :
    maxima atMost (ys.map f) = (maxima (fun x y => atMost (f x) (f y)) ys).map f := by
  simp only [maxima, List.filter_map, List.all_map]
  rfl

theorem maxima_congr {other : α → α → Bool} (same : ∀ x ∈ xs, ∀ y ∈ xs, atMost x y = other x y) :
    maxima atMost xs = maxima other xs := by
  apply List.filter_congr
  intro x member
  rw [Bool.eq_iff_iff, List.all_eq_true, List.all_eq_true]
  exact forall₂_congr fun y inside => by rw [same y inside x member]

theorem maxima_filter {kind : α → Bool} (some : ∃ x ∈ xs, kind x = true)
    (above : ∀ x ∈ xs, kind x = true → ∀ y ∈ xs, kind y = false →
      atMost y x = true ∧ atMost x y = false) :
    maxima atMost xs = maxima atMost (xs.filter kind) := by
  rw [maxima, maxima, List.filter_filter]
  apply List.filter_congr
  intro x member
  rw [Bool.eq_iff_iff, Bool.and_eq_true, List.all_eq_true, List.all_eq_true]
  constructor
  · intro upper
    refine ⟨fun y inside => upper y (List.mem_filter.mp inside).1, ?_⟩
    cases verdict : kind x with
    | true => rfl
    | false =>
      obtain ⟨y, inside, high⟩ := some
      exact absurd (upper y inside) (by simp [(above y inside high x member verdict).2])
  · rintro ⟨upper, high⟩ y inside
    cases verdict : kind y with
    | true => exact upper y (List.mem_filter.mpr ⟨inside, verdict⟩)
    | false => exact (above x member high y inside verdict).1

variable (total : ∀ x y, atMost x y = true ∨ atMost y x = true)
  (trans : ∀ x y z, atMost x y = true → atMost y z = true → atMost x z = true)
include total trans

theorem lastGreatest_eq_getLast? (xs : List α) :
    lastGreatest atMost xs = (maxima atMost xs).getLast? := by
  induction xs with
  | nil => rfl
  | cons x xs ih =>
    have itself : atMost x x = true := (total x x).elim id id
    rw [lastGreatest]
    cases rest : lastGreatest atMost xs with
    | none =>
      rw [lastGreatest_eq_none_iff] at rest
      subst rest
      simp [maxima, itself]
    | some y =>
      rw [ih] at rest
      obtain ⟨inside, upper⟩ := mem_maxima.mp (List.mem_of_getLast? rest)
      have split : maxima atMost (x :: xs) =
          (if xs.all fun z => atMost z x then [x] else []) ++
            (maxima atMost xs).filter fun z => atMost x z := by
        rw [maxima, maxima, List.filter_cons, List.filter_filter]
        simp only [List.all_cons, itself, Bool.true_and]
        split <;> rfl
      rw [split]
      dsimp only
      by_cases less : atMost x y = true
      · have kept : ((maxima atMost xs).filter fun z => atMost x z) = maxima atMost xs := by
          rw [List.filter_eq_self]
          intro z member
          exact trans x y z less ((mem_maxima.mp member).2 y inside)
        rw [if_pos less, kept, List.getLast?_append, rest]
        rfl
      · have more := (total x y).resolve_left less
        have first : xs.all (fun z => atMost z x) = true :=
          List.all_eq_true.mpr fun z member => trans z y x (upper z member) more
        have none : ((maxima atMost xs).filter fun z => atMost x z) = [] := by
          rw [List.filter_eq_nil_iff]
          intro z member above
          exact less (trans x z y above (upper z (mem_maxima.mp member).1))
        rw [if_neg less, if_pos first, none]
        rfl

theorem maxima_eq_nil_iff : maxima atMost xs = [] ↔ xs = [] := by
  rw [← List.getLast?_eq_none_iff, ← lastGreatest_eq_getLast? total trans,
    lastGreatest_eq_none_iff]

end Maxima

-- Exact patterns stand highest, and of them the absolute ones; then the wildcards by their form.
def Form.level : Form → Anchor → Nat
  | .exact, .absolute => 4
  | form, _ => form.rank

theorem Form.level_inj {f g : Form} {anchor : Anchor} (same : f.level anchor = g.level anchor) :
    f = g := by
  cases f <;> cases g <;> cases anchor <;> simp_all [Form.level, Form.rank]

namespace Pattern

def level (p : Pattern) : Nat := p.form.level p.anchor

-- The order of precedence: by level, then by the length of the fixed part, then absolute over
-- relative.
def precedence (p q : Pattern) : Ordering :=
  (compare p.level q.level).then
    ((compare p.specificity q.specificity).then (compare p.anchor.rank q.anchor.rank))

variable {p q : Pattern} {path : String}

theorem precedence_isLE_iff (p q : Pattern) : (p.precedence q).isLE = true ↔
    p.level < q.level ∨ p.level = q.level ∧ (p.specificity < q.specificity ∨
      p.specificity = q.specificity ∧ p.anchor.rank ≤ q.anchor.rank) :=
  isLE_compareThrice _ _ _ _ _ _

theorem precedence_total (p q : Pattern) :
    (p.precedence q).isLE = true ∨ (q.precedence p).isLE = true := by
  rw [precedence_isLE_iff, precedence_isLE_iff]
  omega

theorem precedence_trans (p q r : Pattern) (left : (p.precedence q).isLE = true)
    (right : (q.precedence r).isLE = true) : (p.precedence r).isLE = true := by
  rw [precedence_isLE_iff] at left right ⊢
  omega

theorem eq_of_heads {l r cs : List Char} (left : l <+: cs) (right : r <+: cs)
    (same : Text.width l = Text.width r) : l = r := by
  have nested : ∀ l r : List Char, l <+: r → Text.width l = Text.width r → l = r := by
    rintro l _ ⟨behind, rfl⟩ same
    rw [Text.width_append] at same
    cases behind with
    | nil => rw [List.append_nil]
    | cons c cs =>
      have := c.utf8Size_pos
      simp only [Text.width] at same
      omega
  rcases List.prefix_or_prefix_of_prefix left right with shorter | longer
  · exact nested l r shorter same
  · exact (nested r l longer same.symm).symm

theorem head_of_ancestor {outer : String} (member : outer ∈ Path.ancestors path) :
    outer.toList <+: path.toList := by
  obtain ⟨offset, -, rfl⟩ := List.mem_map.mp member
  rw [Path.upTo, String.toList_ofList]
  exact ⟨_, Text.takeBytes_append_dropBytes offset path.toList⟩

-- Where two fixed parts name one and the same element, they are tails of one path or all of it.
theorem fixed_of_one_host {host : String} (hitLeft : p.fixedMatches host = true)
    (hitRight : q.fixedMatches host = true) (anchor : p.anchor = q.anchor)
    (length : p.specificity = q.specificity) : p.fixed = q.fixed := by
  unfold fixedMatches at hitLeft hitRight
  rw [← anchor] at hitRight
  cases root : p.anchor with
  | absolute =>
    simp only [root, beq_iff_eq] at hitLeft hitRight
    exact hitLeft.symm.trans hitRight
  | relative =>
    simp only [root, Path.endsOnBoundary_iff] at hitLeft hitRight
    obtain ⟨-, before, shape, -⟩ := hitLeft
    obtain ⟨-, beforeToo, shapeToo, -⟩ := hitRight
    unfold specificity at length
    rw [utf8ByteSize_eq_width, utf8ByteSize_eq_width] at length
    exact String.toList_inj.mp (eq_of_tails ⟨before, shape.symm⟩ ⟨beforeToo, shapeToo.symm⟩ length)

theorem fixed_of_ancestors (root : p.anchor = .absolute) (rootToo : q.anchor = .absolute)
    (hitLeft : (Path.ancestors path).any p.fixedMatches = true)
    (hitRight : (Path.ancestors path).any q.fixedMatches = true)
    (length : p.specificity = q.specificity) : p.fixed = q.fixed := by
  have head : ∀ r : Pattern, r.anchor = .absolute →
      (Path.ancestors path).any r.fixedMatches = true → r.fixed.toList <+: path.toList := by
    intro r root hit
    obtain ⟨outer, member, same⟩ := List.any_eq_true.mp hit
    simp only [fixedMatches, root, beq_iff_eq] at same
    rw [← same]
    exact head_of_ancestor member
  unfold specificity at length
  rw [utf8ByteSize_eq_width, utf8ByteSize_eq_width] at length
  exact String.toList_inj.mp (eq_of_heads (head p root hitLeft) (head q rootToo hitRight) length)

-- What may tie: patterns that may name different ancestors of the element.
def MayTie (p q : Pattern) : Prop :=
  p.form = .anyDescendant ∧ p.anchor = .relative ∧ q.form = .anyDescendant ∧ q.anchor = .relative ∧
    p.specificity = q.specificity ∧ p.fixed ≠ q.fixed

theorem key_or_mayTie (formedLeft : p.Formed) (formedRight : q.Formed) (left : p.universal = false)
    (right : q.universal = false) (hitLeft : p.isMatch path = true) (hitRight : q.isMatch path = true)
    (upper : (p.precedence q).isLE = true) (lower : (q.precedence p).isLE = true) :
    p.key = q.key ∨ MayTie p q := by
  rw [precedence_isLE_iff] at upper lower
  have length : p.specificity = q.specificity := by omega
  have anchor : p.anchor = q.anchor := by
    have ranks : p.anchor.rank = q.anchor.rank := by omega
    cases left : p.anchor <;> cases right : q.anchor <;> simp_all [Anchor.rank]
  have form : p.form = q.form := by
    have levels : p.level = q.level := by omega
    unfold level at levels
    rw [anchor] at levels
    exact Form.level_inj levels
  have alike : p.fixed = q.fixed → p.key = q.key := by
    intro fixed
    unfold key
    rw [left, right, form, anchor, fixed]
  simp only [isMatch, Bool.and_eq_true] at hitLeft hitRight
  cases kind : p.form with
  | exact =>
    simp only [kind, ← form] at hitLeft hitRight
    exact .inl (alike (fixed_of_one_host hitLeft.2 hitRight.2 anchor length))
  | anyChild =>
    simp only [kind, ← form, Option.any_eq_true] at hitLeft hitRight
    obtain ⟨-, parent, found, hit⟩ := hitLeft
    obtain ⟨-, parentToo, foundToo, hitToo⟩ := hitRight
    rw [found, Option.some.injEq] at foundToo
    subst foundToo
    exact .inl (alike (fixed_of_one_host hit hitToo anchor length))
  | anyDescendant =>
    simp only [kind, ← form] at hitLeft hitRight
    cases root : p.anchor with
    | absolute =>
      exact .inl (alike (fixed_of_ancestors root (anchor ▸ root) hitLeft.2 hitRight.2 length))
    | relative =>
      by_cases fixed : p.fixed = q.fixed
      · exact .inl (alike fixed)
      · exact .inr ⟨kind, root, form ▸ kind, anchor ▸ root, length, fixed⟩
  | everything =>
    have empty := (formedLeft.bare kind).2
    have emptyToo := (formedRight.bare (form ▸ kind)).2
    exact .inl (alike (empty.trans emptyToo.symm))

theorem ordinary_of_isWhole (whole : p.isWhole = true) : p.universal = false := by
  simp only [isWhole, Bool.and_eq_true, Bool.not_eq_true'] at whole
  exact whole.1

theorem ordinary_of_isTail (tail : p.isTail = true) : p.universal = false := by
  simp only [isTail, Bool.and_eq_true, Bool.not_eq_true'] at tail
  exact tail.1

theorem ordinary_of_isWildcard (wildcard : p.isWildcard = true) : p.universal = false := by
  simp only [isWildcard, Bool.and_eq_true, Bool.not_eq_true'] at wildcard
  exact wildcard.1

theorem precedence_tails (left : p.isTail = true) (right : q.isTail = true) :
    (p.precedence q).isLE = decide (p.specificity ≤ q.specificity) := by
  simp only [isTail, Bool.and_eq_true, beq_iff_eq] at left right
  rw [Bool.eq_iff_iff, precedence_isLE_iff, decide_eq_true_iff, level, level, left.2.1, left.2.2,
    right.2.1, right.2.2]
  omega

theorem precedence_wildcards (left : p.isWildcard = true) (right : q.isWildcard = true) :
    p.precedence q = p.compareWildcards q := by
  have rank : ∀ r : Pattern, r.isWildcard = true → r.level = r.form.rank := by
    intro r wildcard
    simp only [isWildcard, Bool.and_eq_true, bne_iff_ne] at wildcard
    unfold level
    cases form : r.form <;> simp_all [Form.level]
  rw [precedence, rank p left, rank q right]
  rfl

theorem isWhole_iff (ordinary : p.universal = false) : p.isWhole = true ↔ p.level = 4 := by
  unfold isWhole level
  cases form : p.form <;> cases anchor : p.anchor <;> simp_all [Form.level, Form.rank]

theorem isTail_iff (ordinary : p.universal = false) : p.isTail = true ↔ p.level = 3 := by
  unfold isTail level
  cases form : p.form <;> cases anchor : p.anchor <;> simp_all [Form.level, Form.rank]

theorem isWildcard_iff (ordinary : p.universal = false) : p.isWildcard = true ↔ p.level < 3 := by
  unfold isWildcard level
  cases form : p.form <;> cases anchor : p.anchor <;> simp_all [Form.level, Form.rank]

theorem level_le (p : Pattern) : p.level ≤ 4 := by
  unfold level
  cases p.form <;> cases p.anchor <;> simp [Form.level, Form.rank]

theorem whole_isMatch (formed : p.Formed) (whole : p.isWhole = true) :
    p.isMatch path = (p.fixed == path) := by
  simp only [isWhole, Bool.and_eq_true, Bool.not_eq_true', beq_iff_eq] at whole
  obtain ⟨-, form, anchor⟩ := whole
  have head := formed.head_anchored (by simp [form])
  have some : p.fixed ≠ "" := by
    intro empty
    simp [anchored, anchor, empty] at head
  simp only [isMatch, fixedMatches, form, anchor]
  rw [Bool.eq_iff_iff]
  simp only [Bool.and_eq_true, decide_eq_true_eq, beq_iff_eq]
  constructor
  · exact fun hit => hit.2.symm
  · rintro rfl
    exact ⟨some, rfl⟩

end Pattern

namespace Ledger
variable {l : Ledger} {path : String}

-- The ordinary patterns that match, each key once and in the order in which the keys came up.
def rivals (l : Ledger) (path : String) : List Pattern :=
  (Pattern.firsts l.patterns).filter fun p => !p.universal && p.isMatch path

def best (l : Ledger) (path : String) : List Pattern :=
  maxima (fun p q => (p.precedence q).isLE) (l.rivals path)

theorem mem_rivals {p : Pattern} : p ∈ l.rivals path ↔
    p ∈ Pattern.firsts l.patterns ∧ p.universal = false ∧ p.isMatch path = true := by
  simp [rivals]

theorem rivals_filter (kind : Pattern → Bool) (ordinary : ∀ p, kind p = true → p.universal = false) :
    (l.rivals path).filter kind =
      (Pattern.firsts l.patterns).filter fun p => kind p && p.isMatch path := by
  rw [rivals, List.filter_filter]
  apply List.filter_congr
  intro p _
  cases verdict : kind p with
  | false => rfl
  | true => simp [ordinary p verdict]

theorem whole?_eq_head? (formed : ∀ p ∈ l.patterns, p.Formed) (path : String) :
    l.whole? path = ((l.rivals path).filter Pattern.isWhole).head? := by
  rw [l.whole?_eq formed, rivals_filter _ fun _ => Pattern.ordinary_of_isWhole, ← List.head?_filter]
  congr 1
  apply List.filter_congr
  intro p member
  cases whole : p.isWhole with
  | false => rfl
  | true => rw [Pattern.whole_isMatch (formed p (Pattern.mem_of_mem_firsts member)) whole]

theorem lastGreatest_rivals {kind : Pattern → Bool} {atMost : Pattern → Pattern → Bool}
    (ordinary : ∀ p, kind p = true → p.universal = false)
    (total : ∀ p q, atMost p q = true ∨ atMost q p = true)
    (trans : ∀ p q r, atMost p q = true → atMost q r = true → atMost p r = true)
    (agree : ∀ p q, kind p = true → kind q = true → (p.precedence q).isLE = atMost p q) :
    lastGreatest atMost ((Pattern.firsts l.patterns).filter fun p => kind p && p.isMatch path) =
      (maxima (fun p q => (p.precedence q).isLE) ((l.rivals path).filter kind)).getLast? := by
  rw [rivals_filter kind ordinary, lastGreatest_eq_getLast? total trans]
  congr 1
  apply maxima_congr
  intro p left q right
  have kindLeft := (Bool.and_eq_true_iff.mp (List.mem_filter.mp left).2).1
  have kindRight := (Bool.and_eq_true_iff.mp (List.mem_filter.mp right).2).1
  exact (agree p q kindLeft kindRight).symm

theorem longestTail?_eq_getLast? (formed : ∀ p ∈ l.patterns, p.Formed) (path : String) :
    l.longestTail? path = (maxima (fun p q => (p.precedence q).isLE)
      ((l.rivals path).filter Pattern.isTail)).getLast? := by
  rw [l.longestTail?_eq formed]
  exact lastGreatest_rivals (fun _ => Pattern.ordinary_of_isTail)
    (fun p q => by simpa using Nat.le_total _ _) (fun p q r => by simpa using Nat.le_trans)
    fun _ _ => Pattern.precedence_tails

theorem highestWildcard?_eq_getLast? (formed : ∀ p ∈ l.patterns, p.Formed) (path : String) :
    l.highestWildcard? path = (maxima (fun p q => (p.precedence q).isLE)
      ((l.rivals path).filter Pattern.isWildcard)).getLast? := by
  have total : ∀ p q : Pattern,
      (p.compareWildcards q).isLE = true ∨ (q.compareWildcards p).isLE = true := by
    intro p q
    rw [Pattern.compareWildcards, Pattern.compareWildcards, Pattern.isLE_compareThrice,
      Pattern.isLE_compareThrice]
    omega
  have trans : ∀ p q r : Pattern, (p.compareWildcards q).isLE = true →
      (q.compareWildcards r).isLE = true → (p.compareWildcards r).isLE = true := by
    intro p q r
    rw [Pattern.compareWildcards, Pattern.compareWildcards, Pattern.compareWildcards,
      Pattern.isLE_compareThrice, Pattern.isLE_compareThrice, Pattern.isLE_compareThrice]
    omega
  rw [l.highestWildcard?_eq formed]
  exact lastGreatest_rivals (fun _ => Pattern.ordinary_of_isWildcard) total trans
    fun _ _ left right => by rw [Pattern.precedence_wildcards left right]

theorem best_of_level (kind : Pattern → Bool) (n : Nat) (some : (l.rivals path).filter kind ≠ [])
    (levels : ∀ p ∈ l.rivals path, kind p = true ↔ n ≤ p.level) :
    l.best path = maxima (fun p q => (p.precedence q).isLE) ((l.rivals path).filter kind) := by
  obtain ⟨p, member⟩ := List.exists_mem_of_ne_nil _ some
  apply maxima_filter ⟨p, List.mem_filter.mp member⟩
  intro p left high q right low
  have upper := (levels p left).mp high
  have lower : ¬ n ≤ q.level := fun above => by simp [(levels q right).mpr above] at low
  rw [Bool.eq_false_iff, ne_eq, Pattern.precedence_isLE_iff, Pattern.precedence_isLE_iff]
  omega

theorem rivals_distinct (l : Ledger) (path : String) : (l.rivals path).Pairwise fun p q => p.key ≠ q.key :=
  (Pattern.firsts_distinct l.patterns).filter _

theorem wholes_single (formed : ∀ p ∈ l.patterns, p.Formed) {p : Pattern} {ps : List Pattern}
    (wholes : (l.rivals path).filter Pattern.isWhole = p :: ps) : ps = [] := by
  have fixed : ∀ q ∈ p :: ps, q.isWhole = true ∧ q.fixed = path := by
    intro q member
    rw [← wholes] at member
    obtain ⟨rival, whole⟩ := List.mem_filter.mp member
    obtain ⟨first, -, hit⟩ := mem_rivals.mp rival
    rw [Pattern.whole_isMatch (formed q (Pattern.mem_of_mem_firsts first)) whole, beq_iff_eq] at hit
    exact ⟨whole, hit⟩
  have distinct := (rivals_distinct l path).filter Pattern.isWhole
  rw [wholes] at distinct
  cases ps with
  | nil => rfl
  | cons q qs =>
    obtain ⟨whole, same⟩ := fixed p (by simp)
    obtain ⟨wholeToo, sameToo⟩ := fixed q (by simp)
    exact absurd (RuleTable.key_of_isWhole whole wholeToo (same.trans sameToo.symm))
      ((List.pairwise_cons.mp distinct).1 q (by simp))

theorem winner?_eq (formed : ∀ p ∈ l.patterns, p.Formed) (path : String) :
    l.winner? path = (l.best path).getLast? := by
  have ordinary : ∀ p ∈ l.rivals path, p.universal = false :=
    fun p member => (mem_rivals.mp member).2.1
  rw [winner?, whole?_eq_head? formed, longestTail?_eq_getLast? formed,
    highestWildcard?_eq_getLast? formed]
  cases wholes : (l.rivals path).filter Pattern.isWhole with
  | cons w rest =>
    have levels : ∀ p ∈ l.rivals path, p.isWhole = true ↔ 4 ≤ p.level := by
      intro p member
      have := p.level_le
      rw [Pattern.isWhole_iff (ordinary p member)]
      omega
    rw [best_of_level _ 4 (by simp [wholes]) levels, wholes, wholes_single formed wholes]
    simp [maxima, (Pattern.precedence_total w w).elim id id]
  | nil =>
    have low : ∀ p ∈ l.rivals path, p.level < 4 := by
      intro p member
      have := p.level_le
      have other := List.filter_eq_nil_iff.mp wholes p member
      rw [Pattern.isWhole_iff (ordinary p member)] at other
      omega
    by_cases tails : (l.rivals path).filter Pattern.isTail = []
    · have wildcards : (l.rivals path).filter Pattern.isWildcard = l.rivals path := by
        rw [List.filter_eq_self]
        intro p member
        have := low p member
        have other := List.filter_eq_nil_iff.mp tails p member
        rw [Pattern.isTail_iff (ordinary p member)] at other
        rw [Pattern.isWildcard_iff (ordinary p member)]
        omega
      rw [tails, wildcards]
      rfl
    · have levels : ∀ p ∈ l.rivals path, p.isTail = true ↔ 3 ≤ p.level := by
        intro p member
        have := low p member
        rw [Pattern.isTail_iff (ordinary p member)]
        omega
      have filled : maxima (fun p q => (p.precedence q).isLE)
          ((l.rivals path).filter Pattern.isTail) ≠ [] := fun none =>
        tails ((maxima_eq_nil_iff Pattern.precedence_total Pattern.precedence_trans).mp none)
      rw [best_of_level _ 3 tails levels, List.getLast?_eq_some_getLast filled]
      rfl

theorem best_eq_nil_iff : l.best path = [] ↔ l.rivals path = [] :=
  maxima_eq_nil_iff Pattern.precedence_total Pattern.precedence_trans

theorem best_mayTie (formed : ∀ p ∈ l.patterns, p.Formed) :
    (l.best path).Pairwise Pattern.MayTie := by
  refine ((rivals_distinct l path).filter _).imp_of_mem ?_
  intro p q left right distinct
  obtain ⟨rival, upper⟩ := mem_maxima.mp left
  obtain ⟨rivalToo, upperToo⟩ := mem_maxima.mp right
  obtain ⟨first, ordinary, hit⟩ := mem_rivals.mp rival
  obtain ⟨firstToo, ordinaryToo, hitToo⟩ := mem_rivals.mp rivalToo
  exact (Pattern.key_or_mayTie (formed p (Pattern.mem_of_mem_firsts first))
    (formed q (Pattern.mem_of_mem_firsts firstToo)) ordinary ordinaryToo hit hitToo
    (upperToo p rival) (upper q rivalToo)).resolve_left distinct

theorem actionsUnder_ne_nil_iff (l : Ledger) (key : String) :
    l.actionsUnder key ≠ [] ↔ ∃ p ∈ l.patterns, p.key = key := by
  simp [actionsUnder, patterns, List.filter_eq_nil_iff]

variable {m : Ledger}

theorem exists_rival_twin (formed : ∀ p ∈ l.patterns, p.Formed) (formedToo : ∀ p ∈ m.patterns, p.Formed)
    (same : ∀ key, m.actionsUnder key = l.actionsUnder key) {p : Pattern} (rival : p ∈ l.rivals path) :
    ∃ q ∈ m.rivals path, p = { q with source := p.source } := by
  obtain ⟨first, ordinary, hit⟩ := mem_rivals.mp rival
  have known : p ∈ l.patterns := Pattern.mem_of_mem_firsts first
  have some := (l.actionsUnder_ne_nil_iff p.key).mpr ⟨p, known, rfl⟩
  rw [← same] at some
  obtain ⟨r, inside, like⟩ := (m.actionsUnder_ne_nil_iff p.key).mp some
  obtain ⟨q, first, likeToo⟩ := Pattern.exists_first inside
  have shape := Pattern.eq_of_key_eq (formed p known)
    (formedToo q (Pattern.mem_of_mem_firsts first)) (likeToo.trans like).symm
  refine ⟨q, mem_rivals.mpr ⟨first, ?_, ?_⟩, shape⟩
  · rw [shape] at ordinary
    exact ordinary
  · rw [shape] at hit
    exact hit

-- A best one that is alone is so in whatever order the keys came up.
theorem best_of_one (formed : ∀ p ∈ l.patterns, p.Formed) (formedToo : ∀ p ∈ m.patterns, p.Formed)
    (same : ∀ key, m.actionsUnder key = l.actionsUnder key) (one : (l.best path).length ≤ 1) :
    (m.best path).getLast?.map Pattern.key = (l.best path).getLast?.map Pattern.key := by
  cases best : l.best path with
  | nil =>
    have none : m.rivals path = [] := by
      rw [List.eq_nil_iff_forall_not_mem]
      intro q rival
      obtain ⟨p, member, -⟩ := exists_rival_twin formedToo formed (fun key => (same key).symm) rival
      simp [best_eq_nil_iff.mp best] at member
    rw [best_eq_nil_iff.mpr none]
  | cons p rest =>
    have lone : rest = [] := by simpa [best] using one
    subst lone
    have rival : p ∈ l.rivals path := (mem_maxima.mp (best ▸ List.mem_singleton_self p)).1
    obtain ⟨twin, member, -⟩ := exists_rival_twin formed formedToo same rival
    have filled : m.best path ≠ [] := fun none =>
      List.ne_nil_of_mem member (best_eq_nil_iff.mp none)
    obtain ⟨inside, upper⟩ := mem_maxima.mp (List.getLast_mem filled)
    obtain ⟨r, known, shape⟩ := exists_rival_twin formedToo formed (fun key => (same key).symm) inside
    have highest : r ∈ l.best path := by
      refine mem_maxima.mpr ⟨known, fun s other => ?_⟩
      obtain ⟨twin, member, like⟩ := exists_rival_twin formed formedToo same other
      have below := upper twin member
      rw [shape] at below
      rw [like]
      exact below
    rw [best, List.mem_singleton] at highest
    rw [List.getLast?_eq_some_getLast filled, shape, highest]
    rfl

end Ledger

namespace RuleTable

def rivals (t : RuleTable) (path : String) : List RuleEntry :=
  t.entries.filter fun e => !e.pattern.universal && e.pattern.isMatch path

def best (t : RuleTable) (path : String) : List RuleEntry :=
  maxima (fun e f => (e.pattern.precedence f.pattern).isLE) (t.rivals path)

variable {t : RuleTable} {l : Ledger}

theorem Holds.rivals (holds : t.Holds l) (path : String) :
    t.rivals path = (l.rivals path).map l.entryOf := by
  rw [RuleTable.rivals, Ledger.rivals, holds.entries, List.filter_map]
  rfl

theorem Holds.best (holds : t.Holds l) (path : String) :
    t.best path = (l.best path).map l.entryOf := by
  rw [RuleTable.best, Ledger.best, holds.rivals, maxima_map]
  rfl

theorem ordinary?_after (calls : List TableCall) {names : List QName}
    (clean : ∀ q ∈ names, q.Clean) : (RuleTable.after calls).ordinary? (Trail.along names).path =
      ((Ledger.after calls).best (Trail.along names).path).getLast?.map
        (Ledger.after calls).entryOf := by
  have formed := Ledger.formed_after calls
  rw [(holds_after calls).ordinary? formed clean, Ledger.winner?_eq formed]

theorem winner_after (calls : List TableCall) {names : List QName} (clean : ∀ q ∈ names, q.Clean) :
    ((RuleTable.after calls).ordinary? (Trail.along names).path).map
        (fun e => (e.pattern.key, e.actions)) =
      (((Ledger.after calls).best (Trail.along names).path).getLast?.map Pattern.key).map
        fun key => (key, (Ledger.after calls).actionsUnder key) := by
  rw [ordinary?_after calls clean, Option.map_map, Option.map_map]
  congr 1
  funext p
  exact Prod.ext rfl ((Ledger.after calls).actions_entryOf p)

-- The winner is the last created of the best rivals. There is but one best rival, and it wins in
-- whatever order distinct patterns are registered, unless relative patterns for descendants tie.
theorem ordinary?_best (calls : List TableCall) {names : List QName} (clean : ∀ q ∈ names, q.Clean) :
    let t := RuleTable.after calls
    let path := (Trail.along names).path
    t.ordinary? path = (t.best path).getLast? ∧
      (t.best path = [] ↔ t.rivals path = []) ∧
      ((t.best path).Pairwise fun e f => e.pattern.MayTie f.pattern) ∧
      ((t.best path).length ≤ 1 → ∀ others : List TableCall,
        (∀ key, (Ledger.after others).actionsUnder key = (Ledger.after calls).actionsUnder key) →
        ((RuleTable.after others).ordinary? path).map (fun e => (e.pattern.key, e.actions)) =
          (t.ordinary? path).map fun e => (e.pattern.key, e.actions)) := by
  intro t path
  have holds : t.Holds (Ledger.after calls) := holds_after calls
  have formed := Ledger.formed_after calls
  refine ⟨?_, ?_, ?_, ?_⟩
  · rw [ordinary?_after calls clean, holds.best, List.getLast?_map]
  · rw [holds.best, holds.rivals, List.map_eq_nil_iff, List.map_eq_nil_iff, Ledger.best_eq_nil_iff]
  · rw [holds.best, List.pairwise_map]
    exact Ledger.best_mayTie formed
  · intro one others same
    rw [holds.best, List.length_map] at one
    have keys := Ledger.best_of_one formed (Ledger.formed_after others) same one
    rw [winner_after others clean, winner_after calls clean, keys]
    simp only [same]
    rfl

-- Two patterns that name different ancestors, with fixed parts of one length: the order decides.
theorem ordinary?_best_tie :
    let first : TableCall := .register (.rule "a/*" ⟨0⟩)
    let second : TableCall := .register (.rule "b/*" ⟨1⟩)
    let names : List QName := [⟨"", "a"⟩, ⟨"", "b"⟩, ⟨"", "c"⟩]
    let path := (Trail.along names).path
    (∀ q ∈ names, q.Clean) ∧
      ((RuleTable.after [first, second]).best path).map RuleEntry.actions = [[⟨0⟩], [⟨1⟩]] ∧
      (RuleTable.after [first, second]).ordinary? path =
        ((RuleTable.after [first, second]).best path).getLast? ∧
      ((RuleTable.after [first, second]).ordinary? path).map RuleEntry.actions = some [⟨1⟩] ∧
      ((RuleTable.after [second, first]).ordinary? path).map RuleEntry.actions = some [⟨0⟩] := by
  intro first second names path
  have clean : ∀ q ∈ names, q.Clean := by decide
  exact ⟨clean, by decide +kernel, (ordinary?_best [first, second] clean).1, by decide +kernel,
    by decide +kernel⟩

end RuleTable
end XmlRules
