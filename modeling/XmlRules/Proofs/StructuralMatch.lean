import XmlRules.Proofs.OpenPath
import XmlRules.Proofs.ParsedPattern
namespace XmlRules
namespace Path
open Text

theorem endsOnBoundary_iff (path tail : String) : endsOnBoundary path tail = true ↔
    tail ≠ "" ∧ ∃ before, path.toList = before ++ tail.toList ∧
      (before = [] ∨ ∃ outer, before = outer ++ ['/']) := by
  have cut : ∀ before : List Char, path.toList = before ++ tail.toList →
      path.toList.take (path.toList.length - tail.toList.length) = before := by
    intro before shape
    simp [shape]
  simp only [endsOnBoundary, Bool.and_eq_true, Bool.or_eq_true, Bool.not_eq_true',
    List.isEmpty_eq_false_iff, List.isEmpty_iff, List.isSuffixOf_iff_suffix, beq_iff_eq, ne_eq,
    String.toList_eq_nil_iff]
  constructor
  · rintro ⟨⟨some, ⟨before, shape⟩⟩, boundary⟩
    rw [cut before shape.symm] at boundary
    refine ⟨some, before, shape.symm, ?_⟩
    rcases boundary with none | last
    · exact .inl none
    · exact .inr ((List.getLast?_eq_some_iff).mp last)
  · rintro ⟨some, before, shape, boundary⟩
    rw [cut before shape]
    refine ⟨⟨some, ⟨before, shape.symm⟩⟩, ?_⟩
    rcases boundary with rfl | ⟨outer, rfl⟩
    · exact .inl rfl
    · exact .inr List.getLast?_concat

end Path

namespace Pattern
open Text

theorem firstBrace_of_isExpanded {cs rest : List Char} (expanded : IsExpanded cs)
    (later : rest.find? Path.isBrace ≠ some '\x7d') :
    (cs ++ rest).find? Path.isBrace ≠ some '\x7d' := by
  rcases expanded with name | ⟨uri, name, _, rfl⟩
  · have none : cs.find? Path.isBrace = none := by
      rw [List.find?_eq_none]
      intro c member
      have allowed := List.all_eq_true.mp name.2 c member
      simp only [isNameChar, Bool.not_eq_true', Bool.or_eq_false_iff] at allowed
      simp [Path.isBrace, allowed.1.1.1.1.1, allowed.1.1.1.1.2]
    rw [List.find?_append, none]
    exact later
  · simp [Path.isBrace]

theorem firstBrace_joined (segments : List String) (expanded : ∀ s ∈ segments, IsExpanded s.toList) :
    (Path.joined (segments.map String.toList)).find? Path.isBrace ≠ some '\x7d' := by
  induction segments with
  | nil => simp
  | cons s ss ih =>
    rw [List.map_cons, Path.joined_cons, List.cons_append,
      List.find?_cons_of_neg (by simp [Path.isBrace])]
    exact firstBrace_of_isExpanded (expanded s (by simp))
      (ih fun t member => expanded t (List.mem_cons_of_mem _ member))

theorem Formed.firstBrace {p : Pattern} (formed : p.Formed) :
    p.fixed.toList.find? Path.isBrace ≠ some '\x7d' := by
  by_cases form : p.form = .everything
  · simp [(formed.bare form).2]
  · obtain ⟨segments, some, expanded, fixed⟩ := formed.fixed form
    have whole := firstBrace_joined segments expanded
    cases anchor : p.anchor with
    | absolute => rwa [fixed, anchor, assemble_absolute segments some]
    | relative =>
      rw [← separator_cons_assemble_relative segments some,
        List.find?_cons_of_neg (by simp [Path.isBrace])] at whole
      rwa [fixed, anchor]

-- A tail that begins behind a separator does not begin inside a URI: the URI would have to close in
-- it, before any other one opens.
theorem outside_before_tail {names : List QName} (clean : ∀ q ∈ names, q.Clean)
    {outer tail : List Char} (shape : (Trail.along names).path.toList = outer ++ '/' :: tail)
    (opens : tail.find? Path.isBrace ≠ some '\x7d') : Path.inUriAfter false outer = false := by
  have pairs := Trail.paired_path clean
  rw [shape] at pairs
  have behind := Path.paired_drop false outer _ pairs
  cases state : Path.inUriAfter false outer with
  | false => rfl
  | true =>
    rw [state] at behind
    have first := Path.firstBrace_of_paired _ behind
    rw [List.find?_cons_of_neg (by simp [Path.isBrace])] at first
    exact absurd first opens

-- The segments of the fixed part. The separator that anchors an absolute one stands in front of the
-- first segment and ends none.
def fixedSegments (p : Pattern) : List (List Char) :=
  match p.anchor with
  | .absolute => (Path.segments p.fixed.toList).tail
  | .relative => Path.segments p.fixed.toList

def NamesLast (p : Pattern) (names : List (List Char)) : Prop :=
  match p.anchor with
  | .absolute => names = p.fixedSegments
  | .relative => p.fixedSegments <:+ names

-- What a pattern means for an element, said on the names of the open elements alone.
def Covers (p : Pattern) (names : List (List Char)) : Prop :=
  match p.form with
  | .exact => p.NamesLast names
  | .anyChild => names ≠ [] ∧ p.NamesLast names.dropLast
  | .anyDescendant => ∃ outer, outer ≠ [] ∧ outer <+: names ∧ outer ≠ names ∧ p.NamesLast outer
  | .everything => names ≠ []

-- A fixed part is its segments joined, and nothing else has these segments.
structure Segmented (p : Pattern) : Prop where
  some : p.fixedSegments ≠ []
  whole : ∀ s ∈ p.fixedSegments, s ≠ [] ∧ Path.IsSegment s
  absolute : p.anchor = .absolute → p.fixed.toList = Path.joined p.fixedSegments
  relative : p.anchor = .relative → '/' :: p.fixed.toList = Path.joined p.fixedSegments

theorem segmented_of_parse {prefixes : Prefixes} (tidy : prefixes.Tidy) {source : String}
    {p : Pattern} (accepted : parse prefixes source = .ok p) (form : p.form ≠ .everything) :
    p.Segmented := by
  obtain ⟨segments, some, fixed, whole⟩ := segments_of_parse tidy accepted form
  have found := Path.segments_joined (segments.map String.toList) (by
    intro s member
    obtain ⟨t, inside, rfl⟩ := List.mem_map.mp member
    exact (whole t inside).2)
  have same : p.fixedSegments = segments.map String.toList := by
    unfold fixedSegments
    cases anchor : p.anchor with
    | absolute => simp [fixed, anchor, assemble_absolute segments some, found]
    | relative =>
      rw [← separator_cons_assemble_relative segments some, Path.segments, Path.segmentsFrom_cons,
        if_pos ⟨rfl, rfl⟩, List.cons.injEq] at found
      rw [fixed, anchor]
      exact found.2
  refine ⟨by simpa [same] using some, ?_, ?_, ?_⟩
  · intro s member
    rw [same] at member
    obtain ⟨t, inside, rfl⟩ := List.mem_map.mp member
    exact ⟨by simpa using (whole t inside).1, (whole t inside).2⟩
  · intro anchor
    rw [same, fixed, anchor, assemble_absolute segments some]
  · intro anchor
    rw [same, fixed, anchor, separator_cons_assemble_relative segments some]

theorem segments_relative {p : Pattern} (anchor : p.anchor = .relative) :
    Path.segments p.fixed.toList = p.fixedSegments := by
  simp [fixedSegments, anchor]

theorem Segmented.not_namesLast_nil {p : Pattern} (segmented : p.Segmented) : ¬ p.NamesLast [] := by
  intro last
  unfold NamesLast at last
  split at last
  · exact segmented.some last.symm
  · exact segmented.some (List.suffix_nil.mp last)

theorem Segmented.fixed_ne_empty {p : Pattern} (segmented : p.Segmented)
    (anchor : p.anchor = .relative) : p.fixed ≠ "" := by
  intro empty
  have pieces := segments_relative anchor
  rw [empty] at pieces
  exact (segmented.whole [] (by rw [← pieces]; simp [Path.segments, Path.segmentsFrom])).1 rfl

variable {p : Pattern} {names : List QName}

theorem absolute_matches_iff (segmented : p.Segmented) (anchor : p.anchor = .absolute)
    (clean : ∀ q ∈ names, q.Clean) :
    (Trail.along names).path = p.fixed ↔ names.map QName.letters = p.fixedSegments := by
  have fixed := segmented.absolute anchor
  rw [← String.toList_inj, fixed, Trail.path_along]
  constructor
  · intro same
    have split := congrArg Path.segments same
    rw [← Trail.path_along, Trail.segments_path clean,
      Path.segments_joined _ fun s member => (segmented.whole s member).2] at split
    exact List.cons.inj split |>.2
  · intro same
    rw [same]

theorem relative_matches_iff (formed : p.Formed) (segmented : p.Segmented)
    (anchor : p.anchor = .relative) (clean : ∀ q ∈ names, q.Clean) :
    Path.endsOnBoundary (Trail.along names).path p.fixed = true ↔
      p.fixedSegments <:+ names.map QName.letters := by
  rw [Path.endsOnBoundary_iff]
  constructor
  · rintro ⟨_, before, shape, rfl | ⟨outer, rfl⟩⟩
    -- The fixed part would be the whole path, which begins with a separator.
    · have pieces := congrArg Path.segments shape
      rw [Trail.segments_path clean, List.nil_append, segments_relative anchor] at pieces
      exact absurd rfl (segmented.whole [] (by simp [← pieces])).1
    · rw [List.append_assoc] at shape
      have outside := outside_before_tail clean shape formed.firstBrace
      have pieces := congrArg Path.segments shape
      rw [Trail.segments_path clean, List.singleton_append, Path.segments,
        Path.segmentsFrom_append_separator _ _ _ outside] at pieces
      change _ = _ ++ Path.segments p.fixed.toList at pieces
      rw [segments_relative anchor] at pieces
      cases first : Path.segmentsFrom false outer with
      | nil => exact absurd first (Path.segmentsFrom_ne_nil _ _)
      | cons s ss =>
        rw [first, List.cons_append] at pieces
        exact ⟨ss, (List.cons.inj pieces).2.symm⟩
  · rintro ⟨outer, shape⟩
    refine ⟨segmented.fixed_ne_empty anchor, Path.joined outer ++ ['/'], ?_, .inr ⟨_, rfl⟩⟩
    rw [Trail.path_along, ← shape, Path.joined_append, ← segmented.relative anchor, List.append_assoc]
    rfl

theorem fixedMatches_iff (formed : p.Formed) (segmented : p.Segmented)
    (clean : ∀ q ∈ names, q.Clean) :
    p.fixedMatches (Trail.along names).path = true ↔ p.NamesLast (names.map QName.letters) := by
  unfold fixedMatches NamesLast
  cases anchor : p.anchor with
  | absolute => simpa using absolute_matches_iff segmented anchor clean
  | relative => exact relative_matches_iff formed segmented anchor clean

theorem child_matches_iff (formed : p.Formed) (segmented : p.Segmented)
    (clean : ∀ q ∈ names, q.Clean) :
    (Path.parent? (Trail.along names).path).any p.fixedMatches = true ↔
      p.NamesLast (names.map QName.letters).dropLast := by
  rw [Trail.parent?_path clean, ← List.map_dropLast]
  by_cases root : names.dropLast = []
  · simp [root, segmented.not_namesLast_nil]
  · rw [if_neg root, Option.any_some]
    exact fixedMatches_iff formed segmented fun q member => clean q (List.dropLast_subset _ member)

theorem descendant_matches_iff (formed : p.Formed) (segmented : p.Segmented)
    (clean : ∀ q ∈ names, q.Clean) :
    (Path.ancestors (Trail.along names).path).any p.fixedMatches = true ↔
      ∃ outer, outer ≠ [] ∧ outer <+: names.map QName.letters ∧ outer ≠ names.map QName.letters ∧
        p.NamesLast outer := by
  have upper : ∀ n, p.fixedMatches (Trail.along (names.take n)).path = true ↔
      p.NamesLast ((names.map QName.letters).take n) := by
    intro n
    rw [← List.map_take]
    exact fixedMatches_iff formed segmented fun q member => clean q (List.mem_of_mem_take member)
  rw [Trail.ancestors_path clean, List.any_map, List.any_eq_true]
  constructor
  · rintro ⟨n, member, found⟩
    have bounds := List.mem_range'_1.mp member
    refine ⟨(names.map QName.letters).take n, ?_, List.take_prefix _ _, ?_, (upper n).mp found⟩
    · intro none
      have count := congrArg List.length none
      rw [List.length_take, List.length_map, List.length_nil] at count
      omega
    · intro all
      have count := congrArg List.length all
      rw [List.length_take, List.length_map] at count
      omega
  · rintro ⟨outer, some, ⟨rest, shape⟩, proper, last⟩
    have positive := List.length_pos_iff.mpr some
    have left : 0 < rest.length := by
      apply List.length_pos_iff.mpr
      rintro rfl
      exact proper (by simpa using shape)
    have count := congrArg List.length shape
    rw [List.length_append, List.length_map] at count
    refine ⟨outer.length, List.mem_range'_1.mpr ⟨by omega, by omega⟩, (upper _).mpr ?_⟩
    rwa [← shape, List.take_left]

-- Matching on the text of a path says what it means on the names of the open elements. No tail
-- starts within a segment or within a URI.
theorem isMatch_iff_covers {prefixes : Prefixes} (tidy : prefixes.Tidy) {source : String}
    (accepted : parse prefixes source = .ok p) (clean : ∀ q ∈ names, q.Clean) :
    p.isMatch (Trail.along names).path = true ↔ p.Covers (names.map QName.letters) := by
  have formed := formed_of_parse accepted
  have filled : (Trail.along names).path ≠ "" ↔ names.map QName.letters ≠ [] := by
    rw [ne_eq, Trail.path_eq_empty_iff]
    simp
  unfold isMatch Covers
  rw [Bool.and_eq_true, decide_eq_true_iff, filled]
  cases form : p.form with
  | everything => simp
  | exact =>
    have segmented := segmented_of_parse tidy accepted (by simp [form])
    simp only [fixedMatches_iff formed segmented clean, and_iff_right_iff_imp]
    intro last none
    exact segmented.not_namesLast_nil (none ▸ last)
  | anyChild =>
    have segmented := segmented_of_parse tidy accepted (by simp [form])
    simp only [child_matches_iff formed segmented clean]
  | anyDescendant =>
    have segmented := segmented_of_parse tidy accepted (by simp [form])
    simp only [descendant_matches_iff formed segmented clean, and_iff_right_iff_imp]
    rintro ⟨outer, some, within, _⟩ none
    rw [none] at within
    exact some (List.prefix_nil.mp within)

-- A URI with a separator in it, and an element two levels below the one the fixed part names.
theorem isMatch_iff_covers_below_uri :
    let bound : Prefixes := ({} : Prefixes).insert "p" "urn:a/b"
    let p : Pattern :=
      ⟨" !p:x/y/* ", true, .relative, .anyDescendant, "\x7burn:a/b\x7dx/y"⟩
    let names : List QName := [⟨"", "r"⟩, ⟨"urn:a/b", "x"⟩, ⟨"", "y"⟩, ⟨"", "z"⟩, ⟨"", "z"⟩]
    Prefixes.Tidy bound ∧ parse bound " !p:x/y/* " = .ok p ∧ (∀ q ∈ names, q.Clean) ∧
      p.isMatch (Trail.along names).path = true ∧ p.Covers (names.map QName.letters) := by
  intro bound p names
  have tidy : Prefixes.Tidy bound := tidy_insert (by decide) (by decide)
  have accepted : parse bound " !p:x/y/* " = .ok p := by decide +kernel
  have clean : ∀ q ∈ names, q.Clean := by decide
  have found : p.isMatch (Trail.along names).path = true := by decide +kernel
  exact ⟨tidy, accepted, clean, found, (isMatch_iff_covers tidy accepted clean).mp found⟩

end Pattern
end XmlRules
