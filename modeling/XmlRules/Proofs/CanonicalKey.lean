import XmlRules.Proofs.PatternGrammar
namespace XmlRules.Pattern
open Text

variable {prefixes : Prefixes} {source : String} {p q : Pattern}

theorem Spelled.again (tidy : prefixes.Tidy) {segment expanded : List Char}
    (spelled : Spelled prefixes segment expanded) : Spelled {} expanded expanded := by
  cases spelled with
  | name word => exact .name word
  | written closing word => exact .written closing word
  | @labelled label name uri found word =>
    rw [text_toList]
    split
    · exact .name word
    · exact .written (tidy label uri found).2 word

theorem expandSegment_of_prefixless {segment expanded : List Char}
    (spelled : Spelled {} segment expanded) :
    expandSegment prefixes segment = .ok (String.ofList expanded) := by
  cases spelled with
  | name word => exact word.expandSegment
  | written closing word => exact word.expandSegment_written closing
  | labelled found _ => simp at found

theorem plain_empty : Prefixes.Plain {} := by
  intro label uri found
  simp at found

theorem prefixless_of_parse (tidy : prefixes.Tidy) (accepted : parse prefixes source = .ok p)
    (form : p.form ≠ .everything) : ∃ segments : List String, segments ≠ [] ∧
      (∀ s ∈ segments, Spelled {} s.toList s.toList) ∧ p.fixed = assemble p.anchor segments := by
  rcases parse_fixed accepted with ⟨same, -⟩ | ⟨-, written, segments, filled, whole, pairs, fixed⟩
  · exact absurd same form
  · refine ⟨segments, filled, fun s member => ?_, fixed⟩
    obtain ⟨w, inside, read⟩ := exists_of_mem_right pairs member
    have braceless := fun label uri found => (tidy label uri found).1
    exact (spelled_of_expandSegment braceless read (whole w inside)).again tidy

def keyLayout (p : Pattern) (segments : List String) : Layout :=
  ⟨if p.anchor = .relative then .anywhere else .root, segments.map String.toList, p.form, 0⟩

theorem anchor_keyLayout (p : Pattern) (segments : List String) :
    (p.keyLayout segments).lead.anchor = p.anchor := by
  unfold keyLayout
  cases p.anchor <;> rfl

theorem text_keyLayout {segments : List String} (form : p.form ≠ .everything)
    (fixed : p.fixed = assemble p.anchor segments) : (p.keyLayout segments).text = p.unmarked := by
  have letters := assemble_toList (p.keyLayout segments).lead segments
  rw [anchor_keyLayout, ← fixed] at letters
  unfold keyLayout at letters ⊢
  unfold unmarked anchored Layout.text Layout.inner
  rw [letters]
  cases anchor : p.anchor <;> cases other : p.form <;> simp_all [Lead.text, Form.ending]

theorem isBlank_of_isNameChar {c : Char} (allowed : isNameChar c = true) : isBlank c = false := by
  cases blank : isBlank c with
  | false => rfl
  | true => exact absurd (.inr blank) ((isNameChar_iff c).mp allowed)

theorem trim_of_ends {cs : List Char} (first : ∀ c ∈ cs.head?, isBlank c = false)
    (last : ∀ c ∈ cs.getLast?, isBlank c = false) : trim cs = cs := by
  rw [trim, trimStart, dropWhile_of_head first, trimEnd, dropTrailing, dropWhile_of_head,
    List.reverse_reverse]
  intro c member
  rw [List.head?_reverse] at member
  exact last c member

theorem Formed.last_unmarked (formed : p.Formed) :
    ∃ c, p.unmarked.getLast? = some c ∧ isBlank c = false := by
  unfold unmarked
  cases form : p.form with
  | everything => exact ⟨'*', rfl, by decide⟩
  | anyChild => exact ⟨'?', by simp, by decide⟩
  | anyDescendant => exact ⟨'*', by simp, by decide⟩
  | exact =>
    obtain ⟨c, last, allowed⟩ := formed.last_anchored (by simp [form])
    exact ⟨c, last, isBlank_of_isNameChar allowed⟩

theorem Formed.trim_key (formed : p.Formed) : trim p.key.toList = p.key.toList := by
  obtain ⟨d, last, dark⟩ := formed.last_unmarked
  rw [key_toList]
  apply trim_of_ends
  · intro c first
    cases mark : p.universal with
    | true =>
      simp only [mark, if_true, List.singleton_append, List.head?_cons] at first
      cases first
      decide
    | false =>
      simp only [mark, Bool.false_eq_true, if_false, List.nil_append] at first
      rcases formed.first_unmarked with head | head
      all_goals
        rw [head] at first
        cases first
        decide
  · intro c member
    rw [List.getLast?_append, last] at member
    cases member
    exact dark

theorem Formed.marked_key (formed : p.Formed) :
    Marked p.universal (trim p.key.toList) p.unmarked := by
  rw [formed.trim_key, key_toList]
  cases p.universal with
  | true => exact ⟨[], rfl, rfl⟩
  | false => exact ⟨rfl, formed.head_unmarked⟩

theorem parse_key (tidy : prefixes.Tidy) (accepted : parse prefixes source = .ok p)
    (others : Prefixes) : parse others p.key = .ok { p with source := p.key } := by
  have formed := formed_of_parse accepted
  have marked := formed.marked_key
  by_cases form : p.form = .everything
  · obtain ⟨anchor, fixed⟩ := formed.bare form
    have everything : p.unmarked = ['*'] := by simp [unmarked, form]
    rw [everything] at marked
    unfold parse
    rw [readMarker_of_marked marked (by simp; decide)]
    simp [form, anchor, fixed, pure, Except.pure]
  · obtain ⟨segments, filled, spelled, fixed⟩ := prefixless_of_parse tidy accepted form
    have each : List.Forall₂ (Spelled {}) (p.keyLayout segments).segments
        (segments.map String.toList) := by
      rw [keyLayout, List.forall₂_map_left_iff, List.forall₂_map_right_iff, List.forall₂_same]
      exact spelled
    have proper := proper_of_spelled plain_empty (by simpa [keyLayout] using filled) form each
    rw [← text_keyLayout form fixed] at marked
    have ran : (p.keyLayout segments).segments.mapM (expandSegment others) = .ok segments := by
      apply mapM_eq_ok
      rw [keyLayout, List.forall₂_map_left_iff, List.forall₂_same]
      intro s member
      rw [expandSegment_of_prefixless (spelled s member), String.ofList_toList]
    rw [parse_of_proper proper marked, ran, anchor_keyLayout]
    change Except.ok (⟨p.key, p.universal, p.anchor, p.form, assemble p.anchor segments⟩ : Pattern) = _
    rw [← fixed]

-- A key reads back as the pattern it was made from, whatever the prefixes are then. So patterns have
-- one key exactly if they differ in their spelling alone, and those match the same paths.
theorem key_canonical (tidy : prefixes.Tidy) (accepted : parse prefixes source = .ok p)
    {others : Prefixes} {other : String} (acceptedToo : parse others other = .ok q) :
    (∀ any : Prefixes, ∃ again, parse any p.key = .ok again ∧ again.universal = p.universal ∧
      again.anchor = p.anchor ∧ again.form = p.form ∧ again.fixed = p.fixed ∧ again.key = p.key) ∧
    (p.key = q.key ↔ p.universal = q.universal ∧ p.form = q.form ∧ p.fixed = q.fixed ∧
      p.anchor = q.anchor) ∧
    (p.key = q.key → ∀ path, p.isMatch path = q.isMatch path) := by
  refine ⟨fun any => ⟨_, parse_key tidy accepted any, rfl, rfl, rfl, rfl, rfl⟩, ⟨?_, ?_⟩, ?_⟩
  · intro same
    rw [eq_of_key_eq (formed_of_parse accepted) (formed_of_parse acceptedToo) same]
    exact ⟨rfl, rfl, rfl, rfl⟩
  · rintro ⟨universal, form, fixed, anchor⟩
    unfold key
    rw [universal, form, fixed, anchor]
  · intro same path
    rw [eq_of_key_eq (formed_of_parse accepted) (formed_of_parse acceptedToo) same]
    rfl

theorem key_canonical_two_spellings :
    let bound : Prefixes := ({} : Prefixes).insert "p" "urn:a/b"
    let p : Pattern := ⟨"! */p:x/?// ", true, .relative, .anyChild, "\x7burn:a/b\x7dx"⟩
    let q : Pattern := ⟨"!\x7burn:a/b\x7dx/?", true, .relative, .anyChild, "\x7burn:a/b\x7dx"⟩
    bound.Tidy ∧ parse bound p.source = .ok p ∧ parse {} q.source = .ok q ∧
      p.key = "!*/\x7burn:a/b\x7dx/?" ∧ p.key = q.key ∧
      ∃ again, parse {} p.key = .ok again ∧ again.fixed = p.fixed ∧ again.key = p.key := by
  intro bound p q
  have tidy : bound.Tidy := tidy_insert (by decide) (by decide)
  have accepted : parse bound p.source = .ok p := by decide +kernel
  have acceptedToo : parse {} q.source = .ok q := by decide +kernel
  obtain ⟨reread, same, -⟩ := key_canonical tidy accepted acceptedToo
  obtain ⟨again, read, -, -, -, fixed, key⟩ := reread {}
  exact ⟨tidy, accepted, acceptedToo, by decide +kernel, same.mpr ⟨rfl, rfl, rfl, rfl⟩,
    again, read, fixed, key⟩

end XmlRules.Pattern
