import XmlRules.Proofs.CanonicalKey
namespace XmlRules

namespace Pattern
open Text

-- Where a segment can begin: first behind the mark, or behind a separator that belongs to no URI.
def Opening (front : List Char) : Prop :=
  front = [] ∨ ∃ earlier, front = earlier ++ ['/'] ∧ Path.inUriAfter false earlier = false

def Opens (front : List Char) : Prop := Opening (readMarker (trimStart front)).2

def Closing (back : List Char) : Prop := ∀ c ∈ back.head?, c = '/'

def Closes (back : List Char) : Prop := Closing (trimEnd back)

-- A segment that is read as one wherever it stands: nothing comes off it, and it is no mark, no lead
-- and no wildcard.
structure Solid (cs : List Char) : Prop where
  segment : Path.IsSegment cs
  filled : cs ≠ []
  first : ∀ c ∈ cs.head?, isBlank c = false ∧ c ≠ '!' ∧ c ≠ '/'
  last : ∀ c ∈ cs.getLast?, isBlank c = false ∧ c ≠ '/'
  query : cs ≠ ['?']
  star : cs ≠ ['*']
  anywhere : ¬ ['*', '/'] <+: cs

theorem dropWhile_before {p : Char → Bool} {c : Char} (stop : p c = false) (cs rest : List Char) :
    (cs ++ c :: rest).dropWhile p = cs.dropWhile p ++ c :: rest := by
  induction cs with
  | nil => simp [stop]
  | cons d ds ih =>
    rw [List.cons_append, List.dropWhile_cons, List.dropWhile_cons]
    split
    · exact ih
    · rfl

theorem dropTrailing_behind {p : Char → Bool} {cs : List Char} (filled : cs ≠ [])
    (stop : ∀ c ∈ cs.getLast?, p c = false) (back : List Char) :
    dropTrailing p (cs ++ back) = cs ++ dropTrailing p back := by
  obtain ⟨front, c, rfl⟩ := (List.eq_nil_or_concat' cs).resolve_left filled
  have stopped : p c = false := stop c (by simp)
  rw [dropTrailing, List.reverse_append, List.reverse_append, List.reverse_singleton,
    List.singleton_append, dropWhile_before stopped, List.reverse_append, dropTrailing]
  simp

theorem IsWord.last {name : List Char} (word : IsWord name) :
    ∀ c ∈ name.getLast?, isBlank c = false ∧ c ≠ '/' := by
  intro c member
  obtain ⟨separator, allowed⟩ := word.2 c (List.mem_of_getLast? member)
  exact ⟨isBlank_of_isNameChar ((isNameChar_iff c).mpr allowed), separator⟩

theorem IsWord.last_behind {name : List Char} (word : IsWord name) (front : List Char) (mark : Char) :
    ∀ c ∈ (front ++ mark :: name).getLast?, isBlank c = false ∧ c ≠ '/' := by
  intro c member
  have whole : front ++ mark :: name = (front ++ [mark]) ++ name := by simp
  rw [whole, List.getLast?_append_of_ne_nil _ word.1] at member
  exact word.last c member

theorem solid_labelled {label name : List Char} (plain : ∀ c ∈ label,
    c ∉ [':', '/', '!', '\x7b', '\x7d'] ∧ isBlank c = false) (word : IsWord name) :
    Solid (label ++ ':' :: name) := by
  have lacks : ∀ c ∈ ['/', '\x7b', '\x7d'], c ∉ label ++ ':' :: name := by
    intro c reserved member
    rw [List.mem_append, List.mem_cons] at member
    rcases member with inside | rfl | inside
    · refine (plain c inside).1 ?_
      simp only [List.mem_cons, List.not_mem_nil, or_false] at reserved ⊢
      tauto
    · simp at reserved
    · refine word.lacks ?_ inside
      simp only [List.mem_cons, List.not_mem_nil, or_false] at reserved ⊢
      tauto
  have lone : ∀ c, c ≠ ':' → label ++ ':' :: name ≠ [c] := by
    intro c other same
    have member : ':' ∈ [c] := by simp [← same]
    exact other (List.mem_singleton.mp member).symm
  refine ⟨Path.isSegment_of_plain _ (lacks _ (by decide)) (lacks _ (by decide)) (lacks _ (by decide)),
    by simp, ?_, word.last_behind label ':', lone _ (by decide), lone _ (by decide), ?_⟩
  · intro c first
    cases label with
    | nil =>
      cases first
      decide
    | cons d label =>
      cases first
      obtain ⟨allowed, dark⟩ := plain c (by simp)
      simp only [List.mem_cons, not_or] at allowed
      exact ⟨dark, allowed.2.2.1, allowed.2.1⟩
  · rintro ⟨rest, same⟩
    exact lacks '/' (by decide) (by simp [← same])

theorem solid_written {uri name : List Char} (closing : '\x7d' ∉ uri) (word : IsWord name) :
    Solid ('\x7b' :: uri ++ '\x7d' :: name) := by
  have plain := Path.isSegment_of_plain name (word.lacks (by decide)) (word.lacks (by decide))
    (word.lacks (by decide))
  refine ⟨Path.isSegment_of_uri uri name closing plain, by simp, ?_, word.last_behind _ _, by simp,
    by simp, by simp⟩
  intro c first
  cases first
  decide

section Slot
variable {front back cs : List Char}

theorem trimStart_slot (solid : Solid cs) :
    trimStart (front ++ cs ++ back) = trimStart front ++ cs ++ back := by
  obtain ⟨c, rest, rfl⟩ := List.exists_cons_of_ne_nil solid.filled
  have dark := (solid.first c rfl).1
  simpa [trimStart] using dropWhile_before dark front (rest ++ back)

theorem last_slot (solid : Solid cs) :
    ∀ c ∈ (front ++ cs).getLast?, isBlank c = false ∧ c ≠ '/' := by
  rw [List.getLast?_append_of_ne_nil _ solid.filled]
  exact solid.last

theorem trim_slot (solid : Solid cs) :
    trim (front ++ cs ++ back) = trimStart front ++ cs ++ trimEnd back := by
  rw [trim, trimStart_slot solid, trimEnd]
  exact dropTrailing_behind (by simp [solid.filled]) (fun c last => (last_slot solid c last).1) back

theorem readMarker_slot (solid : Solid cs) :
    readMarker (front ++ cs ++ back) = ((readMarker front).1, (readMarker front).2 ++ cs ++ back) := by
  cases front with
  | nil =>
    obtain ⟨c, rest, rfl⟩ := List.exists_cons_of_ne_nil solid.filled
    have other := (solid.first c rfl).2.1
    unfold readMarker
    split
    · rename_i same
      cases same
      exact absurd rfl other
    · rfl
  | cons d front =>
    by_cases mark : d = '!'
    · subst mark
      change (true, trimStart (front ++ cs ++ back)) = (true, trimStart front ++ cs ++ back)
      rw [trimStart_slot solid]
    · simp [readMarker, mark]

theorem Opening.tail {c : Char} (opens : Opening (c :: front)) (still : Path.turn false c = false) :
    Opening front := by
  rcases opens with none | ⟨earlier, shape, outside⟩
  · cases none
  · cases earlier with
    | nil =>
      cases shape
      exact .inl rfl
    | cons d earlier =>
      cases shape
      rw [Path.inUriAfter_cons, still] at outside
      exact .inr ⟨earlier, rfl, outside⟩

theorem readAnchor_slot (solid : Solid cs) (opens : Opening front) :
    readAnchor (front ++ cs ++ back) = ((readAnchor front).1, (readAnchor front).2 ++ cs ++ back) := by
  cases front with
  | nil =>
    obtain ⟨c, rest, rfl⟩ := List.exists_cons_of_ne_nil solid.filled
    have lead := (solid.first c rfl).2.2
    by_cases star : c = '*'
    · subst star
      obtain ⟨d, rest, rfl⟩ : ∃ d ds, rest = d :: ds :=
        List.exists_cons_of_ne_nil fun lone => solid.star (by rw [lone])
      have other : d ≠ '/' := by
        rintro rfl
        exact solid.anywhere ⟨rest, rfl⟩
      simp [readAnchor, other]
    · simp [readAnchor, star, lead]
  | cons c front =>
    by_cases star : c = '*'
    · subst star
      cases front with
      | nil =>
        -- A star in front of a segment has its separator.
        rcases opens with none | ⟨earlier, shape, -⟩
        · cases none
        · have last := congrArg List.getLast? shape
          simp at last
      | cons d front =>
        by_cases separator : d = '/' <;> simp [readAnchor, separator]
    · by_cases separator : c = '/' <;> simp [readAnchor, star, separator]

theorem opening_readAnchor (opens : Opening front) : Opening (readAnchor front).2 := by
  unfold readAnchor
  split
  · exact (opens.tail rfl).tail rfl
  · exact opens.tail rfl
  · exact opens

theorem segments_slot (opens : Opening front) (closes : Closing back) : ∃ before after,
    ∀ cs, Solid cs → Path.segments (front ++ cs ++ back) = before ++ cs :: after := by
  have behind : ∃ after, ∀ cs, Solid cs → Path.segments (cs ++ back) = cs :: after := by
    cases back with
    | nil => exact ⟨[], fun cs solid => by rw [List.append_nil, solid.segment.1]⟩
    | cons c back =>
      obtain rfl := closes c rfl
      refine ⟨Path.segments back, fun cs solid => ?_⟩
      rw [Path.segments, Path.segmentsFrom_append_separator _ _ _ solid.segment.2]
      change Path.segments cs ++ _ = _
      rw [solid.segment.1]
      rfl
  obtain ⟨after, pieces⟩ := behind
  rcases opens with rfl | ⟨earlier, rfl, outside⟩
  · exact ⟨[], after, pieces⟩
  · refine ⟨Path.segments earlier, after, fun cs solid => ?_⟩
    have shape : earlier ++ ['/'] ++ cs ++ back = earlier ++ '/' :: (cs ++ back) := by simp
    rw [shape, Path.segments, Path.segmentsFrom_append_separator _ _ _ outside]
    change _ ++ Path.segments (cs ++ back) = _
    rw [pieces cs solid]
    rfl

theorem readForm_slot (solid : Solid cs) (before after : List (List Char)) :
    readForm (before ++ cs :: after) = ((readForm after).1, before ++ cs :: (readForm after).2) := by
  obtain none | ⟨front, last, rfl⟩ := List.eq_nil_or_concat' after
  · subst none
    simp [readForm, solid.query, solid.star]
  · have shape : before ++ cs :: (front ++ [last]) = (before ++ cs :: front) ++ [last] := by simp
    rw [shape]
    unfold readForm
    rw [List.getLast?_concat, List.getLast?_concat, List.dropLast_concat, List.dropLast_concat]
    split <;> simp

theorem closing_dropTrailing (closes : Closing back) : Closing (dropTrailing (· == '/') back) := by
  intro c first
  obtain ⟨n, shape⟩ := dropTrailing_shape '/' back
  apply closes c
  rw [shape, List.head?_append, first]
  rfl

theorem filled_slot (solid : Solid cs) : front ++ cs ++ back ≠ [] ∧ front ++ cs ++ back ≠ ['*'] := by
  refine ⟨by simp [solid.filled], ?_⟩
  simp [List.append_eq_singleton_iff, solid.filled, solid.star]

theorem parseFixed_slot (opens : Opening front) (closes : Closing back) :
    ∃ anchor form before after, ∀ (prefixes : Prefixes) (cs : List Char), Solid cs →
      ∀ (source : String) (universal : Bool),
        parseFixed source prefixes universal (front ++ cs ++ back) = do
          let expanded ← (before ++ cs :: after).mapM (expandSegment prefixes)
          return ⟨source, universal, anchor, form, assemble anchor expanded⟩ := by
  obtain ⟨before, after, pieces⟩ :=
    segments_slot (opening_readAnchor opens) (closing_dropTrailing closes)
  refine ⟨(readAnchor front).1, (readForm after).1, before, (readForm after).2,
    fun prefixes cs solid source universal => ?_⟩
  have ends : ∀ c ∈ ((readAnchor front).2 ++ cs).getLast?, (c == '/') = false := by
    intro c last
    simpa using (last_slot solid c last).2
  unfold parseFixed
  simp only [readAnchor_slot solid opens, List.isEmpty_iff,
    dropTrailing_behind (by simp [solid.filled]) ends, filled_slot solid, if_false, pieces cs solid,
    readForm_slot solid, List.append_eq_nil_iff, reduceCtorEq, and_false]

-- What the parser makes of all that stands around a segment does not depend on the segment.
theorem parse_slot (opens : Opens front) (closes : Closes back) :
    ∃ universal anchor form before after, ∀ (prefixes : Prefixes) (cs : List Char), Solid cs →
      ∀ source : String, source.toList = front ++ cs ++ back → parse prefixes source = do
        let expanded ← (before ++ cs :: after).mapM (expandSegment prefixes)
        return ⟨source, universal, anchor, form, assemble anchor expanded⟩ := by
  obtain ⟨anchor, form, before, after, read⟩ := parseFixed_slot opens closes
  refine ⟨(readMarker (trimStart front)).1, anchor, form, before, after,
    fun prefixes cs solid source letters => ?_⟩
  unfold parse
  rw [letters, trim_slot solid, readMarker_slot solid]
  simp only [List.isEmpty_iff, filled_slot solid, if_false, read prefixes cs solid]

end Slot

theorem mapM_slot {f : List Char → Except PatternFault String} {before after : List (List Char)}
    {x : List Char} {s : String} {found : List String} (ran : (before ++ x :: after).mapM f = .ok found)
    (read : f x = .ok s) : ∃ earlier later, found = earlier ++ s :: later ∧
      ∀ y t, f y = .ok t → (before ++ y :: after).mapM f = .ok (earlier ++ t :: later) := by
  rw [List.mapM_append, List.mapM_cons] at ran
  cases front : before.mapM f with
  | error fault => simp [front, bind, Except.bind] at ran
  | ok earlier =>
    cases back : after.mapM f with
    | error fault => simp [front, back, read, bind, Except.bind] at ran
    | ok later =>
      simp only [front, back, read, bind, Except.bind, pure, Except.pure, Except.ok.injEq] at ran
      refine ⟨earlier, later, ran.symm, fun y t other => ?_⟩
      rw [List.mapM_append, List.mapM_cons]
      simp [front, back, other, bind, Except.bind, pure, Except.pure]

theorem assemble_slot {anchor : Anchor} {earlier later : List String} {s t : String}
    (same : assemble anchor (earlier ++ s :: later) = assemble anchor (earlier ++ t :: later)) : s = t := by
  have letters := congrArg String.toList ((String.append_right_inj _).mp same)
  rw [String.toList_intercalate, String.toList_intercalate] at letters
  have behind := congrArg (List.cons '/') letters
  change '/' :: List.intercalate ['/'] _ = '/' :: List.intercalate ['/'] _ at behind
  rw [← joined_eq_intercalate _ (by simp), ← joined_eq_intercalate _ (by simp)] at behind
  simpa [String.toList_inj] using behind

def prefixed (label name : String) : String := label ++ ":" ++ name
def braced (uri name : String) : String := "\x7b" ++ uri ++ "\x7d" ++ name

section Spellings
variable {prefixes : Prefixes} {label uri name front back : String} {p : Pattern}

theorem prefixed_toList : (prefixed label name).toList = label.toList ++ ':' :: name.toList := by
  simp [prefixed]

theorem braced_toList :
    (braced uri name).toList = '\x7b' :: uri.toList ++ '\x7d' :: name.toList := by
  simp [braced]

theorem expandSegment_prefixed (bound : prefixes[label]? = some uri) (plain : ∀ c ∈ label.toList,
    c ∉ [':', '/', '!', '\x7b', '\x7d'] ∧ isBlank c = false) (word : IsWord name.toList) :
    expandSegment prefixes (prefixed label name).toList = .ok (QName.text ⟨uri, name⟩) := by
  have lacks : ∀ c ∈ [':', '\x7b'], c ∉ label.toList := by
    intro c reserved member
    refine (plain c member).1 ?_
    simp only [List.mem_cons, List.not_mem_nil, or_false] at reserved ⊢
    tauto
  rw [prefixed_toList, expandSegment_labelled (lacks _ (by decide))
    (head?_ne_of_notMem (lacks _ (by decide))), checkName_of_isName word.isName, String.ofList_toList,
    bound, String.ofList_toList]
  rfl

theorem expandSegment_braced (closing : '\x7d' ∉ uri.toList) (word : IsWord name.toList) :
    expandSegment prefixes (braced uri name).toList = .ok (braced uri name) := by
  rw [braced_toList, word.expandSegment_written closing, ← braced_toList, String.ofList_toList]

theorem text_eq_braced : QName.text ⟨uri, name⟩ = braced uri name ↔ uri ≠ "" := by
  unfold QName.text braced
  constructor
  · rintro same rfl
    have count := congrArg (fun s : String => s.toList.length) same
    simp at count
    omega
  · intro some
    simp [some]

-- Both spellings are read in the same surroundings, so what comes out differs in one segment at most.
theorem parse_braced (bound : prefixes[label]? = some uri) (plain : ∀ c ∈ label.toList,
    c ∉ [':', '/', '!', '\x7b', '\x7d'] ∧ isBlank c = false) (closing : '\x7d' ∉ uri.toList)
    (word : IsWord name.toList) (opens : Opens front.toList) (closes : Closes back.toList)
    (accepted : parse prefixes (front ++ prefixed label name ++ back) = .ok p) :
    ∃ fixed, parse prefixes (front ++ braced uri name ++ back) =
        .ok { p with source := front ++ braced uri name ++ back, fixed } ∧
      (fixed = p.fixed ↔ uri ≠ "") := by
  obtain ⟨universal, anchor, form, before, after, read⟩ := parse_slot opens closes
  have solid : Solid (prefixed label name).toList := prefixed_toList ▸ solid_labelled plain word
  have solidToo : Solid (braced uri name).toList := braced_toList ▸ solid_written closing word
  have letters : ∀ s : String, (front ++ s ++ back).toList = front.toList ++ s.toList ++ back.toList := by
    simp
  rw [read prefixes _ solid _ (letters _)] at accepted
  cases ran : (before ++ (prefixed label name).toList :: after).mapM (expandSegment prefixes) with
  | error fault => simp [ran, bind, Except.bind] at accepted
  | ok found =>
    obtain ⟨earlier, later, rfl, other⟩ := mapM_slot ran (expandSegment_prefixed bound plain word)
    simp only [ran, bind, Except.bind, pure, Except.pure, Except.ok.injEq] at accepted
    subst accepted
    refine ⟨assemble anchor (earlier ++ braced uri name :: later), ?_, ?_⟩
    · rw [read prefixes _ solidToo _ (letters _), other _ _ (expandSegment_braced closing word)]
      rfl
    · have unlike : QName.text ⟨uri, name⟩ = braced uri name ↔ uri ≠ "" := text_eq_braced
      rw [← unlike]
      exact ⟨fun same => assemble_slot same.symm, fun same => by rw [same]⟩

end Spellings

end Pattern
end XmlRules
