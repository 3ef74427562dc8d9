import XmlRules.Proofs.PatternKey
namespace XmlRules

namespace Path

theorem inUriAfter_of_no_opening (cs : List Char) (opening : '\x7b' ∉ cs) :
    inUriAfter false cs = false := by
  induction cs with
  | nil => rfl
  | cons c cs ih =>
    rw [List.mem_cons, not_or] at opening
    have still : turn false c = false := by simp [turn, Ne.symm opening.1]
    rw [inUriAfter_cons, still]
    exact ih opening.2

theorem segmentsFrom_unclosed (uri : List Char) (closing : '\x7d' ∉ uri) :
    segmentsFrom true uri = [uri] := by
  induction uri with
  | nil => rfl
  | cons c cs ih =>
    rw [List.mem_cons, not_or] at closing
    have inside : turn true c = true := by simp [turn, Ne.symm closing.1]
    rw [segmentsFrom_cons, if_neg (by simp), inside, ih closing.2]
    rfl

theorem segments_intercalate (front : List (List Char)) (last : List Char)
    (closed : ∀ s ∈ front, IsSegment s) (whole : segments last = [last]) :
    segments (List.intercalate ['/'] (front ++ [last])) = front ++ [last] := by
  induction front with
  | nil => simpa using whole
  | cons s ss ih =>
    obtain ⟨t, ts, shape⟩ := List.exists_cons_of_ne_nil (show ss ++ [last] ≠ [] by simp)
    have rest := ih fun t member => closed t (List.mem_cons_of_mem _ member)
    rw [List.cons_append, shape, List.intercalate_cons_cons, ← shape, List.append_assoc,
      List.singleton_append, segments, segmentsFrom_append_separator _ _ _ (closed s (by simp)).2]
    change segments s ++ segments _ = _
    rw [(closed s (by simp)).1, rest]
    rfl

theorem intercalate_segments (cs : List Char) : List.intercalate ['/'] (segments cs) = cs := by
  have whole := joined_segments cs
  rw [Pattern.joined_eq_intercalate (segments cs) (segmentsFrom_ne_nil _ _)] at whole
  exact (List.cons.inj whole).2

theorem intercalate_concat (ss : List (List Char)) (s : List Char) (some : ss ≠ []) :
    List.intercalate ['/'] (ss ++ [s]) = List.intercalate ['/'] ss ++ '/' :: s := by
  have behind := joined_append ss [s]
  rw [Pattern.joined_eq_intercalate _ (by simp), Pattern.joined_eq_intercalate ss some, joined_cons,
    joined_nil, List.append_nil] at behind
  exact (List.cons.inj behind).2

end Path

def Form.ending : Form → List Char
  | .anyChild => ['/', '?']
  | .anyDescendant => ['/', '*']
  | .exact | .everything => []

namespace Pattern
open Text

inductive Lead where
  | root      -- `/`
  | anywhere  -- `*/`
  | bare
deriving DecidableEq, Repr

def Lead.text : Lead → List Char
  | .root => ['/']
  | .anywhere => ['*', '/']
  | .bare => []

def Lead.anchor : Lead → Anchor
  | .root => .absolute
  | .anywhere | .bare => .relative

-- A pattern in its parts, behind the mark of a universal one.
structure Layout where
  lead : Lead
  segments : List (List Char)
  form : Form
  slashes : Nat
deriving DecidableEq, Repr

namespace Layout

def inner (l : Layout) : List Char := List.intercalate ['/'] l.segments ++ l.form.ending

def text (l : Layout) : List Char := l.lead.text ++ (l.inner ++ List.replicate l.slashes '/')

end Layout

-- One piece between separators, with no brace but the two of a URI that it begins with.
inductive IsPiece : List Char → Prop where
  | plain {cs : List Char} : '/' ∉ cs → '\x7b' ∉ cs → IsPiece cs
  | braced {uri rest : List Char} : '\x7d' ∉ uri → '/' ∉ rest → '\x7b' ∉ rest →
      IsPiece ('\x7b' :: uri ++ '\x7d' :: rest)

def IsUnclosed (cs : List Char) : Prop := ∃ uri, '\x7d' ∉ uri ∧ cs = '\x7b' :: uri

theorem IsPiece.isSegment {cs : List Char} (piece : IsPiece cs) : Path.IsSegment cs := by
  cases piece with
  | plain separator opening =>
    exact ⟨Path.segmentsFrom_of_no_separator _ _ separator, Path.inUriAfter_of_no_opening _ opening⟩
  | @braced uri rest closing separator opening =>
    exact Path.isSegment_of_uri uri rest closing
      ⟨Path.segmentsFrom_of_no_separator _ _ separator, Path.inUriAfter_of_no_opening _ opening⟩

theorem IsUnclosed.whole {cs : List Char} (unclosed : IsUnclosed cs) : Path.segments cs = [cs] := by
  obtain ⟨uri, closing, rfl⟩ := unclosed
  rw [Path.segments, Path.segmentsFrom_cons, if_neg (by simp), Path.turn_opening,
    Path.segmentsFrom_unclosed uri closing]
  rfl

-- The parts of a text are proper when they are the ones that come off it: the lead in front if there
-- is one, then every trailing slash, then the wildcard if the last piece is one.
structure Layout.Proper (l : Layout) : Prop where
  form : l.form ≠ .everything
  filled : l.segments ≠ []
  pieces : ∀ s ∈ l.segments.dropLast, IsPiece s
  last : ∀ s ∈ l.segments.getLast?, IsPiece s ∨ l.form = .exact ∧ IsUnclosed s
  ends : l.form = .exact → ∀ s ∈ l.segments.getLast?,
    s ≠ [] ∧ s ≠ ['?'] ∧ s ≠ ['*'] ∧ s.getLast? ≠ some '/'
  lead : l.lead = .bare → l.text.head? ≠ some '/' ∧ ¬ ['*', '/'] <+: l.text
  start : ∀ c ∈ l.text.head?, isBlank c = false

def Marked (universal : Bool) (cs rest : List Char) : Prop :=
  if universal then ∃ gap, gap.all isBlank = true ∧ cs = '!' :: gap ++ rest
  else cs = rest ∧ rest.head? ≠ some '!'

theorem marked_readMarker (cs : List Char) :
    Marked (readMarker cs).1 cs (readMarker cs).2 := by
  unfold readMarker
  split
  · rename_i rest
    refine ⟨rest.takeWhile isBlank, List.all_takeWhile, ?_⟩
    simp [trimStart, List.takeWhile_append_dropWhile]
  · rename_i other
    refine ⟨rfl, ?_⟩
    intro first
    obtain ⟨rest, rfl⟩ := List.head?_eq_some_iff.mp first
    exact other rest rfl

theorem dropWhile_of_head {p : Char → Bool} {cs : List Char} (stop : ∀ c ∈ cs.head?, p c = false) :
    cs.dropWhile p = cs := by
  cases cs with
  | nil => rfl
  | cons c cs => simp [stop c rfl]

theorem readMarker_of_marked {universal : Bool} {cs rest : List Char}
    (marked : Marked universal cs rest) (start : ∀ c ∈ rest.head?, isBlank c = false) :
    readMarker cs = (universal, rest) := by
  cases universal with
  | true =>
    obtain ⟨gap, blank, rfl⟩ := marked
    have off : trimStart (gap ++ rest) = rest := by
      rw [trimStart, List.dropWhile_append_of_pos (List.all_eq_true.mp blank),
        dropWhile_of_head start]
    change (true, trimStart (gap ++ rest)) = _
    rw [off]
  | false =>
    obtain ⟨rfl, other⟩ := marked
    unfold readMarker
    split
    · exact absurd rfl other
    · rfl

theorem readAnchor_shape (cs : List Char) : ∃ lead : Lead,
    (readAnchor cs).1 = lead.anchor ∧ cs = lead.text ++ (readAnchor cs).2 := by
  unfold readAnchor
  split
  · exact ⟨.anywhere, rfl, rfl⟩
  · exact ⟨.root, rfl, rfl⟩
  · exact ⟨.bare, rfl, rfl⟩

theorem dropTrailing_shape (c : Char) (cs : List Char) :
    ∃ n, cs = dropTrailing (· == c) cs ++ List.replicate n c := by
  refine ⟨(cs.reverse.takeWhile (· == c)).length, ?_⟩
  have same : cs.reverse.takeWhile (· == c) =
      List.replicate (cs.reverse.takeWhile (· == c)).length c := by
    rw [List.eq_replicate_iff]
    refine ⟨rfl, fun d member => ?_⟩
    simpa using List.all_eq_true.mp (List.all_takeWhile (p := (· == c))) d member
  have split := List.takeWhile_append_dropWhile (p := (· == c)) (l := cs.reverse)
  rw [same] at split
  rw [dropTrailing, ← List.reverse_inj, List.reverse_append, List.reverse_reverse,
    List.reverse_replicate]
  exact split.symm

theorem dropTrailing_replicate {c : Char} {cs : List Char} (n : Nat)
    (stop : cs.getLast? ≠ some c) :
    dropTrailing (· == c) (cs ++ List.replicate n c) = cs := by
  rw [dropTrailing, List.reverse_append, List.reverse_replicate,
    List.dropWhile_append_of_pos (by simp), dropWhile_of_head, List.reverse_reverse]
  intro d first
  rw [List.head?_reverse] at first
  have other : d ≠ c := by
    rintro rfl
    exact stop first
  simpa using other

def wildcard : Form → List (List Char)
  | .anyChild => [['?']]
  | .anyDescendant => [['*']]
  | .exact | .everything => []

namespace Layout

variable {l : Layout}

theorem Proper.piece (proper : l.Proper) (s : List Char) (member : s ∈ l.segments) :
    IsPiece s ∨ IsUnclosed s := by
  rw [← List.dropLast_append_getLast proper.filled, List.mem_append, List.mem_singleton] at member
  rcases member with earlier | rfl
  · exact .inl (proper.pieces s earlier)
  · exact (proper.last _ (List.getLast?_eq_some_getLast proper.filled)).imp_right And.right

theorem inner_eq (some : l.segments ≠ []) :
    l.inner = List.intercalate ['/'] (l.segments ++ wildcard l.form) := by
  unfold inner
  cases l.form with
  | anyChild => exact (Path.intercalate_concat _ _ some).symm
  | anyDescendant => exact (Path.intercalate_concat _ _ some).symm
  | exact => simp [Form.ending, wildcard]
  | everything => simp [Form.ending, wildcard]

theorem Proper.segments_inner (proper : l.Proper) :
    Path.segments l.inner = l.segments ++ wildcard l.form := by
  rw [inner_eq proper.filled]
  obtain ⟨front, last, shape⟩ := (List.eq_nil_or_concat' l.segments).resolve_left proper.filled
  have earlier : ∀ s ∈ front, Path.IsSegment s := fun s member =>
    (proper.pieces s (by simpa [shape] using member)).isSegment
  have wildcardLast : ∀ w, Path.segments w = [w] → IsPiece last →
      Path.segments (List.intercalate ['/'] (l.segments ++ [w])) = l.segments ++ [w] := by
    intro w whole piece
    apply Path.segments_intercalate _ _ _ whole
    intro s member
    rw [shape, List.mem_append, List.mem_singleton] at member
    rcases member with before | rfl
    · exact earlier s before
    · exact piece.isSegment
  have ended := proper.last last (by simp [shape])
  cases form : l.form with
  | everything => exact absurd form proper.form
  | exact =>
    rw [wildcard, List.append_nil, shape]
    apply Path.segments_intercalate _ _ earlier
    rcases ended with piece | ⟨-, unclosed⟩
    · exact piece.isSegment.1
    · exact unclosed.whole
  | anyChild =>
    simp only [form, reduceCtorEq, false_and, or_false] at ended
    exact wildcardLast _ rfl ended
  | anyDescendant =>
    simp only [form, reduceCtorEq, false_and, or_false] at ended
    exact wildcardLast _ rfl ended

theorem Proper.readForm_inner (proper : l.Proper) :
    readForm (l.segments ++ wildcard l.form) = (l.form, l.segments) := by
  cases form : l.form with
  | everything => exact absurd form proper.form
  | anyChild => simp [readForm, wildcard]
  | anyDescendant => simp [readForm, wildcard]
  | exact =>
    rw [wildcard, List.append_nil]
    unfold readForm
    split
    · rename_i last
      exact absurd rfl (proper.ends form _ last).2.1
    · rename_i last
      exact absurd rfl (proper.ends form _ last).2.2.1
    · rfl

-- The last character belongs to the wildcard or to the last segment, so no slash at the end does.
theorem Proper.last_inner (proper : l.Proper) : l.inner ≠ [] ∧ l.inner.getLast? ≠ some '/' := by
  unfold inner
  cases form : l.form with
  | everything => exact absurd form proper.form
  | anyChild => simp [Form.ending]
  | anyDescendant => simp [Form.ending]
  | exact =>
    obtain ⟨front, shape⟩ := intercalate_ends l.segments proper.filled
    obtain ⟨filled, -, -, other⟩ := proper.ends form _ (List.getLast?_eq_some_getLast proper.filled)
    rw [Form.ending, List.append_nil, shape, List.getLast?_append_of_ne_nil _ filled]
    exact ⟨by simp [filled], other⟩

theorem Proper.readAnchor_text (proper : l.Proper) :
    readAnchor l.text = (l.lead.anchor, l.inner ++ List.replicate l.slashes '/') := by
  cases lead : l.lead with
  | root => simp [text, lead, Lead.text, Lead.anchor, readAnchor]
  | anywhere => simp [text, lead, Lead.text, Lead.anchor, readAnchor]
  | bare =>
    obtain ⟨root, anywhere⟩ := proper.lead lead
    have whole : l.text = l.inner ++ List.replicate l.slashes '/' := by simp [text, lead, Lead.text]
    rw [← whole]
    unfold readAnchor
    split
    · rename_i rest same
      exact absurd ⟨rest, same.symm⟩ anywhere
    · rename_i rest same
      exact absurd (by rw [same]; rfl) root
    · rfl

theorem Proper.text_ne_everything (proper : l.Proper) : l.text ≠ ['*'] := by
  intro same
  have read := proper.readAnchor_text
  rw [same] at read
  have whole : l.inner ++ List.replicate l.slashes '/' = ['*'] := (congrArg Prod.snd read).symm
  have single : l.inner = ['*'] := by
    obtain ⟨c, cs, shape⟩ := List.exists_cons_of_ne_nil proper.last_inner.1
    rw [shape, List.cons_append, List.cons.injEq] at whole
    rw [shape, whole.1, (List.append_eq_nil_iff.mp whole.2).1]
  have pieces := proper.segments_inner
  rw [single] at pieces
  have lone : l.segments ++ wildcard l.form = [['*']] := pieces.symm
  cases form : l.form with
  | everything => exact proper.form form
  | anyChild =>
    have last := congrArg List.getLast? lone
    simp [form, wildcard] at last
  | anyDescendant =>
    rw [form, wildcard] at lone
    exact proper.filled (List.append_cancel_right (lone.trans (List.nil_append _).symm))
  | exact =>
    rw [form, wildcard, List.append_nil] at lone
    exact (proper.ends form ['*'] (by simp [lone])).2.2.1 rfl

end Layout

variable {prefixes : Prefixes} {source : String} {universal : Bool}

theorem parse_of_proper {l : Layout} (proper : l.Proper)
    (marked : Marked universal (trim source.toList) l.text) :
    parse prefixes source = do
      let expanded ← l.segments.mapM (expandSegment prefixes)
      return ⟨source, universal, l.lead.anchor, l.form, assemble l.lead.anchor expanded⟩ := by
  obtain ⟨filled, stop⟩ := proper.last_inner
  have some : l.text.isEmpty = false := by
    rw [List.isEmpty_eq_false_iff, Layout.text]
    simp [filled]
  unfold parse
  rw [readMarker_of_marked marked proper.start]
  simp only [some, Bool.false_eq_true, if_false, proper.text_ne_everything]
  unfold parseFixed
  simp only [proper.readAnchor_text, dropTrailing_replicate l.slashes stop, List.isEmpty_iff, filled,
    if_false, proper.segments_inner, proper.readForm_inner, proper.filled]

theorem readForm_shape (segments : List (List Char)) :
    (readForm segments).2 ++ wildcard (readForm segments).1 = segments := by
  unfold readForm
  split
  · rename_i last
    exact List.dropLast_append_getLast? _ last
  · rename_i last
    exact List.dropLast_append_getLast? _ last
  · exact List.append_nil _

theorem layout_of_parseFixed {rest : List Char} {p : Pattern}
    (accepted : parseFixed source prefixes universal rest = .ok p) :
    p.source = source ∧ p.universal = universal ∧
      ∃ (l : Layout) (expanded : List String), rest = l.text ∧ l.segments ≠ [] ∧
        (∀ w ∈ l.segments, Path.segments w = [w]) ∧
        List.Forall₂ (fun w s => expandSegment prefixes w = .ok s) l.segments expanded ∧
        p.anchor = l.lead.anchor ∧ p.form = l.form ∧ l.form ≠ .everything ∧
        p.fixed = assemble l.lead.anchor expanded := by
  obtain ⟨lead, anchors, shape⟩ := readAnchor_shape rest
  obtain ⟨slashes, behind⟩ := dropTrailing_shape '/' (readAnchor rest).2
  unfold parseFixed at accepted
  generalize readAnchor rest = anchored at accepted anchors shape behind
  obtain ⟨anchor, body⟩ := anchored
  simp only [bind, Except.bind, pure, Except.pure] at accepted anchors shape behind
  split at accepted
  · cases accepted
  split at accepted
  · cases accepted
  rename_i nonempty
  rw [List.isEmpty_iff] at nonempty
  split at accepted
  · cases accepted
  rename_i expanded ran
  cases accepted
  let l : Layout := ⟨lead, (readForm (Path.segments (dropTrailing (· == '/') body))).2,
    (readForm (Path.segments (dropTrailing (· == '/') body))).1, slashes⟩
  have inner : l.inner = dropTrailing (· == '/') body := by
    rw [Layout.inner_eq nonempty]
    change List.intercalate ['/'] ((readForm _).2 ++ wildcard (readForm _).1) = _
    rw [readForm_shape, Path.intercalate_segments]
  refine ⟨rfl, rfl, l, expanded, ?_, nonempty, ?_, mapM_ok ran, anchors, rfl,
    readForm_ne_everything _, by rw [anchors]⟩
  · rw [Layout.text, inner, ← behind]
    exact shape
  · intro w member
    exact whole_of_mem_segments (mem_of_mem_readForm member)

theorem layout_of_parse {p : Pattern} (accepted : parse prefixes source = .ok p) :
    p.source = source ∧ ∃ rest, Marked p.universal (trim source.toList) rest ∧
      ((rest = ['*'] ∧ p.anchor = .relative ∧ p.form = .everything ∧ p.fixed = "") ∨
        ∃ (l : Layout) (expanded : List String), rest = l.text ∧ l.segments ≠ [] ∧
          (∀ w ∈ l.segments, Path.segments w = [w]) ∧
          List.Forall₂ (fun w s => expandSegment prefixes w = .ok s) l.segments expanded ∧
          p.anchor = l.lead.anchor ∧ p.form = l.form ∧ l.form ≠ .everything ∧
          p.fixed = assemble l.lead.anchor expanded) := by
  have marked := marked_readMarker (trim source.toList)
  unfold parse at accepted
  generalize readMarker (trim source.toList) = split at accepted marked
  obtain ⟨universal, rest⟩ := split
  simp only at accepted
  split at accepted
  · cases accepted
  split at accepted
  · rename_i everything
    cases accepted
    exact ⟨rfl, rest, marked, .inl ⟨everything, rfl, rfl, rfl⟩⟩
  · obtain ⟨same, rfl, layout⟩ := layout_of_parseFixed accepted
    exact ⟨same, rest, marked, .inr layout⟩

end Pattern
end XmlRules
