import Mathlib.Data.List.Induction
import XmlRules.Path
namespace XmlRules.Path
open Text

def turn (inUri : Bool) (c : Char) : Bool :=
  if c = '\x7b' then true else if c = '\x7d' then false else inUri

def inUriAfter (inUri : Bool) (cs : List Char) : Bool := cs.foldl turn inUri

@[simp] theorem inUriAfter_nil (inUri : Bool) : inUriAfter inUri [] = inUri := rfl

@[simp] theorem inUriAfter_cons (inUri : Bool) (c : Char) (cs : List Char) :
    inUriAfter inUri (c :: cs) = inUriAfter (turn inUri c) cs := rfl

@[simp] theorem inUriAfter_append (inUri : Bool) (l r : List Char) :
    inUriAfter inUri (l ++ r) = inUriAfter (inUriAfter inUri l) r := List.foldl_append

@[simp] theorem turn_separator (inUri : Bool) : turn inUri '/' = inUri := rfl
@[simp] theorem turn_opening (inUri : Bool) : turn inUri '\x7b' = true := rfl
@[simp] theorem turn_closing (inUri : Bool) : turn inUri '\x7d' = false := rfl

def prepend (c : Char) : List (List Char) → List (List Char)
  | [] => [[c]]
  | s :: ss => (c :: s) :: ss

theorem segmentsFrom_cons (inUri : Bool) (c : Char) (cs : List Char) :
    segmentsFrom inUri (c :: cs) =
      if c = '/' ∧ inUri = false then [] :: segmentsFrom inUri cs
      else prepend c (segmentsFrom (turn inUri c) cs) := by
  rw [segmentsFrom]
  split
  · rfl
  · change (match segmentsFrom (turn inUri c) cs with
      | [] => [[c]]
      | s :: ss => (c :: s) :: ss) = _
    cases segmentsFrom (turn inUri c) cs <;> rfl

theorem separatorsFrom_cons (inUri : Bool) (offset : Nat) (c : Char) (cs : List Char) :
    separatorsFrom inUri offset (c :: cs) =
      if c = '/' ∧ inUri = false then offset :: separatorsFrom inUri (offset + 1) cs
      else separatorsFrom (turn inUri c) (offset + c.utf8Size) cs := by
  rw [separatorsFrom]
  by_cases opening : c = '\x7b'
  · simp [opening]
  · by_cases closing : c = '\x7d'
    · simp [closing]
    · by_cases cut : c = '/' ∧ inUri = false
      · obtain ⟨rfl, rfl⟩ := cut
        rfl
      · simp [opening, closing, cut, turn]

theorem segmentsFrom_ne_nil (inUri : Bool) (cs : List Char) : segmentsFrom inUri cs ≠ [] := by
  cases cs with
  | nil => simp [segmentsFrom]
  | cons c cs =>
    rw [segmentsFrom_cons]
    split
    · simp
    · cases segmentsFrom (turn inUri c) cs <;> simp [prepend]

theorem length_segmentsFrom (inUri : Bool) (offset : Nat) (cs : List Char) :
    (segmentsFrom inUri cs).length = (separatorsFrom inUri offset cs).length + 1 := by
  induction cs generalizing inUri offset with
  | nil => rfl
  | cons c cs ih =>
    rw [segmentsFrom_cons, separatorsFrom_cons]
    split
    · simp [ih inUri (offset + 1)]
    · rw [← ih (turn inUri c)]
      cases pieces : segmentsFrom (turn inUri c) cs with
      | nil => exact absurd pieces (segmentsFrom_ne_nil _ _)
      | cons s ss => rfl

theorem segmentsFrom_append_separator (inUri : Bool) (l r : List Char)
    (outside : inUriAfter inUri l = false) :
    segmentsFrom inUri (l ++ '/' :: r) = segmentsFrom inUri l ++ segmentsFrom false r := by
  induction l generalizing inUri with
  | nil =>
    rw [inUriAfter_nil] at outside
    subst outside
    rfl
  | cons c cs ih =>
    rw [inUriAfter_cons] at outside
    rw [List.cons_append, segmentsFrom_cons, segmentsFrom_cons]
    split
    · rename_i cut
      obtain ⟨rfl, rfl⟩ := cut
      rw [ih false outside, List.cons_append]
    · rw [ih _ outside]
      cases pieces : segmentsFrom (turn inUri c) cs with
      | nil => exact absurd pieces (segmentsFrom_ne_nil _ _)
      | cons s ss => rfl

theorem separatorsFrom_append_separator (inUri : Bool) (offset : Nat) (l r : List Char)
    (outside : inUriAfter inUri l = false) :
    separatorsFrom inUri offset (l ++ '/' :: r) = separatorsFrom inUri offset l ++
      (offset + width l) :: separatorsFrom false (offset + width l + 1) r := by
  induction l generalizing inUri offset with
  | nil =>
    rw [inUriAfter_nil] at outside
    subst outside
    rfl
  | cons c cs ih =>
    rw [inUriAfter_cons] at outside
    rw [List.cons_append, separatorsFrom_cons, separatorsFrom_cons]
    split
    · rename_i cut
      obtain ⟨rfl, rfl⟩ := cut
      rw [ih false (offset + 1) outside, List.cons_append]
      simp [width, Nat.add_assoc, show ('/' : Char).utf8Size = 1 from rfl]
    · rw [ih _ _ outside]
      simp [width, Nat.add_assoc]

-- A text that is one piece and leaves no brace open.
def IsSegment (cs : List Char) : Prop := segments cs = [cs] ∧ inUriAfter false cs = false

theorem segmentsFrom_of_no_separator (inUri : Bool) (cs : List Char) (free : '/' ∉ cs) :
    segmentsFrom inUri cs = [cs] := by
  induction cs generalizing inUri with
  | nil => rfl
  | cons c cs ih =>
    rw [List.mem_cons, not_or] at free
    rw [segmentsFrom_cons, if_neg (fun cut => free.1 cut.1.symm), ih _ free.2]
    rfl

theorem inUriAfter_of_no_brace (inUri : Bool) (cs : List Char) (opening : '\x7b' ∉ cs)
    (closing : '\x7d' ∉ cs) : inUriAfter inUri cs = inUri := by
  induction cs with
  | nil => rfl
  | cons c cs ih =>
    rw [List.mem_cons, not_or] at opening closing
    have still : turn inUri c = inUri := by
      simp [turn, Ne.symm opening.1, Ne.symm closing.1]
    rw [inUriAfter_cons, still]
    exact ih opening.2 closing.2

theorem isSegment_of_plain (cs : List Char) (separator : '/' ∉ cs) (opening : '\x7b' ∉ cs)
    (closing : '\x7d' ∉ cs) : IsSegment cs :=
  ⟨segmentsFrom_of_no_separator _ _ separator, inUriAfter_of_no_brace _ _ opening closing⟩

theorem segmentsFrom_uri (uri rest : List Char) (closing : '\x7d' ∉ uri)
    (whole : segmentsFrom false rest = [rest]) :
    segmentsFrom true (uri ++ '\x7d' :: rest) = [uri ++ '\x7d' :: rest] := by
  induction uri with
  | nil =>
    rw [List.nil_append, segmentsFrom_cons, if_neg (by simp), turn_closing, whole]
    rfl
  | cons c cs ih =>
    rw [List.mem_cons, not_or] at closing
    have inside : turn true c = true := by simp [turn, Ne.symm closing.1]
    rw [List.cons_append, segmentsFrom_cons, if_neg (by simp), inside, ih closing.2]
    rfl

theorem isSegment_of_uri (uri name : List Char) (closing : '\x7d' ∉ uri) (plain : IsSegment name) :
    IsSegment ('\x7b' :: uri ++ '\x7d' :: name) := by
  refine ⟨?_, ?_⟩
  · have pieces := segmentsFrom_uri uri name closing plain.1
    rw [segments, List.cons_append, segmentsFrom_cons, if_neg (by simp), turn_opening, pieces]
    rfl
  · simp [plain.2]

def joined (ss : List (List Char)) : List Char := ss.flatMap ('/' :: ·)

@[simp] theorem joined_nil : joined [] = [] := rfl
@[simp] theorem joined_cons (s : List Char) (ss : List (List Char)) :
    joined (s :: ss) = '/' :: s ++ joined ss := rfl
@[simp] theorem joined_append (ss ts : List (List Char)) : joined (ss ++ ts) = joined ss ++ joined ts :=
  List.flatMap_append

theorem joined_segmentsFrom (inUri : Bool) (cs : List Char) :
    joined (segmentsFrom inUri cs) = '/' :: cs := by
  induction cs generalizing inUri with
  | nil => rfl
  | cons c cs ih =>
    rw [segmentsFrom_cons]
    split
    · rename_i cut
      obtain ⟨rfl, rfl⟩ := cut
      simp [ih]
    · have rest := ih (turn inUri c)
      cases pieces : segmentsFrom (turn inUri c) cs with
      | nil => exact absurd pieces (segmentsFrom_ne_nil _ _)
      | cons s ss =>
        rw [pieces, joined_cons, List.cons_append, List.cons.injEq] at rest
        simp [prepend, rest.2]

theorem joined_segments (cs : List Char) : joined (segments cs) = '/' :: cs :=
  joined_segmentsFrom false cs

theorem inUriAfter_joined (ss : List (List Char)) (whole : ∀ s ∈ ss, IsSegment s) :
    inUriAfter false (joined ss) = false := by
  induction ss with
  | nil => rfl
  | cons s ss ih =>
    rw [joined_cons, List.cons_append, inUriAfter_cons, inUriAfter_append, turn_separator,
      (whole s (by simp)).2]
    exact ih fun t member => whole t (List.mem_cons_of_mem _ member)

-- Splitting finds the segments again; the piece in front of the first separator is empty.
theorem segments_joined (ss : List (List Char)) (whole : ∀ s ∈ ss, IsSegment s) :
    segments (joined ss) = [] :: ss := by
  induction ss using List.reverseRecOn with
  | nil => rfl
  | append_singleton ss s ih =>
    have earlier : ∀ t ∈ ss, IsSegment t := fun t member => whole t (by simp [member])
    rw [joined_append, segments, joined_cons, joined_nil, List.append_nil,
      segmentsFrom_append_separator _ _ _ (inUriAfter_joined ss earlier)]
    change segments (joined ss) ++ segments s = _
    rw [ih earlier, (whole s (by simp)).1]
    rfl

theorem split_last (inUri : Bool) (cs : List Char) : segmentsFrom inUri cs = [cs] ∨
    ∃ l r, cs = l ++ '/' :: r ∧ inUriAfter inUri l = false ∧ segmentsFrom false r = [r] := by
  induction cs generalizing inUri with
  | nil => exact .inl rfl
  | cons c cs ih =>
    by_cases cut : c = '/' ∧ inUri = false
    · obtain ⟨rfl, rfl⟩ := cut
      rcases ih false with whole | ⟨l, r, rfl, outside, last⟩
      · exact .inr ⟨[], cs, rfl, rfl, whole⟩
      · exact .inr ⟨'/' :: l, r, rfl, outside, last⟩
    · rcases ih (turn inUri c) with whole | ⟨l, r, rfl, outside, last⟩
      · refine .inl ?_
        rw [segmentsFrom_cons, if_neg cut, whole]
        rfl
      · exact .inr ⟨c :: l, r, rfl, outside, last⟩

theorem separatorsFrom_of_whole (inUri : Bool) (offset : Nat) (cs : List Char)
    (whole : segmentsFrom inUri cs = [cs]) : separatorsFrom inUri offset cs = [] := by
  have count := length_segmentsFrom inUri offset cs
  rw [whole, List.length_singleton] at count
  exact List.length_eq_zero_iff.mp (by omega)

theorem separators_of_last (path : String) (l r : List Char) (shape : path.toList = l ++ '/' :: r)
    (outside : inUriAfter false l = false) (last : segments r = [r]) :
    separators path = separatorsFrom false 0 l ++ [width l] := by
  rw [separators, shape, separatorsFrom_append_separator _ _ _ _ outside,
    separatorsFrom_of_whole _ _ _ last, Nat.zero_add]

theorem lastSegment_of_last (path : String) (l r : List Char) (shape : path.toList = l ++ '/' :: r)
    (outside : inUriAfter false l = false) (last : segments r = [r]) :
    lastSegment path = String.ofList r := by
  have dropped : dropBytes (width l + 1) (l ++ '/' :: r) = r := by
    have spread := dropBytes_width_append (l ++ ['/']) r
    rwa [width_append, List.append_assoc] at spread
  simp [lastSegment, separators_of_last path l r shape outside last, shape, dropped]

theorem lastSegment_of_whole (path : String) (whole : segments path.toList = [path.toList]) :
    lastSegment path = path := by
  simp [lastSegment, separators, separatorsFrom_of_whole _ 0 _ whole]

theorem parent?_of_last (path : String) (l r : List Char) (shape : path.toList = l ++ '/' :: r)
    (outside : inUriAfter false l = false) (last : segments r = [r]) :
    parent? path = if l = [] then none else some (String.ofList l) := by
  rw [parent?, separators_of_last path l r shape outside last, List.getLast?_concat]
  cases l with
  | nil => simp [width]
  | cons c cs =>
    have positive : 0 < width (c :: cs) := by
      have := c.utf8Size_pos
      simp only [width]
      omega
    simp only [Option.filter, positive, decide_true, if_true, Option.map_some, upTo, shape,
      takeBytes_width_append]
    rfl

end XmlRules.Path
