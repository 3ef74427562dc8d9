import Mathlib.Data.List.Infix
import XmlRules.Proofs.OpenPath
namespace XmlRules

inductive TrailMove where
  | enter (q : QName)
  | leave
deriving DecidableEq

namespace Trail
open Text

def move (t : Trail) : TrailMove → Trail
  | .enter q => t.enter q
  | .leave => t.leave?.getD t

def moved (t : Trail) (moves : List TrailMove) : Trail := moves.foldl move t

def after (moves : List TrailMove) : Trail := moved {} moves

def opened (moves : List TrailMove) : List QName :=
  moves.foldl (fun names m => match m with
    | .enter q => names ++ [q]
    | .leave => names.dropLast) []

-- What the path was when this many elements were open for the last time.
def lastAt (moves : List TrailMove) (depth : Nat) : Option String :=
  (moves.inits.reverse.find? fun past => (after past).depth = depth).map fun past => (after past).path

-- Every element that these moves enter is left again, and they leave no other.
inductive Balanced : List TrailMove → Prop where
  | nil : Balanced []
  | element (q : QName) {inner rest : List TrailMove} (inside : Balanced inner)
      (behind : Balanced rest) : Balanced (.enter q :: inner ++ .leave :: rest)

variable {moves more inner : List TrailMove}

theorem moved_append (t : Trail) (moves more : List TrailMove) :
    t.moved (moves ++ more) = (t.moved moves).moved more :=
  List.foldl_append

theorem after_append (moves more : List TrailMove) :
    after (moves ++ more) = (after moves).moved more :=
  moved_append {} moves more

theorem after_enter (moves : List TrailMove) (q : QName) :
    after (moves ++ [.enter q]) = (after moves).enter q :=
  after_append moves [.enter q]

theorem after_leave (moves : List TrailMove) :
    after (moves ++ [.leave]) = (after moves).leave?.getD (after moves) :=
  after_append moves [.leave]

theorem Balanced.append (first : Balanced moves) (second : Balanced more) :
    Balanced (moves ++ more) := by
  induction first with
  | nil => exact second
  | element q inside _ _ later =>
    have whole := Balanced.element q inside later
    simpa using whole

theorem Balanced.moved_eq (balanced : Balanced moves) (t : Trail) : t.moved moves = t := by
  induction balanced generalizing t with
  | nil => rfl
  | @element q inner rest _ _ within later =>
    calc t.moved (.enter q :: inner ++ .leave :: rest)
        = (((t.enter q).moved inner).move .leave).moved rest := moved_append _ inner _
      _ = ((t.enter q).move .leave).moved rest := by rw [within]
      _ = t.moved rest := by rw [move, leave?_enter, Option.getD_some]
      _ = t := later t

theorem after_of_balanced (balanced : Balanced inner) (q : QName) (past : List TrailMove) :
    after (past ++ .enter q :: inner) = (after past).enter q := by
  rw [after_append]
  exact balanced.moved_eq _

theorem leave?_of_balanced (balanced : Balanced inner) (q : QName) (past : List TrailMove) :
    (after (past ++ .enter q :: inner)).leave? = some (after past) := by
  rw [after_of_balanced balanced, leave?_enter]

theorem exists_entered (moves : List TrailMove) (some : (after moves).leave? ≠ none) :
    ∃ earlier q inner, moves = earlier ++ .enter q :: inner ∧ Balanced inner := by
  -- The element that an end leaves open was entered before the one that is ended.
  induction count : moves.length using Nat.strongRecOn generalizing moves with
  | ind n ih =>
    rcases List.eq_nil_or_concat' moves with rfl | ⟨before, last, rfl⟩
    · exact absurd rfl some
    · rw [List.length_append, List.length_singleton] at count
      cases last with
      | enter q => exact ⟨before, q, [], rfl, .nil⟩
      | leave =>
        have inside : (after before).leave? ≠ none := by
          intro closed
          rw [after_leave, closed] at some
          exact some closed
        obtain ⟨outer, q, inner, rfl, within⟩ := ih before.length (by omega) before inside rfl
        have left : after ((outer ++ .enter q :: inner) ++ [.leave]) = after outer := by
          rw [after_leave, leave?_of_balanced within, Option.getD_some]
        rw [left] at some
        rw [List.length_append] at count
        obtain ⟨earlier, p, around, rfl, behind⟩ := ih outer.length (by omega) outer some rfl
        refine ⟨earlier, p, around ++ (.enter q :: inner ++ [.leave]), by simp, ?_⟩
        exact behind.append (.element q within .nil)

theorem leave?_isSome_iff (moves : List TrailMove) : (after moves).leave?.isSome ↔
    ∃ earlier q inner, moves = earlier ++ .enter q :: inner ∧ Balanced inner := by
  constructor
  · intro some
    exact exists_entered moves (Option.isSome_iff_ne_none.mp some)
  · rintro ⟨earlier, q, inner, rfl, balanced⟩
    rw [leave?_of_balanced balanced]
    rfl

theorem opened_enter (moves : List TrailMove) (q : QName) :
    opened (moves ++ [.enter q]) = opened moves ++ [q] := by
  simp [opened]

theorem opened_leave (moves : List TrailMove) :
    opened (moves ++ [.leave]) = (opened moves).dropLast := by
  simp [opened]

-- The trail knows the open elements and nothing else of what has happened.
theorem after_eq_along (moves : List TrailMove) : after moves = along (opened moves) := by
  induction moves using List.reverseRecOn with
  | nil => rfl
  | append_singleton moves m ih =>
    cases m with
    | enter q => rw [after_enter, ih, opened_enter, along_append]
    | leave =>
      rw [after_leave, ih, opened_leave]
      rcases List.eq_nil_or_concat' (opened moves) with none | ⟨outer, q, shape⟩
      · rw [none]
        rfl
      · rw [shape, List.dropLast_concat, along_append, leave?_enter, Option.getD_some]

theorem depth_after (moves : List TrailMove) : (after moves).depth = (opened moves).length := by
  rw [after_eq_along, depth_along]

theorem mem_of_mem_opened {q : QName} (member : q ∈ opened moves) : .enter q ∈ moves := by
  induction moves using List.reverseRecOn with
  | nil => cases member
  | append_singleton moves m ih =>
    cases m with
    | enter p =>
      rw [opened_enter, List.mem_append, List.mem_singleton] at member
      rcases member with before | rfl
      · exact List.mem_append_left _ (ih before)
      · simp
    | leave =>
      rw [opened_leave] at member
      exact List.mem_append_left _ (ih (List.dropLast_subset _ member))

theorem lastAt_snoc (moves : List TrailMove) (m : TrailMove) (depth : Nat) :
    lastAt (moves ++ [m]) depth = if (after (moves ++ [m])).depth = depth
      then some (after (moves ++ [m])).path else lastAt moves depth := by
  have steps : (moves ++ [m]).inits = moves.inits ++ [moves ++ [m]] := by
    simp [List.inits_append]
  rw [lastAt, steps, List.reverse_append, List.reverse_singleton, List.singleton_append,
    List.find?_cons]
  by_cases here : (after (moves ++ [m])).depth = depth
  · simp [here]
  · simp [here, lastAt]

theorem lastAt_eq (moves : List TrailMove) {depth : Nat} (within : depth ≤ (opened moves).length) :
    lastAt moves depth = some (along ((opened moves).take depth)).path := by
  induction moves using List.reverseRecOn with
  | nil =>
    obtain rfl : depth = 0 := Nat.le_zero.mp within
    rfl
  | append_singleton moves m ih =>
    rw [lastAt_snoc, depth_after]
    by_cases here : (opened (moves ++ [m])).length = depth
    · rw [if_pos here, after_eq_along, ← here, List.take_length]
    · rw [if_neg here]
      cases m with
      | enter q =>
        rw [opened_enter, List.length_append, List.length_singleton] at within here
        have below : depth ≤ (opened moves).length := by omega
        rw [ih below, opened_enter, List.take_append_of_le_length below]
      | leave =>
        rw [opened_leave] at within here ⊢
        have count : (opened moves).dropLast.length = _ := List.length_dropLast
        rw [ih (by omega), List.dropLast_eq_take, List.take_take, Nat.min_eq_left (by omega)]

theorem marks_along (names : List QName) : (along names).marks.reverse =
    (List.range names.length).map fun n => width (along (names.take n)).path.toList := by
  induction names using List.reverseRecOn with
  | nil => rfl
  | append_singleton outer q ih =>
    rw [along_append]
    change (width (along outer).path.toList :: (along outer).marks).reverse = _
    rw [List.reverse_cons, ih, List.length_append, List.length_singleton, List.range_succ,
      List.map_append]
    congr 1
    · apply List.map_congr_left
      intro n within
      rw [List.take_append_of_le_length (Nat.le_of_lt (List.mem_range.mp within))]
    · simp

theorem parent?_along (names : List QName) : (along names).parent? =
    if names.dropLast = [] then none else some (along names.dropLast).path := by
  rcases List.eq_nil_or_concat' names with rfl | ⟨outer, q, rfl⟩
  · rfl
  · rw [along_append, List.dropLast_concat]
    have upTo : Path.upTo ((along outer).enter q).path (width (along outer).path.toList) =
        (along outer).path := by
      have entered : ((along outer).enter q).path.toList =
          (along outer).path.toList ++ '/' :: q.letters := by
        rw [← along_append, path_append]
      rw [Path.upTo, entered, takeBytes_width_append, String.ofList_toList]
    change (if 0 < width (along outer).path.toList then _ else none) = _
    by_cases root : outer = []
    · subst root
      rfl
    · have filled := width_pos_of_ne_nil (along outer).path.toList (by
        rw [ne_eq, String.toList_eq_nil_iff, path_eq_empty_iff]
        exact root)
      rw [if_pos filled, if_neg root, upTo]

-- However elements are entered and left, and whatever their names are, the end of an element undoes
-- its start, and everything in between. And where names cannot be mistaken for anything else in a
-- path, the text of the path tells everything that the trail has noted: where its segments begin, the
-- innermost name, and the paths there have been on the way to it.
theorem scan_agrees_with_marks (moves : List TrailMove) :
    (∀ past, past ++ [.leave] <+: moves →
      ((after past).leave?.isSome ↔
        ∃ earlier q inner, past = earlier ++ .enter q :: inner ∧ Balanced inner) ∧
      ∀ earlier q inner, past = earlier ++ .enter q :: inner → Balanced inner →
        after (past ++ [.leave]) = after earlier) ∧
    ((∀ q, .enter q ∈ moves → q.Clean) →
      let t := after moves
      Path.separators t.path = t.marks.reverse ∧
      (∀ q, (opened moves).getLast? = some q → Path.lastSegment t.path = q.text) ∧
      Path.parent? t.path = t.parent? ∧
      (Path.ancestors t.path).map some = (List.range' 1 (t.depth - 1)).map (lastAt moves)) := by
  refine ⟨fun past _ => ⟨leave?_isSome_iff past, ?_⟩, fun names => ?_⟩
  · rintro earlier q inner rfl balanced
    rw [after_leave, leave?_of_balanced balanced, Option.getD_some]
  · have clean : ∀ q ∈ opened moves, q.Clean := fun q member => names q (mem_of_mem_opened member)
    intro t
    have same : t = along (opened moves) := after_eq_along moves
    rw [same]
    refine ⟨?_, fun q last => ?_, ?_, ?_⟩
    · rw [separators_path clean, marks_along]
    · obtain ⟨outer, shape⟩ := List.getLast?_eq_some_iff.mp last
      rw [shape] at clean ⊢
      exact lastSegment_path outer q clean
    · rw [parent?_path clean, parent?_along]
    · rw [ancestors_path clean, List.map_map, depth_along]
      apply List.map_congr_left
      intro n member
      have bounds := List.mem_range'_1.mp member
      rw [Function.comp_apply, lastAt_eq moves (by omega)]

-- An end too many, names of more than one byte a letter, URIs full of separators, and an element that
-- is left before another one takes its place.
theorem scan_agrees_with_marks_beside_left :
    let outer : List TrailMove := [.leave, .enter ⟨"", "r"⟩, .enter ⟨"urn:a/b", "é"⟩]
    let moves : List TrailMove := outer ++ [.enter ⟨"", "x"⟩, .leave, .enter ⟨"http://c/d", "y"⟩]
    let t := after moves
    (∀ q, .enter q ∈ moves → q.Clean) ∧ (after [.leave]).leave? = none ∧
      after (moves ++ [.leave]) = after outer ∧
      Path.separators t.path = [0, 2, 14] ∧ t.marks.reverse = [0, 2, 14] ∧
      Path.lastSegment t.path = "\x7bhttp://c/d\x7dy" ∧
      Path.parent? t.path = some "/r/\x7burn:a/b\x7dé" ∧
      (Path.ancestors t.path).map some = [lastAt moves 1, lastAt moves 2] := by
  intro outer moves t
  have clean : ∀ q, .enter q ∈ moves → q.Clean := by
    intro q member
    simp only [moves, outer, List.cons_append, List.nil_append, List.mem_cons, TrailMove.enter.injEq,
      reduceCtorEq, List.not_mem_nil, false_or, or_false] at member
    rcases member with rfl | rfl | rfl | rfl <;> decide
  obtain ⟨undone, -⟩ := scan_agrees_with_marks (moves ++ [.leave])
  obtain ⟨-, read⟩ := scan_agrees_with_marks moves
  obtain ⟨separators, last, parent, ancestors⟩ := read clean
  have whole : Balanced [.enter ⟨"", "x"⟩, .leave] := .element _ .nil .nil
  have restored : after (moves ++ [.leave]) = after outer := by
    have before := (undone moves (List.prefix_refl _)).2
      (outer ++ [.enter ⟨"", "x"⟩, .leave]) ⟨"http://c/d", "y"⟩ [] rfl .nil
    rw [before, after_append, whole.moved_eq]
  have marks : t.marks.reverse = [0, 2, 14] := by decide +kernel
  refine ⟨clean, by decide +kernel, restored, separators.trans marks, marks, ?_, ?_, ancestors⟩
  · exact last ⟨"http://c/d", "y"⟩ (by decide +kernel)
  · exact parent.trans (by decide +kernel)

end Trail
end XmlRules
