import Mathlib.Data.List.Forall2
import XmlRules.Pattern.Parser
import XmlRules.Proofs.Segments
namespace XmlRules

-- Prefixes that cannot confuse the splitting of a pattern: none opens a brace, no URI closes one.
def Prefixes.Tidy (prefixes : Prefixes) : Prop :=
  ∀ label uri : String, prefixes[label]? = some uri →
    '\x7b' ∉ label.toList ∧ '\x7d' ∉ uri.toList

theorem Prefixes.of_insert {label uri l u : String}
    (found : (({} : Prefixes).insert label uri)[l]? = some u) : label = l ∧ uri = u := by
  rw [Std.TreeMap.getElem?_insert] at found
  split at found
  · rename_i same
    rw [Std.LawfulEqCmp.compare_eq_iff_eq] at same
    exact ⟨same, Option.some.inj found⟩
  · simp at found

namespace Pattern
open Text

theorem tidy_insert {label uri : String} (opening : '\x7b' ∉ label.toList)
    (closing : '\x7d' ∉ uri.toList) : Prefixes.Tidy (({} : Prefixes).insert label uri) := by
  intro l u found
  obtain ⟨rfl, rfl⟩ := Prefixes.of_insert found
  exact ⟨opening, closing⟩

def IsName (cs : List Char) : Prop := cs ≠ [] ∧ cs.all isNameChar = true

-- A name, or a URI in braces and a name.
def IsExpanded (cs : List Char) : Prop :=
  IsName cs ∨ ∃ uri name, IsName name ∧ cs = '\x7b' :: uri ++ '\x7d' :: name

theorem isName_of_checkName {name : List Char} (checked : checkName name = .ok ()) : IsName name := by
  unfold checkName at checked
  split at checked
  · cases checked
  · rename_i some
    split at checked
    · rename_i all
      exact ⟨by simpa using some, all⟩
    · cases checked

theorem IsName.no_brace {name : List Char} (valid : IsName name) :
    '\x7b' ∉ name ∧ '\x7d' ∉ name := by
  constructor <;> intro member
  · exact absurd (List.all_eq_true.mp valid.2 _ member) (by decide)
  · exact absurd (List.all_eq_true.mp valid.2 _ member) (by decide)

theorem letters_ne_nil {cs : List Char} (expanded : IsExpanded cs) : cs ≠ [] := by
  rcases expanded with name | ⟨uri, name, _, rfl⟩
  · exact name.1
  · simp

theorem last_isNameChar {cs : List Char} (expanded : IsExpanded cs) :
    ∃ c, cs.getLast? = some c ∧ isNameChar c = true := by
  have ends : ∀ name, IsName name → ∃ c, name.getLast? = some c ∧ isNameChar c = true := by
    intro name valid
    refine ⟨name.getLast valid.1, List.getLast?_eq_some_getLast valid.1, ?_⟩
    exact List.all_eq_true.mp valid.2 _ (List.getLast_mem valid.1)
  rcases expanded with valid | ⟨uri, name, valid, rfl⟩
  · exact ends cs valid
  · obtain ⟨c, last, char⟩ := ends name valid
    refine ⟨c, ?_, char⟩
    rw [List.getLast?_append, List.getLast?_cons, last]
    rfl

theorem cutAt_left {c : Char} {cs l r : List Char} (cut : cutAt c cs = some (l, r)) : c ∉ l := by
  induction cs generalizing l with
  | nil => simp [cutAt] at cut
  | cons d ds ih =>
    unfold cutAt at cut
    split at cut
    · cases cut
      simp
    · rename_i other
      cases rest : cutAt c ds with
      | none => simp [rest] at cut
      | some pair =>
        obtain ⟨l', r'⟩ := pair
        simp only [rest, Option.map_some, Option.some.injEq, Prod.mk.injEq] at cut
        obtain ⟨rfl, rfl⟩ := cut
        rw [List.mem_cons, not_or]
        exact ⟨fun same => other same.symm, ih rest⟩

inductive Expansion (prefixes : Prefixes) : List Char → List Char → Prop where
  | written {uri name : List Char} : '\x7d' ∉ uri → IsName name →
      Expansion prefixes ('\x7b' :: uri ++ '\x7d' :: name) ('\x7b' :: uri ++ '\x7d' :: name)
  | labelled {label name : List Char} {uri : String} : prefixes[String.ofList label]? = some uri →
      IsName name →
      Expansion prefixes (label ++ ':' :: name) (QName.text ⟨uri, String.ofList name⟩).toList
  | plain {name : List Char} : IsName name → Expansion prefixes name name

theorem expansion_of_expandSegment {prefixes : Prefixes} {segment : List Char} {s : String}
    (accepted : expandSegment prefixes segment = .ok s) :
    Expansion prefixes segment s.toList := by
  unfold expandSegment at accepted
  split at accepted
  · cases accepted
  · cases accepted
  · cases accepted
  · rename_i rest
    split at accepted
    · cases accepted
    · rename_i uri name cut
      cases checked : checkName name with
      | error fault => simp [checked, bind, Except.bind] at accepted
      | ok done =>
        simp only [checked, bind, Except.bind, pure, Except.pure, Except.ok.injEq] at accepted
        subst accepted
        rw [String.toList_ofList, eq_append_of_cutAt cut]
        exact .written (cutAt_left cut) (isName_of_checkName checked)
  · split at accepted
    · rename_i label name cut
      cases checked : checkName name with
      | error fault => simp [checked, bind, Except.bind] at accepted
      | ok done =>
        cases found : prefixes[String.ofList label]? with
        | none => simp [checked, found, bind, Except.bind] at accepted
        | some uri =>
          simp only [checked, found, bind, Except.bind, pure, Except.pure, Except.ok.injEq] at accepted
          subst accepted
          rw [eq_append_of_cutAt cut]
          exact .labelled found (isName_of_checkName checked)
    · cases checked : checkName segment with
      | error fault => simp [checked, bind, Except.bind] at accepted
      | ok done =>
        simp only [checked, bind, Except.bind, pure, Except.pure, Except.ok.injEq] at accepted
        subst accepted
        rw [String.toList_ofList]
        exact .plain (isName_of_checkName checked)

theorem text_toList (uri : String) (name : List Char) :
    (QName.text ⟨uri, String.ofList name⟩).toList =
      if uri = "" then name else '\x7b' :: uri.toList ++ '\x7d' :: name := by
  unfold QName.text
  split <;> simp

theorem Expansion.isExpanded {prefixes : Prefixes} {segment cs : List Char}
    (expansion : Expansion prefixes segment cs) : IsExpanded cs := by
  cases expansion with
  | @written uri name _ valid => exact .inr ⟨uri, name, valid, rfl⟩
  | @labelled label name uri _ valid =>
    rw [text_toList]
    split
    · exact .inl valid
    · exact .inr ⟨uri.toList, name, valid, rfl⟩
  | plain valid => exact .inl valid

theorem no_separator_of_whole {cs : List Char} (opening : '\x7b' ∉ cs)
    (whole : Path.segments cs = [cs]) : '/' ∉ cs := by
  induction cs with
  | nil => simp
  | cons c cs ih =>
    rw [List.mem_cons, not_or] at opening
    rw [Path.segments, Path.segmentsFrom_cons] at whole
    split at whole
    · exact absurd whole (by simp)
    · rename_i cut
      have still : Path.turn false c = false := by simp [Path.turn, Ne.symm opening.1]
      rw [still] at whole
      have rest : Path.segments cs = [cs] := by
        change Path.prepend c (Path.segments cs) = _ at whole
        cases pieces : Path.segments cs with
        | nil => exact absurd pieces (Path.segmentsFrom_ne_nil _ _)
        | cons s ss =>
          rw [pieces] at whole
          simpa [Path.prepend] using whole
      rw [List.mem_cons, not_or]
      exact ⟨fun same => cut ⟨same.symm, rfl⟩, ih opening.2 rest⟩

theorem whole_name_of_uri {uri name : List Char} (closing : '\x7d' ∉ uri)
    (whole : Path.segmentsFrom true (uri ++ '\x7d' :: name) = [uri ++ '\x7d' :: name]) :
    Path.segments name = [name] := by
  have single : ∀ (c : Char) (cs : List Char) (pieces : List (List Char)),
      Path.prepend c pieces = [c :: cs] → pieces ≠ [] → pieces = [cs] := by
    intro c cs pieces same some
    cases pieces with
    | nil => exact absurd rfl some
    | cons s ss => simpa [Path.prepend] using same
  induction uri with
  | nil =>
    rw [List.nil_append, Path.segmentsFrom_cons, if_neg (by simp), Path.turn_closing] at whole
    exact single _ _ _ whole (Path.segmentsFrom_ne_nil _ _)
  | cons c cs ih =>
    rw [List.mem_cons, not_or] at closing
    have inside : Path.turn true c = true := by simp [Path.turn, Ne.symm closing.1]
    rw [List.cons_append, Path.segmentsFrom_cons, if_neg (by simp), inside] at whole
    exact ih closing.2 (single _ _ _ whole (Path.segmentsFrom_ne_nil _ _))

theorem no_separator_behind_uri {uri name : List Char} (closing : '\x7d' ∉ uri) (valid : IsName name)
    (whole : Path.segments ('\x7b' :: uri ++ '\x7d' :: name) = ['\x7b' :: uri ++ '\x7d' :: name]) :
    '/' ∉ name := by
  have behind : Path.segmentsFrom true (uri ++ '\x7d' :: name) = [uri ++ '\x7d' :: name] := by
    rw [Path.segments, List.cons_append, Path.segmentsFrom_cons, if_neg (by simp),
      Path.turn_opening] at whole
    cases pieces : Path.segmentsFrom true (uri ++ '\x7d' :: name) with
    | nil => exact absurd pieces (Path.segmentsFrom_ne_nil _ _)
    | cons s ss =>
      rw [pieces] at whole
      simpa [Path.prepend] using whole
  exact no_separator_of_whole valid.no_brace.1 (whole_name_of_uri closing behind)

theorem IsName.isSegment {name : List Char} (valid : IsName name) (separator : '/' ∉ name) :
    Path.IsSegment name :=
  Path.isSegment_of_plain name separator valid.no_brace.1 valid.no_brace.2

theorem Expansion.isSegment {prefixes : Prefixes} (tidy : prefixes.Tidy) {segment cs : List Char}
    (expansion : Expansion prefixes segment cs) (whole : Path.segments segment = [segment]) :
    Path.IsSegment cs := by
  cases expansion with
  | @written uri name closing valid =>
    have separator := no_separator_behind_uri closing valid whole
    exact Path.isSegment_of_uri uri name closing (valid.isSegment separator)
  | @labelled label name uri found valid =>
    have tidyHere := tidy _ _ found
    rw [String.toList_ofList] at tidyHere
    have opening : '\x7b' ∉ label ++ ':' :: name := by
      simp [tidyHere.1, valid.no_brace.1]
    have separator : '/' ∉ name := by
      have := no_separator_of_whole opening whole
      simp only [List.mem_append, List.mem_cons, not_or] at this
      exact this.2.2
    rw [text_toList]
    split
    · exact valid.isSegment separator
    · exact Path.isSegment_of_uri uri.toList name tidyHere.2 (valid.isSegment separator)
  | plain valid => exact valid.isSegment (no_separator_of_whole valid.no_brace.1 whole)

-- What the parser promises of the patterns it accepts, whatever the prefixes are.
structure Formed (p : Pattern) : Prop where
  bare : p.form = .everything → p.anchor = .relative ∧ p.fixed = ""
  fixed : p.form ≠ .everything → ∃ segments : List String, segments ≠ [] ∧
    (∀ s ∈ segments, IsExpanded s.toList) ∧ p.fixed = assemble p.anchor segments

theorem mapM_ok {α β ε : Type} {f : α → Except ε β} {xs : List α} {ys : List β}
    (ran : xs.mapM f = .ok ys) : List.Forall₂ (fun x y => f x = .ok y) xs ys := by
  induction xs generalizing ys with
  | nil =>
    cases ran
    exact .nil
  | cons x xs ih =>
    rw [List.mapM_cons] at ran
    cases first : f x with
    | error e => simp [first, bind, Except.bind] at ran
    | ok y =>
      cases rest : xs.mapM f with
      | error e => simp [first, rest, bind, Except.bind] at ran
      | ok ys' =>
        simp only [first, rest, bind, Except.bind, pure, Except.pure, Except.ok.injEq] at ran
        subst ran
        exact .cons first (ih rest)

theorem exists_of_mem_right {α β : Type} {R : α → β → Prop} {xs : List α} {ys : List β}
    (pairs : List.Forall₂ R xs ys) {y : β} (member : y ∈ ys) : ∃ x ∈ xs, R x y := by
  induction pairs with
  | nil => simp at member
  | cons related _ ih =>
    rcases List.mem_cons.mp member with rfl | later
    · exact ⟨_, List.mem_cons_self, related⟩
    · obtain ⟨x, inside, related⟩ := ih later
      exact ⟨x, List.mem_cons_of_mem _ inside, related⟩

theorem pieces_whole (inUri : Bool) (cs : List Char) :
    (∀ s ∈ (Path.segmentsFrom inUri cs).head?, Path.segmentsFrom inUri s = [s]) ∧
      ∀ s ∈ (Path.segmentsFrom inUri cs).tail, Path.segments s = [s] := by
  induction cs generalizing inUri with
  | nil => simp [Path.segmentsFrom]
  | cons c cs ih =>
    rw [Path.segmentsFrom_cons]
    by_cases cut : c = '/' ∧ inUri = false
    · obtain ⟨rfl, rfl⟩ := cut
      obtain ⟨first, others⟩ := ih false
      rw [if_pos ⟨rfl, rfl⟩]
      refine ⟨by simp [Path.segmentsFrom], ?_⟩
      intro s member
      rw [List.tail_cons] at member
      cases pieces : Path.segmentsFrom false cs with
      | nil => simp [pieces] at member
      | cons t ts =>
        rw [pieces] at member first others
        rcases List.mem_cons.mp member with rfl | later
        · exact first s rfl
        · exact others s later
    · rw [if_neg cut]
      obtain ⟨first, others⟩ := ih (Path.turn inUri c)
      cases pieces : Path.segmentsFrom (Path.turn inUri c) cs with
      | nil => exact absurd pieces (Path.segmentsFrom_ne_nil _ _)
      | cons t ts =>
        rw [pieces] at first others
        refine ⟨?_, others⟩
        intro s member
        cases member
        rw [Path.segmentsFrom_cons, if_neg cut, first t rfl]
        rfl

theorem whole_of_mem_segments {cs s : List Char} (member : s ∈ Path.segments cs) :
    Path.segments s = [s] := by
  obtain ⟨first, others⟩ := pieces_whole false cs
  cases pieces : Path.segmentsFrom false cs with
  | nil => exact absurd pieces (Path.segmentsFrom_ne_nil _ _)
  | cons t ts =>
    rw [pieces] at first others
    rw [Path.segments, pieces] at member
    rcases List.mem_cons.mp member with rfl | later
    · exact first s rfl
    · exact others s later

theorem readForm_ne_everything (segments : List (List Char)) : (readForm segments).1 ≠ .everything := by
  unfold readForm
  split <;> simp

theorem mem_of_mem_readForm {segments : List (List Char)} {s : List Char}
    (member : s ∈ (readForm segments).2) : s ∈ segments := by
  unfold readForm at member
  split at member
  · exact List.dropLast_subset _ member
  · exact List.dropLast_subset _ member
  · exact member

theorem parse_fixed {prefixes : Prefixes} {source : String} {p : Pattern}
    (accepted : parse prefixes source = .ok p) :
    (p.form = .everything ∧ p.anchor = .relative ∧ p.fixed = "") ∨
      p.form ≠ .everything ∧ ∃ (written : List (List Char)) (segments : List String),
        segments ≠ [] ∧ (∀ w ∈ written, Path.segments w = [w]) ∧
        List.Forall₂ (fun w s => expandSegment prefixes w = .ok s) written segments ∧
        p.fixed = assemble p.anchor segments := by
  unfold parse at accepted
  generalize readMarker (trim source.toList) = marked at accepted
  obtain ⟨universal, rest⟩ := marked
  simp only at accepted
  split at accepted
  · cases accepted
  · split at accepted
    · cases accepted
      exact .inl ⟨rfl, rfl, rfl⟩
    · unfold parseFixed at accepted
      generalize readAnchor rest = anchored at accepted
      obtain ⟨anchor, body⟩ := anchored
      simp only [bind, Except.bind, pure, Except.pure] at accepted
      split at accepted
      · cases accepted
      · rename_i done
        clear done
        split at accepted
        · cases accepted
        · rename_i done
          split at accepted
          · cases accepted
          · rename_i segments expanded
            cases accepted
            have pairs := mapM_ok expanded
            refine .inr ⟨readForm_ne_everything _, _, segments, ?_, ?_, pairs, rfl⟩
            · rintro rfl
              rw [List.forall₂_nil_right_iff] at pairs
              exact done (by simp [pairs])
            · intro w member
              exact whole_of_mem_segments (mem_of_mem_readForm member)

theorem formed_of_parse {prefixes : Prefixes} {source : String} {p : Pattern}
    (accepted : parse prefixes source = .ok p) : p.Formed := by
  rcases parse_fixed accepted with ⟨form, anchor, fixed⟩ | ⟨form, written, segments, some, _, pairs, fixed⟩
  · exact ⟨fun _ => ⟨anchor, fixed⟩, fun other => absurd form other⟩
  · refine ⟨fun same => absurd same form, fun _ => ⟨segments, some, ?_, fixed⟩⟩
    intro s member
    obtain ⟨w, _, expanded⟩ := exists_of_mem_right pairs member
    exact (expansion_of_expandSegment expanded).isExpanded

-- With tidy prefixes the segments put together are the segments found again.
theorem segments_of_parse {prefixes : Prefixes} (tidy : prefixes.Tidy) {source : String} {p : Pattern}
    (accepted : parse prefixes source = .ok p) (form : p.form ≠ .everything) :
    ∃ segments : List String, segments ≠ [] ∧ p.fixed = assemble p.anchor segments ∧
      ∀ s ∈ segments, s ≠ "" ∧ Path.IsSegment s.toList := by
  rcases parse_fixed accepted with ⟨same, _⟩ | ⟨_, written, segments, some, whole, pairs, fixed⟩
  · exact absurd same form
  · refine ⟨segments, some, fixed, ?_⟩
    intro s member
    obtain ⟨w, inside, expanded⟩ := exists_of_mem_right pairs member
    have expansion := expansion_of_expandSegment expanded
    refine ⟨?_, expansion.isSegment tidy (whole w inside)⟩
    rintro rfl
    exact letters_ne_nil expansion.isExpanded rfl

theorem joined_eq_intercalate (ss : List (List Char)) (some : ss ≠ []) :
    Path.joined ss = '/' :: List.intercalate ['/'] ss := by
  induction ss with
  | nil => exact absurd rfl some
  | cons s ss ih =>
    cases ss with
    | nil => simp
    | cons t ts =>
      rw [Path.joined_cons, ih (by simp), List.intercalate_cons_cons]
      simp

theorem assemble_absolute (segments : List String) (some : segments ≠ []) :
    (assemble .absolute segments).toList = Path.joined (segments.map String.toList) := by
  rw [joined_eq_intercalate _ (by simpa using some)]
  simp [assemble, String.toList_intercalate]

theorem separator_cons_assemble_relative (segments : List String) (some : segments ≠ []) :
    '/' :: (assemble .relative segments).toList = Path.joined (segments.map String.toList) := by
  rw [joined_eq_intercalate _ (by simpa using some)]
  simp [assemble, String.toList_intercalate]

end Pattern
end XmlRules
