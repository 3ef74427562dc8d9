import Mathlib.Data.List.Range
import XmlRules.Proofs.Segments
import XmlRules.Trail
namespace XmlRules
open Text

-- A name that cannot be mistaken for anything else in a path: no braces in its URI, no braces and
-- no separator in its local part. Either may be empty.
def QName.Clean (q : QName) : Prop :=
  ('\x7b' ∉ q.space.toList ∧ '\x7d' ∉ q.space.toList) ∧
    '/' ∉ q.name.toList ∧ '\x7b' ∉ q.name.toList ∧ '\x7d' ∉ q.name.toList

instance (q : QName) : Decidable q.Clean := inferInstanceAs (Decidable (_ ∧ _))

def QName.letters (q : QName) : List Char := q.text.toList

theorem QName.letters_eq (q : QName) : q.letters =
    if q.space = "" then q.name.toList
    else '\x7b' :: q.space.toList ++ '\x7d' :: q.name.toList := by
  unfold QName.letters QName.text
  split <;> simp

theorem QName.letters_of_empty {q : QName} (empty : q.space = "") : q.letters = q.name.toList := by
  rw [QName.letters_eq, if_pos empty]

theorem QName.letters_of_space {q : QName} (some : q.space ≠ "") :
    q.letters = '\x7b' :: q.space.toList ++ '\x7d' :: q.name.toList := by
  rw [QName.letters_eq, if_neg some]

theorem QName.Clean.isSegment {q : QName} (clean : q.Clean) : Path.IsSegment q.letters := by
  obtain ⟨space, separator, opening, closing⟩ := clean
  have plain := Path.isSegment_of_plain _ separator opening closing
  rw [QName.letters_eq]
  split
  · exact plain
  · exact Path.isSegment_of_uri _ _ space.2 plain

namespace Path

def isBrace (c : Char) : Bool := c == '\x7b' || c == '\x7d'

def paired (inUri : Bool) : List Char → Bool
  | [] => !inUri
  | c :: cs =>
    if c = '\x7b' then !inUri && paired true cs
    else if c = '\x7d' then inUri && paired false cs
    else paired inUri cs

theorem paired_drop (inUri : Bool) (l r : List Char) (pairs : paired inUri (l ++ r) = true) :
    paired (inUriAfter inUri l) r = true := by
  induction l generalizing inUri with
  | nil => exact pairs
  | cons c cs ih =>
    rw [List.cons_append, paired] at pairs
    rw [inUriAfter_cons]
    apply ih
    by_cases opening : c = '\x7b'
    · rw [if_pos opening, Bool.and_eq_true] at pairs
      simpa [turn, opening] using pairs.2
    · by_cases closing : c = '\x7d'
      · rw [if_neg opening, if_pos closing, Bool.and_eq_true] at pairs
        simpa [turn, closing] using pairs.2
      · rw [if_neg opening, if_neg closing] at pairs
        simpa [turn, opening, closing] using pairs

theorem paired_append (inUri : Bool) (l r : List Char) (left : paired inUri l = true)
    (right : paired false r = true) : paired inUri (l ++ r) = true := by
  induction l generalizing inUri with
  | nil =>
    cases inUri with
    | false => exact right
    | true => simp [paired] at left
  | cons c cs ih =>
    rw [paired] at left
    rw [List.cons_append, paired]
    by_cases opening : c = '\x7b'
    · rw [if_pos opening, Bool.and_eq_true] at left ⊢
      exact ⟨left.1, ih true left.2⟩
    · by_cases closing : c = '\x7d'
      · rw [if_neg opening, if_pos closing, Bool.and_eq_true] at left ⊢
        exact ⟨left.1, ih false left.2⟩
      · rw [if_neg opening, if_neg closing] at left ⊢
        exact ih inUri left

theorem paired_plain (inUri : Bool) (cs rest : List Char) (opening : '\x7b' ∉ cs)
    (closing : '\x7d' ∉ cs) : paired inUri (cs ++ rest) = paired inUri rest := by
  induction cs with
  | nil => rfl
  | cons c cs ih =>
    rw [List.mem_cons, not_or] at opening closing
    rw [List.cons_append, paired, if_neg (Ne.symm opening.1), if_neg (Ne.symm closing.1)]
    exact ih opening.2 closing.2

theorem firstBrace_of_paired (cs : List Char) (pairs : paired true cs = true) :
    cs.find? isBrace = some '\x7d' := by
  induction cs with
  | nil => simp [paired] at pairs
  | cons c cs ih =>
    rw [paired] at pairs
    split at pairs
    · simp at pairs
    · rename_i opening
      by_cases closing : c = '\x7d'
      · subst closing
        rfl
      · rw [if_neg closing] at pairs
        rw [List.find?_cons_of_neg (by simp [isBrace, opening, closing])]
        exact ih pairs

end Path

theorem QName.Clean.paired {q : QName} (clean : q.Clean) : Path.paired false q.letters = true := by
  obtain ⟨space, _, opening, closing⟩ := clean
  have plain : Path.paired false q.name.toList = true := by
    have := Path.paired_plain false q.name.toList [] opening closing
    rwa [List.append_nil] at this
  rw [QName.letters_eq]
  split
  · exact plain
  · rw [List.cons_append, Path.paired, if_pos rfl, Path.paired_plain _ _ _ space.1 space.2]
    simpa [Path.paired] using plain

namespace Trail

def along (names : List QName) : Trail := names.foldl Trail.enter {}

@[simp] theorem along_nil : along [] = {} := rfl

theorem along_append (outer : List QName) (q : QName) :
    along (outer ++ [q]) = (along outer).enter q := by
  simp [along]

theorem depth_along (names : List QName) : (along names).depth = names.length := by
  induction names using List.reverseRecOn with
  | nil => rfl
  | append_singleton outer q ih =>
    rw [along_append, List.length_append]
    exact congrArg (· + 1) ih

theorem path_along (names : List QName) :
    (along names).path.toList = Path.joined (names.map QName.letters) := by
  induction names using List.reverseRecOn with
  | nil => rfl
  | append_singleton outer q ih =>
    simp [along_append, enter, ih, QName.letters]

variable {names : List QName}

theorem segments_path (clean : ∀ q ∈ names, q.Clean) :
    Path.segments (along names).path.toList = [] :: names.map QName.letters := by
  rw [path_along]
  apply Path.segments_joined
  intro s member
  obtain ⟨q, inside, rfl⟩ := List.mem_map.mp member
  exact (clean q inside).isSegment

theorem paired_path (clean : ∀ q ∈ names, q.Clean) :
    Path.paired false (along names).path.toList = true := by
  rw [path_along]
  induction names with
  | nil => rfl
  | cons q rest ih =>
    rw [List.map_cons, Path.joined_cons, List.cons_append]
    exact Path.paired_append false q.letters _ (clean q (by simp)).paired
      (ih fun r member => clean r (List.mem_cons_of_mem _ member))

theorem outside_path (clean : ∀ q ∈ names, q.Clean) :
    Path.inUriAfter false (along names).path.toList = false := by
  rw [path_along]
  apply Path.inUriAfter_joined
  intro s member
  obtain ⟨q, inside, rfl⟩ := List.mem_map.mp member
  exact (clean q inside).isSegment

theorem path_append (outer : List QName) (q : QName) :
    (along (outer ++ [q])).path.toList = (along outer).path.toList ++ '/' :: q.letters := by
  simp [path_along]

theorem path_eq_empty_iff : (along names).path = "" ↔ names = [] := by
  rw [← String.toList_inj, path_along]
  cases names <;> simp

theorem width_pos_of_ne_nil (cs : List Char) (some : cs ≠ []) : 0 < width cs := by
  cases cs with
  | nil => exact absurd rfl some
  | cons c cs =>
    have := c.utf8Size_pos
    simp only [width]
    omega

theorem separators_path (clean : ∀ q ∈ names, q.Clean) :
    Path.separators (along names).path =
      (List.range names.length).map fun n => width (along (names.take n)).path.toList := by
  induction names using List.reverseRecOn with
  | nil => rfl
  | append_singleton outer q ih =>
    have earlier : ∀ r ∈ outer, r.Clean := fun r member => clean r (by simp [member])
    have last : q.Clean := clean q (by simp)
    rw [Path.separators_of_last _ _ _ (path_append outer q) (outside_path earlier) last.isSegment.1]
    change Path.separators (along outer).path ++ _ = _
    rw [ih earlier, List.length_append, List.length_singleton, List.range_succ, List.map_append]
    congr 1
    · apply List.map_congr_left
      intro n within
      rw [List.take_append_of_le_length (Nat.le_of_lt (List.mem_range.mp within))]
    · simp

example : Path.separators "/a/\x7bu/v\x7db" = [0, 2] := by decide

theorem lastSegment_path (outer : List QName) (q : QName)
    (clean : ∀ r ∈ outer ++ [q], r.Clean) :
    Path.lastSegment (along (outer ++ [q])).path = q.text := by
  have earlier : ∀ r ∈ outer, r.Clean := fun r member => clean r (by simp [member])
  have last : q.Clean := clean q (by simp)
  rw [Path.lastSegment_of_last _ _ _ (path_append outer q) (outside_path earlier) last.isSegment.1]
  exact String.ofList_toList

theorem upTo_path (n : Nat) :
    Path.upTo (along names).path (width (along (names.take n)).path.toList) =
      (along (names.take n)).path := by
  have shape : (along names).path.toList =
      (along (names.take n)).path.toList ++ Path.joined ((names.drop n).map QName.letters) := by
    rw [path_along, path_along, ← Path.joined_append, ← List.map_append, List.take_append_drop]
  rw [Path.upTo, shape, takeBytes_width_append, String.ofList_toList]

theorem ancestors_path (clean : ∀ q ∈ names, q.Clean) :
    Path.ancestors (along names).path =
      (List.range' 1 (names.length - 1)).map fun n => (along (names.take n)).path := by
  rw [Path.ancestors, separators_path clean]
  cases count : names.length with
  | zero => rfl
  | succ k =>
    have inner : ∀ n ∈ List.range' 1 k,
        0 < width (along (names.take n)).path.toList := by
      intro n member
      have bounds := List.mem_range'_1.mp member
      apply width_pos_of_ne_nil
      rw [path_along]
      cases names with
      | nil => simp at count
      | cons q rest =>
        cases n with
        | zero => omega
        | succ m => simp
    rw [List.range_eq_range', List.range'_succ, List.map_cons,
      List.filter_cons_of_neg (by simp [width]), List.filter_eq_self.mpr, List.map_map]
    · apply List.map_congr_left
      intro n _
      exact upTo_path n
    · intro offset member
      obtain ⟨n, within, rfl⟩ := List.mem_map.mp member
      simpa using inner n within

theorem parent?_path (clean : ∀ q ∈ names, q.Clean) :
    Path.parent? (along names).path =
      if names.dropLast = [] then none else some (along names.dropLast).path := by
  induction names using List.reverseRecOn with
  | nil => rfl
  | append_singleton outer q _ =>
    have earlier : ∀ r ∈ outer, r.Clean := fun r member => clean r (by simp [member])
    have last : q.Clean := clean q (by simp)
    rw [Path.parent?_of_last _ _ _ (path_append outer q) (outside_path earlier) last.isSegment.1,
      List.dropLast_concat, String.ofList_toList]
    simp only [String.toList_eq_nil_iff, path_eq_empty_iff]

end Trail
end XmlRules
