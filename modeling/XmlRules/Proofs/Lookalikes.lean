import XmlRules.Pattern.Parser
import XmlRules.Proofs.OpenPath
namespace XmlRules

-- A local part as elements have it: not empty, and without anything that delimits a path. Its URI
-- may be any text.
def QName.Named (q : QName) : Prop :=
  q.name ≠ "" ∧ '/' ∉ q.name.toList ∧ '\x7b' ∉ q.name.toList ∧ '\x7d' ∉ q.name.toList

instance (q : QName) : Decidable q.Named := inferInstanceAs (Decidable (_ ∧ _))

-- A URI that closes its own brace, goes on with a chain of elements and opens a brace again.
def Spells (space : String) (outer : QName) (inner : List QName) (last : String) : Prop :=
  outer.space ≠ "" ∧ space.toList = outer.space.toList ++ '\x7d' :: outer.name.toList ++
    Path.joined (inner.map QName.letters) ++ '/' :: '\x7b' :: last.toList

def Chainlike (space : String) : Prop :=
  ∃ outer inner last, outer.Named ∧ (∀ q ∈ inner, q.Named) ∧ Spells space outer inner last

theorem delimiters_of_chainlike {space : String} (chain : Chainlike space) :
    '\x7d' ∈ space.toList ∧ '/' ∈ space.toList ∧ '\x7b' ∈ space.toList := by
  obtain ⟨outer, inner, last, _, _, _, spelled⟩ := chain
  simp [spelled]

namespace Path

theorem eq_append_of_plain {c : Char} {plain rest l r : List Char} (free : c ∉ plain)
    (same : plain ++ rest = l ++ c :: r) : ∃ m, l = plain ++ m ∧ rest = m ++ c :: r := by
  rcases List.append_eq_append_iff.mp same with ⟨m, left, right⟩ | ⟨m, left, right⟩
  · exact ⟨m, left, right⟩
  · cases m with
    | nil => exact ⟨[], by simpa using left.symm, by simpa using right.symm⟩
    | cons d ds =>
      obtain ⟨rfl, _⟩ := List.cons.inj right
      exact absurd (by simp [left]) free

theorem takeWhile_joined (ss : List (List Char)) : (joined ss).takeWhile (· != '/') = [] := by
  cases ss <;> simp

theorem takeWhile_plain {plain : List Char} (free : '/' ∉ plain) (ss : List (List Char)) :
    (plain ++ joined ss).takeWhile (· != '/') = plain := by
  rw [List.takeWhile_append_of_pos, takeWhile_joined, List.append_nil]
  intro c member
  have other : c ≠ '/' := fun same => free (same ▸ member)
  simpa using other

theorem eq_of_plain {plain other : List Char} {ss ts : List (List Char)} (free : '/' ∉ plain)
    (clear : '/' ∉ other) (same : plain ++ joined ss = other ++ joined ts) :
    plain = other ∧ joined ss = joined ts := by
  have heads := congrArg (List.takeWhile (· != '/')) same
  rw [takeWhile_plain free, takeWhile_plain clear] at heads
  subst heads
  exact ⟨rfl, List.append_cancel_left same⟩

end Path

namespace QName
open XmlRules.Path

-- In a chain of elements a closing brace has an opening one in front of it, at the head of a segment.
theorem opened_of_closing {names : List QName} (named : ∀ q ∈ names, q.Named) {l r : List Char}
    (shape : joined (names.map letters) = l ++ '\x7d' :: r) :
    ∃ (inner : List QName) (last : List Char), (∀ q ∈ inner, q.Named) ∧
      l = joined (inner.map letters) ++ '/' :: '\x7b' :: last := by
  induction names generalizing l with
  | nil => simp at shape
  | cons q rest ih =>
    obtain ⟨_, _, _, closing⟩ := named q List.mem_cons_self
    have later : ∀ p ∈ rest, p.Named := fun p member => named p (List.mem_cons_of_mem _ member)
    -- Where the brace is not this element's, it is sought among the others.
    have beyond {m : List Char} (left : l = '/' :: q.letters ++ m)
        (right : joined (rest.map letters) = m ++ '\x7d' :: r) :
        ∃ (inner : List QName) (last : List Char), (∀ p ∈ inner, p.Named) ∧
          l = joined (inner.map letters) ++ '/' :: '\x7b' :: last := by
      obtain ⟨inner, last, plain, spelled⟩ := ih later right
      refine ⟨q :: inner, last, ?_, by simp [left, spelled]⟩
      intro p member
      rcases List.mem_cons.mp member with rfl | further
      · exact named p List.mem_cons_self
      · exact plain p further
    rw [List.map_cons, joined_cons, List.cons_append] at shape
    cases l with
    | nil => simp at shape
    | cons c l =>
      obtain ⟨rfl, behind⟩ := List.cons.inj shape
      rw [List.append_eq] at behind
      by_cases empty : q.space = ""
      · rw [letters_of_empty empty] at behind
        obtain ⟨m, rfl, right⟩ := eq_append_of_plain closing behind
        exact beyond (by simp [letters_of_empty empty]) right
      · rw [letters_of_space empty, List.cons_append, List.cons_append] at behind
        cases l with
        | nil => simp at behind
        | cons d l =>
          obtain ⟨rfl, uri⟩ := List.cons.inj behind
          rw [List.append_eq, List.append_assoc, List.cons_append] at uri
          rcases List.append_eq_append_iff.mp uri with ⟨m, rfl, right⟩ | ⟨m, left, _⟩
          · cases m with
            | nil => exact ⟨[], q.space.toList, by simp, by simp⟩
            | cons e m =>
              obtain ⟨rfl, named⟩ := List.cons.inj right
              obtain ⟨n, rfl, rest⟩ := eq_append_of_plain closing named
              exact beyond (by simp [letters_of_space empty]) rest
          · exact ⟨[], l, by simp, rfl⟩

theorem chainlike_of_longer {p q : QName} {rest others : List QName} {m : List Char} (named : p.Named)
    (within : ∀ r ∈ rest, r.Named) (filled : p.space ≠ "")
    (longer : q.space.toList = p.space.toList ++ '\x7d' :: m)
    (same : p.name.toList ++ joined (rest.map letters) =
      m ++ '\x7d' :: (q.name.toList ++ joined (others.map letters))) : Chainlike q.space := by
  obtain ⟨n, rfl, shape⟩ := eq_append_of_plain named.2.2.2 same
  obtain ⟨inner, last, plain, rfl⟩ := opened_of_closing within shape
  exact ⟨p, inner, String.ofList last, named, plain, filled, by simp [longer]⟩

theorem letters_head_of_empty {q : QName} (named : q.Named) (empty : q.space = "") (cs : List Char) :
    (q.letters ++ cs).head? ≠ some '\x7b' := by
  rw [letters_of_empty empty]
  cases letters : q.name.toList with
  | nil => exact absurd (String.toList_eq_nil_iff.mp letters) named.1
  | cons c rest =>
    have other := named.2.2.1
    rw [letters] at other
    rintro same
    cases same
    exact other List.mem_cons_self

theorem eq_of_letters {p q : QName} {rest others : List QName} (named : p.Named) (other : q.Named)
    (within : ∀ r ∈ rest, r.Named) (beside : ∀ r ∈ others, r.Named) (left : ¬ Chainlike p.space)
    (right : ¬ Chainlike q.space)
    (same : p.letters ++ joined (rest.map letters) = q.letters ++ joined (others.map letters)) :
    p = q ∧ joined (rest.map letters) = joined (others.map letters) := by
  have finish (spaces : p.space = q.space)
      (names : p.name.toList ++ joined (rest.map letters) =
        q.name.toList ++ joined (others.map letters)) :
      p = q ∧ joined (rest.map letters) = joined (others.map letters) := by
    obtain ⟨alike, later⟩ := eq_of_plain named.2.1 other.2.1 names
    cases p
    cases q
    cases spaces
    cases String.toList_inj.mp alike
    exact ⟨rfl, later⟩
  by_cases plain : p.space = ""
  · by_cases bare : q.space = ""
    · rw [letters_of_empty plain, letters_of_empty bare] at same
      exact finish (plain.trans bare.symm) same
    · have head := letters_head_of_empty named plain (joined (rest.map letters))
      rw [same, letters_of_space bare] at head
      exact absurd rfl head
  · by_cases bare : q.space = ""
    · have head := letters_head_of_empty other bare (joined (others.map letters))
      rw [← same, letters_of_space plain] at head
      exact absurd rfl head
    · rw [letters_of_space plain, letters_of_space bare] at same
      simp only [List.cons_append, List.append_assoc, List.cons.injEq, true_and] at same
      rcases List.append_eq_append_iff.mp same with ⟨m, longer, tail⟩ | ⟨m, longer, tail⟩
      · cases m with
        | nil =>
          refine finish (String.toList_inj.mp (by simpa using longer.symm)) ?_
          simpa using tail
        | cons c m =>
          obtain ⟨rfl, behind⟩ := List.cons.inj tail
          exact absurd (chainlike_of_longer named within plain longer behind) right
      · cases m with
        | nil =>
          refine finish (String.toList_inj.mp (by simpa using longer)) ?_
          simpa using tail.symm
        | cons c m =>
          obtain ⟨rfl, behind⟩ := List.cons.inj tail
          exact absurd (chainlike_of_longer other beside bare longer behind) left

end QName

namespace Trail
open XmlRules.Path QName

theorem eq_of_joined {names others : List QName} (named : ∀ q ∈ names, q.Named)
    (beside : ∀ q ∈ others, q.Named) (left : ∀ q ∈ names, ¬ Chainlike q.space)
    (right : ∀ q ∈ others, ¬ Chainlike q.space)
    (same : joined (names.map letters) = joined (others.map letters)) : names = others := by
  induction names generalizing others with
  | nil =>
    cases others with
    | nil => rfl
    | cons q others => simp at same
  | cons p names ih =>
    cases others with
    | nil => simp at same
    | cons q others =>
      rw [List.forall_mem_cons] at named beside left right
      simp only [List.map_cons, joined_cons, List.cons_append, List.cons.injEq, true_and] at same
      obtain ⟨rfl, later⟩ :=
        eq_of_letters named.1 beside.1 named.2 beside.2 left.1 right.1 same
      rw [ih named.2 beside.2 left.2 right.2 later]

theorem letters_of_spells {q outer : QName} {inner : List QName} {last : String}
    (spelled : Spells q.space outer inner last) (some : last ≠ "") :
    '/' :: q.letters = joined ((outer :: inner ++ [(⟨last, q.name⟩ : QName)]).map letters) := by
  obtain ⟨filled, spelled⟩ := spelled
  have own : q.space ≠ "" := by
    rintro empty
    simp [empty] at spelled
  simp [letters_of_space own, letters_of_space filled, letters_of_space (q := ⟨last, q.name⟩) some,
    spelled]

-- A path tells which elements are open, whatever their URIs, unless one of these spells a chain of
-- elements. One that does has the path of a longer stack, with that chain in the element's place.
theorem eq_of_path_eq (names others : List QName) (named : ∀ q ∈ names ++ others, q.Named) :
    ((∀ q ∈ names ++ others, ¬ Chainlike q.space) →
      (along names).path = (along others).path → names = others) ∧
    ∀ (above : List QName) (q : QName) (below : List QName) (outer : QName) (inner : List QName)
      (last : String), names = above ++ q :: below → Spells q.space outer inner last → last ≠ "" →
      let longer := above ++ (outer :: inner ++ [⟨last, q.name⟩]) ++ below
      (along names).path = (along longer).path ∧ names.length < longer.length := by
  constructor
  · intro clear same
    rw [List.forall_mem_append] at named clear
    have letters := congrArg String.toList same
    rw [path_along, path_along] at letters
    exact eq_of_joined named.1 named.2 clear.1 clear.2 letters
  · rintro above q below outer inner last rfl spelled some
    have more : (above ++ q :: below).length <
        (above ++ (outer :: inner ++ [(⟨last, q.name⟩ : QName)]) ++ below).length := by
      simp only [List.length_append, List.length_cons, List.length_nil]
      omega
    refine ⟨String.toList_inj.mp ?_, more⟩
    rw [path_along, path_along, List.map_append, List.map_append, List.map_append, List.map_cons,
      joined_append, joined_append, joined_append, joined_cons, letters_of_spells spelled some]
    simp

-- Braces alone do no harm: here are two stacks that differ in nothing but where a URI ends.
theorem eq_of_path_eq_with_braces :
    let names : List QName := [⟨"", "r"⟩, ⟨"\x7bu\x7da", "b"⟩]
    let others : List QName := [⟨"", "r"⟩, ⟨"\x7bu", "a"⟩, ⟨"", "b"⟩]
    (∀ q ∈ names ++ others, q.Named ∧ ¬ Chainlike q.space) ∧
      (along names).path ≠ (along others).path ∧
      Spells "u\x7da/c/\x7bv" ⟨"u", "a"⟩ [⟨"", "c"⟩] "v" ∧
      (along [⟨"", "r"⟩, ⟨"u\x7da/c/\x7bv", "b"⟩]).path =
        (along [⟨"", "r"⟩, ⟨"u", "a"⟩, ⟨"", "c"⟩, ⟨"v", "b"⟩]).path := by
  intro names others
  have given : ∀ q ∈ names ++ others, q.Named ∧ '/' ∉ q.space.toList := by decide
  have clear : ∀ q ∈ names ++ others, ¬ Chainlike q.space := fun q member chain =>
    (given q member).2 (delimiters_of_chainlike chain).2.1
  have spelled : Spells "u\x7da/c/\x7bv" ⟨"u", "a"⟩ [⟨"", "c"⟩] "v" := by
    unfold Spells
    decide
  refine ⟨fun q member => ⟨(given q member).1, clear q member⟩, ?_, spelled,
    ((eq_of_path_eq [⟨"", "r"⟩, ⟨"u\x7da/c/\x7bv", "b"⟩] [] (by decide)).2 [⟨"", "r"⟩] _ [] _ _ _ rfl
      spelled (by simp)).1⟩
  intro same
  exact absurd ((eq_of_path_eq names others fun q member => (given q member).1).1 clear same)
    (by decide)

-- One element whose URI spells a chain is taken for that chain, by patterns too.
theorem path_of_spelled_chain :
    let single : List QName := [⟨"u\x7da/\x7bv", "b"⟩]
    let chain : List QName := [⟨"u", "a"⟩, ⟨"v", "b"⟩]
    let prefixes : Prefixes := (({} : Prefixes).insert "u" "u").insert "v" "v"
    (∀ q ∈ single ++ chain, q.Named) ∧ (along single).path = (along chain).path ∧ single ≠ chain ∧
      ∃ p, Pattern.parse prefixes "/u:a/v:b" = .ok p ∧ p.isMatch (along single).path = true := by
  intro single chain prefixes
  refine ⟨by decide, by decide, by decide, ⟨"/u:a/v:b", false, .absolute, .exact,
    "/\x7bu\x7da/\x7bv\x7db"⟩, by decide +kernel, by decide +kernel⟩

end Trail
end XmlRules
