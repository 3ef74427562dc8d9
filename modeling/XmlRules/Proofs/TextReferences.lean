import XmlRules.Proofs.Numerals
import XmlRules.Proofs.ReaderScript
import XmlRules.Proofs.WrittenText
namespace XmlRules
namespace Markup
open Text

def entities : List (String × Char) :=
  [("lt", '<'), ("gt", '>'), ("amp", '&'), ("apos", '\x27'), ("quot", '\x22')]

-- What a reference stands for, if only these signs may stand in front of a number: one of the entities
-- that need no declaration, or the character with a number, written out in one of two bases.
inductive Denotes (signs : List (List Char)) : List Char → Char → Prop where
  | entity {name : String} {c : Char} (known : (name, c) ∈ entities) : Denotes signs name.toList c
  | decimal {sign digits : List Char} {c : Char} (allowed : sign ∈ signs)
      (number : Numeral 10 digits c.toNat) : Denotes signs ('#' :: sign ++ digits) c
  | hexadecimal {x : Char} {sign digits : List Char} {c : Char} (marker : x = 'x' ∨ x = 'X')
      (allowed : sign ∈ signs) (number : Numeral 16 digits c.toNat) :
      Denotes signs ('#' :: x :: sign ++ digits) c

section References
variable {base : Nat} {c : Char} {cs name : List Char} {signs more : List (List Char)}

theorem Denotes.mono (denotes : Denotes signs name c) (subset : signs ⊆ more) :
    Denotes more name c := by
  cases denotes with
  | entity known => exact .entity known
  | decimal allowed number => exact .decimal (subset allowed) number
  | hexadecimal marker allowed number => exact .hexadecimal marker (subset allowed) number

theorem predefined?_eq_some_iff : predefined? name = some c ↔ ∃ entity, (entity, c) ∈ entities ∧
    name = entity.toList := by
  constructor
  · intro found
    unfold predefined? at found
    split_ifs at found with lt gt amp apos quot
    · exact ⟨"lt", by simpa [entities] using found.symm, lt⟩
    · exact ⟨"gt", by simpa [entities] using found.symm, gt⟩
    · exact ⟨"amp", by simpa [entities] using found.symm, amp⟩
    · exact ⟨"apos", by simpa [entities] using found.symm, apos⟩
    · exact ⟨"quot", by simpa [entities] using found.symm, quot⟩
  · rintro ⟨entity, known, rfl⟩
    have read : ∀ pair ∈ entities, predefined? pair.1.toList = some pair.2 := by decide
    exact read (entity, c) known

theorem toNat_lt_wordLimit (c : Char) : c.toNat < wordLimit := by
  have bounded : c.toNat < UInt32.size := c.val.toNat_lt
  exact bounded

theorem readNumber_char (pos : 0 < base) (small : base ≤ 16) (cs : List Char) (c : Char) :
    (readNumber base wordLimit cs).toOption.bind scalar? = some c ↔
      ∃ sign ∈ [[], ['+']], ∃ digits, cs = sign ++ digits ∧ Numeral base digits c.toNat := by
  have whole : (readNumber base wordLimit cs).toOption.bind scalar? = some c ↔
      readNumber base wordLimit cs = .ok c.toNat := by
    cases readNumber base wordLimit cs with
    | error fault => simp [Except.toOption]
    | ok n => simp [Except.toOption, scalar?_eq_some_iff]
  rw [whole, readNumber_eq_ok_iff pos small (by decide)]
  simp only [toNat_lt_wordLimit, and_true]

theorem not_marked_of_decimal {sign digits : List Char} {x : Char} {n : Nat}
    (allowed : sign ∈ [[], ['+']]) (number : Numeral 10 digits n)
    (marked : (sign ++ digits).head? = some x) : x ≠ 'x' ∧ x ≠ 'X' := by
  obtain ⟨some, values, all, -⟩ := number
  rcases List.mem_pair.mp allowed with rfl | rfl
  · cases all with
    | nil => cases marked
    | @cons letter value _ _ digit _ =>
      obtain rfl : letter = x := by simpa using marked
      have read := (digitValue?_eq_some_iff (by decide)).mpr digit
      constructor
      · rintro rfl
        cases read
      · rintro rfl
        cases read
  · obtain rfl : '+' = x := by simpa using marked
    decide

theorem textReference?_eq_some_iff : textReference? name = some c ↔ Denotes [[], ['+']] name c := by
  constructor
  · intro meant
    unfold textReference? at meant
    split at meant
    · rename_i digits
      unfold charRef? at meant
      split at meant
      · rename_i hex
        obtain ⟨sign, allowed, digits, rfl, number⟩ :=
          (readNumber_char (by decide) (by decide) hex c).mp meant
        exact .hexadecimal (.inl rfl) allowed number
      · rename_i hex
        obtain ⟨sign, allowed, digits, rfl, number⟩ :=
          (readNumber_char (by decide) (by decide) hex c).mp meant
        exact .hexadecimal (.inr rfl) allowed number
      · obtain ⟨sign, allowed, digits, rfl, number⟩ :=
          (readNumber_char (by decide) (by decide) _ c).mp meant
        exact .decimal allowed number
    · obtain ⟨entity, known, rfl⟩ := predefined?_eq_some_iff.mp meant
      exact .entity known
  · intro denotes
    cases denotes with
    | @entity name _ known =>
      have read : ∀ pair ∈ entities, textReference? pair.1.toList = some pair.2 := by decide
      exact read (name, c) known
    | @decimal sign digits _ allowed number =>
      have plain : charRef? true (sign ++ digits) =
          (readNumber 10 wordLimit (sign ++ digits)).toOption := by
        have marked := fun {x} => not_marked_of_decimal (x := x) allowed number
        unfold charRef?
        split
        · rename_i eq
          exact absurd rfl (marked (by rw [eq]; rfl)).1
        · rename_i eq
          exact absurd rfl (marked (by rw [eq]; rfl)).2
        · rfl
      show (charRef? true (sign ++ digits)).bind scalar? = some c
      rw [plain]
      exact (readNumber_char (by decide) (by decide) _ c).mpr ⟨sign, allowed, digits, rfl, number⟩
    | @hexadecimal x sign digits _ marker allowed number =>
      have read := (readNumber_char (by decide) (by decide) (sign ++ digits) c).mpr
        ⟨sign, allowed, digits, rfl, number⟩
      rcases marker with rfl | rfl
      · exact read
      · exact read

-- Any number of zeros may stand in front; what has no character is refused at every length.
example : textReference? "#x0000000000263A".toList = some '\u263A' := rfl
example : textReference? "#4294967361".toList = none := rfl
example : textReference? "#xD800".toList = none := rfl

theorem denotes_unsigned_iff :
    Denotes [[]] name c ↔ Denotes [[], ['+']] name c ∧ '+' ∉ name := by
  constructor
  · intro denotes
    refine ⟨denotes.mono (by simp), ?_⟩
    cases denotes with
    | @entity entity _ known =>
      have plain : ∀ pair ∈ entities, '+' ∉ pair.1.toList := by decide
      exact plain (entity, c) known
    | decimal allowed number =>
      obtain rfl := List.mem_singleton.mp allowed
      simpa using not_mem_numeral number
    | hexadecimal marker allowed number =>
      obtain rfl := List.mem_singleton.mp allowed
      rcases marker with rfl | rfl
      · simpa using not_mem_numeral number
      · simpa using not_mem_numeral number
  · rintro ⟨denotes, unsigned⟩
    cases denotes with
    | entity known => exact .entity known
    | @decimal sign digits _ allowed number =>
      rcases List.mem_pair.mp allowed with rfl | rfl
      · exact .decimal (List.mem_singleton_self _) number
      · simp at unsigned
    | @hexadecimal x sign digits _ marker allowed number =>
      rcases List.mem_pair.mp allowed with rfl | rfl
      · exact .hexadecimal marker (List.mem_singleton_self _) number
      · simp at unsigned

end References

end Markup

namespace Dispatcher
open Markup

-- A reference between text is read as the one character it stands for, or it is refused by its name.
theorem reference_read {σ : Type} (c : Catalogue σ) (aware : Bool) (place : Place) (name : String) :
    ((∃ meant, (∀ other, Denotes [[], ['+']] name.toList other ↔ other = meant) ∧
        token c aware place (.reference (encode name.toList)) = (do
          event (characters (String.singleton meant))
          return place)) ∨
      (∀ meant, ¬ Denotes [[], ['+']] name.toList meant) ∧
        token c aware place (.reference (encode name.toList)) = throw (.unknownReference name)) ∧
    ∀ meant, Denotes [[]] name.toList meant ↔
      Denotes [[], ['+']] name.toList meant ∧ '+' ∉ name.toList := by
  refine ⟨?_, fun _ => denotes_unsigned_iff⟩
  have content : Tag.content (encode name.toList) = .ok name := by
    simp [Tag.content, decode?_encode]
  simp only [token, content, lift_ok, pure_bind, ← textReference?_eq_some_iff]
  cases textReference? name.toList with
  | none =>
    have meaningless : ∀ meant : Char, none ≠ some meant := by simp
    exact .inr ⟨meaningless, rfl⟩
  | some meant => exact .inl ⟨meant, fun other => by simp [eq_comm], rfl⟩

-- A signed number is taken between text, but not in an attribute value.
theorem reference_with_plus :
    textReference? "#+65".toList = some 'A' ∧ attributeReference "#+65".toList = .error .badCharRef ∧
      ∀ meant, ¬ Denotes [[]] "#+65".toList meant := by
  refine ⟨rfl, rfl, fun meant denotes => ?_⟩
  exact (denotes_unsigned_iff.mp denotes).2 (by decide)

end Dispatcher
end XmlRules
