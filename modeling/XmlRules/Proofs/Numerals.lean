import Mathlib.Data.List.Forall2
import Mathlib.Data.Nat.Digits.Defs
import XmlRules.Text.Number
namespace XmlRules.Text

def lowerDigits : List Char := "0123456789abcdef".toList
def upperDigits : List Char := "0123456789ABCDEF".toList

def Digit (base : Nat) (c : Char) (n : Nat) : Prop :=
  n < base ∧ (lowerDigits[n]? = some c ∨ upperDigits[n]? = some c)

-- A number in full, its greatest digit first. Zeros in front change nothing.
def Numeral (base : Nat) (digits : List Char) (n : Nat) : Prop :=
  digits ≠ [] ∧
    ∃ values, List.Forall₂ (Digit base) digits values ∧ n = Nat.ofDigits base values.reverse

section Digits
variable {base limit value n : Nat} {c : Char} {cs : List Char} {values : List Nat}

theorem le_of_digitValue? (known : digitValue? 16 c = some n) : c.toNat < 123 := by
  unfold digitValue? at known
  by_cases digit : '0' ≤ c ∧ c ≤ '9'
  · exact Nat.lt_of_le_of_lt digit.2 (by decide)
  · by_cases lower : 'a' ≤ c ∧ c ≤ 'z'
    · exact Nat.lt_of_le_of_lt lower.2 (by decide)
    · by_cases upper : 'A' ≤ c ∧ c ≤ 'Z'
      · exact Nat.lt_of_le_of_lt upper.2 (by decide)
      · simp [digit, lower, upper] at known

theorem digitValue?_hex : digitValue? 16 c = some n ↔ Digit 16 c n := by
  constructor
  · intro known
    have found : ∀ k < 123, ∀ m ∈ digitValue? 16 (Char.ofNat k),
        m < 16 ∧ (lowerDigits[m]? = some (Char.ofNat k) ∨ upperDigits[m]? = some (Char.ofNat k)) := by
      decide
    have here := found c.toNat (le_of_digitValue? known) n
    rw [Char.ofNat_toNat] at here
    exact here known
  · rintro ⟨small, lower | upper⟩
    · have read : ∀ m < 16, lowerDigits[m]?.bind (digitValue? 16) = some m := by decide
      simpa [lower] using read n small
    · have read : ∀ m < 16, upperDigits[m]?.bind (digitValue? 16) = some m := by decide
      simpa [upper] using read n small

theorem digitValue?_eq_some_iff (small : base ≤ 16) :
    digitValue? base c = some n ↔ Digit base c n := by
  have first : digitValue? base c = some n ↔ n < base ∧ digitValue? 16 c = some n := by
    unfold digitValue?
    split_ifs <;> simp <;> omega
  rw [first, digitValue?_hex, Digit, Digit]
  exact ⟨fun ⟨less, _, letter⟩ => ⟨less, letter⟩, fun ⟨less, letter⟩ => ⟨less, by omega, letter⟩⟩

def shift (base value digit : Nat) : Nat := value * base + digit

theorem foldl_shift (base : Nat) (values : List Nat) :
    values.foldl (shift base) 0 = Nat.ofDigits base values.reverse := by
  rw [Nat.ofDigits_eq_foldr, List.foldr_reverse]
  congr 1
  funext value digit
  simp [shift, Nat.mul_comm, Nat.add_comm]

theorem le_foldl_shift (pos : 0 < base) (values : List Nat) (value : Nat) :
    value ≤ values.foldl (shift base) value := by
  induction values generalizing value with
  | nil => exact Nat.le_refl value
  | cons digit values ih =>
    calc value ≤ value * base := Nat.le_mul_of_pos_right value pos
      _ ≤ shift base value digit := Nat.le_add_right _ _
      _ ≤ _ := ih _

-- What has been read so far never shrinks, so the limit can be looked after at each digit.
theorem readDigits_eq_ok_iff (pos : 0 < base) (small : base ≤ 16) (below : value < limit) :
    readDigits base limit value cs = .ok n ↔
      (∃ values, List.Forall₂ (Digit base) cs values ∧ n = values.foldl (shift base) value) ∧
        n < limit := by
  induction cs generalizing value with
  | nil =>
    simp only [readDigits, Except.ok.injEq, List.forall₂_nil_left_iff, exists_eq_left, List.foldl_nil]
    constructor
    · rintro rfl
      exact ⟨rfl, below⟩
    · rintro ⟨rfl, -⟩
      rfl
  | cons c cs ih =>
    simp only [List.forall₂_cons_left_iff]
    rw [readDigits]
    cases known : digitValue? base c with
    | none =>
      refine ⟨nofun, ?_⟩
      rintro ⟨⟨_, ⟨digit, rest, is, _⟩, _⟩, _⟩
      rw [(digitValue?_eq_some_iff small).mpr is] at known
      cases known
    | some digit =>
      dsimp only
      rw [show value * base + digit = shift base value digit from rfl]
      have is := (digitValue?_eq_some_iff small).mp known
      have only : ∀ {other : Nat}, Digit base c other → other = digit := fun other =>
        Option.some.inj (((digitValue?_eq_some_iff small).mpr other).symm.trans known)
      split
      · rename_i more
        rw [ih more]
        constructor
        · rintro ⟨⟨values, all, rfl⟩, less⟩
          exact ⟨⟨digit :: values, ⟨digit, values, is, all, rfl⟩, rfl⟩, less⟩
        · rintro ⟨⟨_, ⟨other, values, same, all, rfl⟩, rfl⟩, less⟩
          obtain rfl := only same
          exact ⟨⟨values, all, rfl⟩, less⟩
      · rename_i past
        refine ⟨nofun, ?_⟩
        rintro ⟨⟨_, ⟨other, values, same, all, rfl⟩, rfl⟩, less⟩
        obtain rfl := only same
        exact absurd (Nat.lt_of_le_of_lt (le_foldl_shift pos values _) less) past

theorem readDigits_numeral (pos : 0 < base) (small : base ≤ 16) (some : cs ≠ [])
    (below : 0 < limit) :
    readDigits base limit 0 cs = .ok n ↔ Numeral base cs n ∧ n < limit := by
  rw [readDigits_eq_ok_iff pos small below]
  simp [Numeral, some, foldl_shift]

theorem not_digit_plus (base n : Nat) : ¬ Digit base '+' n := by
  rintro ⟨-, lower | upper⟩
  · exact absurd (List.mem_of_getElem? lower) (by decide)
  · exact absurd (List.mem_of_getElem? upper) (by decide)

theorem not_mem_numeral (number : Numeral base cs n) : '+' ∉ cs := by
  obtain ⟨-, values, all, -⟩ := number
  have others : List.Forall₂ (fun letter value => letter ≠ '+' ∧ Digit base letter value)
      cs values := by
    refine all.imp fun letter value digit => ⟨?_, digit⟩
    rintro rfl
    exact not_digit_plus base value digit
  exact fun member => (List.forall₂_and_left _ _ |>.mp others).1 '+' member rfl

theorem not_numeral_plus (base : Nat) (cs : List Char) (n : Nat) : ¬ Numeral base ('+' :: cs) n :=
  fun number => not_mem_numeral number List.mem_cons_self

theorem readNumber_eq_ok_iff (pos : 0 < base) (small : base ≤ 16) (some : 0 < limit) :
    readNumber base limit cs = .ok n ↔
      ∃ sign ∈ [[], ['+']], ∃ digits, cs = sign ++ digits ∧ Numeral base digits n ∧ n < limit := by
  have bare : cs.head? ≠ Option.some '+' → (readNumber base limit cs = .ok n ↔
      Numeral base cs n ∧ n < limit) := by
    intro other
    cases cs with
    | nil => simp [readNumber, Numeral]
    | cons c cs =>
      have first : c ≠ '+' := by simpa using other
      rw [← readDigits_numeral pos small (List.cons_ne_nil c cs) some]
      simp [readNumber, first]
  by_cases signed : cs.head? = Option.some '+'
  · obtain ⟨rest, rfl⟩ := List.head?_eq_some_iff.mp signed
    have behind : readNumber base limit ('+' :: rest) = .ok n ↔ Numeral base rest n ∧ n < limit := by
      cases rest with
      | nil => simp [readNumber, Numeral]
      | cons c cs =>
        rw [← readDigits_numeral pos small (List.cons_ne_nil c cs) some]
        rfl
    rw [behind]
    simp [not_numeral_plus]
  · rw [bare signed]
    constructor
    · exact fun number => ⟨[], by simp, cs, rfl, number⟩
    · rintro ⟨sign, member, digits, rfl, number⟩
      rcases List.mem_pair.mp member with rfl | rfl
      · exact number
      · exact absurd rfl signed

example : readNumber 10 wordLimit "+0042".toList = .ok 42 := rfl

end Digits

theorem scalar?_eq_some_iff {n : Nat} {c : Char} : scalar? n = some c ↔ n = c.toNat := by
  unfold scalar?
  constructor
  · intro found
    split at found
    · rename_i valid
      obtain rfl := Option.some.inj found
      have range : n.isValidChar := valid
      rw [Char.ofNat, dif_pos range]
      rfl
    · cases found
  · rintro rfl
    have range : c.toNat.isValidChar := c.valid
    rw [if_pos range, Char.ofNat_toNat]

end XmlRules.Text
