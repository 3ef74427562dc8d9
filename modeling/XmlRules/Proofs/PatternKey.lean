import XmlRules.Proofs.ParsedPattern
namespace XmlRules.Pattern

def anchored (p : Pattern) : List Char :=
  (if p.anchor = .relative then ['*', '/'] else []) ++ p.fixed.toList

def unmarked (p : Pattern) : List Char :=
  match p.form with
  | .everything => ['*']
  | .exact => p.anchored
  | .anyChild => p.anchored ++ ['/', '?']
  | .anyDescendant => p.anchored ++ ['/', '*']

theorem key_toList (p : Pattern) :
    p.key.toList = (if p.universal then ['!'] else []) ++ p.unmarked := by
  unfold key unmarked anchored
  cases p.universal <;> cases p.anchor <;> cases p.form <;> simp

variable {p q : Pattern}

-- The first character of a key tells the anchor, the last one the form.
theorem Formed.head_anchored (formed : p.Formed) (form : p.form ≠ .everything) :
    p.anchored.head? = some (if p.anchor = .relative then '*' else '/') := by
  obtain ⟨segments, some, _, fixed⟩ := formed.fixed form
  cases anchor : p.anchor with
  | relative => simp [anchored, anchor]
  | absolute =>
    rw [anchored, fixed, anchor, assemble_absolute segments some]
    cases segments with
    | nil => exact absurd rfl some
    | cons s ss => simp

theorem intercalate_ends (ss : List (List Char)) (some : ss ≠ []) :
    ∃ front, List.intercalate ['/'] ss = front ++ ss.getLast some := by
  induction ss with
  | nil => exact absurd rfl some
  | cons s ss ih =>
    cases ss with
    | nil => exact ⟨[], by simp⟩
    | cons t ts =>
      obtain ⟨front, shape⟩ := ih (by simp)
      refine ⟨s ++ ['/'] ++ front, ?_⟩
      rw [List.intercalate_cons_cons, shape, List.getLast_cons_cons]
      simp

theorem Formed.last_anchored (formed : p.Formed) (form : p.form ≠ .everything) :
    ∃ c, p.anchored.getLast? = some c ∧ isNameChar c = true := by
  obtain ⟨segments, some, expanded, fixed⟩ := formed.fixed form
  obtain ⟨c, last, char⟩ := last_isNameChar (expanded (segments.getLast some) (List.getLast_mem some))
  obtain ⟨front, shape⟩ := intercalate_ends (segments.map String.toList) (by simpa using some)
  have ends : p.fixed.toList.getLast? = Option.some c := by
    rw [fixed, assemble, String.toList_append, String.toList_intercalate]
    change (_ ++ List.intercalate ['/'] _).getLast? = _
    rw [shape, List.getLast_map, List.getLast?_append, List.getLast?_append, last]
    rfl
  refine ⟨c, ?_, char⟩
  rw [anchored, List.getLast?_append, ends]
  rfl

def readFormBack (body : List Char) : Form :=
  match body.getLast? with
  | some '?' => .anyChild
  | some '*' => if body = ['*'] then .everything else .anyDescendant
  | _ => .exact

theorem Formed.readFormBack_unmarked (formed : p.Formed) : readFormBack p.unmarked = p.form := by
  unfold unmarked
  cases form : p.form with
  | everything => rfl
  | exact =>
    obtain ⟨c, last, char⟩ := formed.last_anchored (by simp [form])
    unfold readFormBack
    rw [last]
    split
    · rename_i same
      cases same
      simp [isNameChar] at char
    · rename_i same
      cases same
      simp [isNameChar] at char
    · rfl
  | anyChild => simp [readFormBack]
  | anyDescendant =>
    have longer : p.anchored ++ ['/', '*'] ≠ ['*'] := by
      intro same
      have count := congrArg List.length same
      simp at count
    simp [readFormBack, longer]

theorem Formed.first_unmarked (formed : p.Formed) :
    p.unmarked.head? = some '*' ∨ p.unmarked.head? = some '/' := by
  by_cases form : p.form = .everything
  · simp [unmarked, form]
  · have head := formed.head_anchored form
    have first : p.unmarked.head? = p.anchored.head? := by
      unfold unmarked
      cases anchored : p.anchored with
      | nil => simp [anchored] at head
      | cons c cs => cases form' : p.form <;> simp_all
    rw [first, head]
    split <;> simp

theorem Formed.head_unmarked (formed : p.Formed) : p.unmarked.head? ≠ some '!' := by
  rcases formed.first_unmarked with first | first <;> simp [first]

theorem anchored_inj (formedLeft : p.Formed) (formedRight : q.Formed) (left : p.form ≠ .everything)
    (right : q.form ≠ .everything) (same : p.anchored = q.anchored) :
    p.anchor = q.anchor ∧ p.fixed = q.fixed := by
  have heads := congrArg List.head? same
  rw [formedLeft.head_anchored left, formedRight.head_anchored right] at heads
  have anchors : p.anchor = q.anchor := by
    cases first : p.anchor <;> cases second : q.anchor <;> simp_all
  refine ⟨anchors, ?_⟩
  unfold anchored at same
  rw [anchors] at same
  exact String.toList_inj.mp (List.append_cancel_left same)

theorem eq_of_key_eq (left : p.Formed) (right : q.Formed) (same : p.key = q.key) :
    p = { q with source := p.source } := by
  have texts := congrArg String.toList same
  rw [key_toList, key_toList] at texts
  obtain ⟨marks, bodies⟩ : p.universal = q.universal ∧ p.unmarked = q.unmarked := by
    cases first : p.universal <;> cases second : q.universal <;>
      simp only [first, second, if_true, Bool.false_eq_true, if_false, List.nil_append,
        List.singleton_append, List.cons.injEq, true_and] at texts
    · exact ⟨rfl, texts⟩
    · exact absurd (by rw [texts]; rfl) left.head_unmarked
    · exact absurd (by rw [← texts]; rfl) right.head_unmarked
    · exact ⟨rfl, texts⟩
  have forms : p.form = q.form := by
    rw [← left.readFormBack_unmarked, bodies, right.readFormBack_unmarked]
  obtain ⟨anchors, fixed⟩ : p.anchor = q.anchor ∧ p.fixed = q.fixed := by
    by_cases bare : p.form = .everything
    · obtain ⟨firstAnchor, firstFixed⟩ := left.bare bare
      obtain ⟨secondAnchor, secondFixed⟩ := right.bare (forms ▸ bare)
      exact ⟨firstAnchor.trans secondAnchor.symm, firstFixed.trans secondFixed.symm⟩
    · apply anchored_inj left right bare (forms ▸ bare)
      unfold unmarked at bodies
      rw [forms] at bodies bare
      split at bodies
      · contradiction
      · exact bodies
      · exact List.append_cancel_right bodies
      · exact List.append_cancel_right bodies
  cases p
  cases q
  simp_all

end XmlRules.Pattern
