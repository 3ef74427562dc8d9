import XmlRules.Proofs.PatternKey
import XmlRules.RuleTable.Matching
namespace XmlRules

inductive TableCall where
  | register (entry : Registration)
  | place (placement : Placement)
deriving DecidableEq, Repr

namespace RuleTable

-- Where a registration is refused, the table goes on as it was left.
def answer (t : RuleTable) : TableCall → RuleTable
  | .register entry => ((register entry).perform t).2
  | .place placement => { t with placement }

def after (calls : List TableCall) : RuleTable := calls.foldl answer {}

end RuleTable

-- The log of what has been registered, with no index over it. A rule that is refused is not in it.
structure Ledger where
  prefixes : Prefixes := {}
  rules : List (Pattern × ActionId) := []
  given : List ActionId := []
  fallback : List ActionId := []
  mandatory : List ActionId := []
  placement : Placement := .afterUniversal

namespace Ledger

def addRule (l : Ledger) (p : Pattern) (a : ActionId) : Ledger :=
  { l with rules := l.rules ++ [(p, a)], given := l.given ++ [a] }

def addFallbacks (l : Ledger) (as : List ActionId) : Ledger :=
  { l with fallback := l.fallback ++ as, given := l.given ++ as }

def addMandatories (l : Ledger) (as : List ActionId) : Ledger :=
  { l with mandatory := l.mandatory ++ as, given := l.given ++ as }

def enter (l : Ledger) : Registration → Ledger
  | .declare label uri => { l with prefixes := l.prefixes.insert label uri }
  | .rule text a =>
    match Pattern.parse l.prefixes text with
    | .error _ => l
    | .ok p => l.addRule p a
  | .fallback a => l.addFallbacks [a]
  | .fallbacks as => l.addFallbacks as
  | .mandatory a => l.addMandatories [a]
  | .mandatories as => l.addMandatories as

def note (l : Ledger) : TableCall → Ledger
  | .register entry => l.enter entry
  | .place placement => { l with placement }

def after (calls : List TableCall) : Ledger := calls.foldl note {}

def patterns (l : Ledger) : List Pattern := l.rules.map Prod.fst

def actionsUnder (l : Ledger) (key : String) : List ActionId :=
  (l.rules.filter fun r => r.1.key = key).map Prod.snd

def firstUnder (l : Ledger) (key : String) : Nat := l.patterns.findIdx fun p => p.key = key

end Ledger

namespace Pattern

-- An ordinary pattern is one of three kinds: the path itself, a tail of it, or a wildcard.
def isWhole (p : Pattern) : Bool := !p.universal && (p.form == .exact && p.anchor == .absolute)
def isTail (p : Pattern) : Bool := !p.universal && (p.form == .exact && p.anchor == .relative)
def isWildcard (p : Pattern) : Bool := !p.universal && p.form != .exact

end Pattern

def greatest? {α β : Type} [LE β] [DecidableLE β] (weight : α → β) (xs : List α) : Option α :=
  xs.find? fun x => xs.all fun y => weight y ≤ weight x

structure Standing where
  form : Nat
  length : Nat
  anchor : Nat
  since : Nat
deriving DecidableEq, Repr

def Standing.AtMost (s t : Standing) : Prop :=
  s.form < t.form ∨ s.form = t.form ∧ (s.length < t.length ∨ s.length = t.length ∧
    (s.anchor < t.anchor ∨ s.anchor = t.anchor ∧ s.since ≤ t.since))

instance : LE Standing := ⟨Standing.AtMost⟩

instance : DecidableLE Standing := fun _ _ => inferInstanceAs (Decidable (_ ∨ _ ∧ (_ ∨ _ ∧ (_ ∨ _))))

namespace Ledger

-- Of two wildcards that agree in all else, the one with the later key stands higher.
def standing (l : Ledger) (p : Pattern) : Standing :=
  ⟨p.form.rank, p.specificity, p.anchor.rank, l.firstUnder p.key⟩

def hits (l : Ledger) (kind : Pattern → Bool) (path : String) : List Pattern :=
  l.patterns.filter fun p => kind p && p.isMatch path

def whole? (l : Ledger) (path : String) : Option Pattern :=
  l.patterns.find? fun p => p.isWhole && p.fixed == path

def longestTail? (l : Ledger) (path : String) : Option Pattern :=
  greatest? Pattern.specificity (l.hits Pattern.isTail path)

def highestWildcard? (l : Ledger) (path : String) : Option Pattern :=
  greatest? l.standing (l.hits Pattern.isWildcard path)

def winner? (l : Ledger) (path : String) : Option Pattern :=
  l.whole? path <|> l.longestTail? path <|> l.highestWildcard? path

def universalActions (l : Ledger) (path : String) : List ActionId :=
  (l.rules.filter fun r => r.1.universal && r.1.isMatch path).map Prod.snd

-- The actions of the winner; with no winner and nothing universal, the fallback.
def chosen (l : Ledger) (path : String) : List ActionId :=
  match l.winner? path with
  | some p => l.actionsUnder p.key
  | none => if l.universalActions path = [] then l.fallback else []

def additive (l : Ledger) (path : String) : List ActionId :=
  ((l.universalActions path).filter fun a => a ∉ l.chosen path).eraseDups

def matching (l : Ledger) (path : String) : List ActionId :=
  match l.placement with
  | .afterUniversal => l.chosen path ++ l.additive path ++ l.mandatory
  | .beforeUniversal => l.chosen path ++ l.mandatory ++ l.additive path

end Ledger

namespace Pattern

-- The patterns of a list that stand for their keys: of each key the first.
def firsts (ps : List Pattern) : List Pattern :=
  ps.foldl (fun qs p => if qs.any fun q => q.key = p.key then qs else qs ++ [p]) []

@[simp] theorem firsts_nil : firsts [] = [] := rfl

theorem firsts_append (ps : List Pattern) (p : Pattern) : firsts (ps ++ [p]) =
    if (firsts ps).any fun q => q.key = p.key then firsts ps else firsts ps ++ [p] := by
  simp [firsts, List.foldl_append]

theorem mem_of_mem_firsts {ps : List Pattern} {p : Pattern} (member : p ∈ firsts ps) : p ∈ ps := by
  induction ps using List.reverseRecOn with
  | nil => simp at member
  | append_singleton ps q ih =>
    rw [firsts_append] at member
    split at member
    · exact List.mem_append_left _ (ih member)
    · rcases List.mem_append.mp member with earlier | last
      · exact List.mem_append_left _ (ih earlier)
      · exact List.mem_append_right _ last

theorem exists_first {ps : List Pattern} {p : Pattern} (member : p ∈ ps) :
    ∃ q ∈ firsts ps, q.key = p.key := by
  induction ps using List.reverseRecOn with
  | nil => simp at member
  | append_singleton ps r ih =>
    rw [firsts_append]
    rcases List.mem_append.mp member with earlier | last
    · obtain ⟨q, inside, same⟩ := ih earlier
      refine ⟨q, ?_, same⟩
      split
      · exact inside
      · exact List.mem_append_left _ inside
    · rw [List.mem_singleton] at last
      subst last
      split
      · rename_i known
        simpa using known
      · exact ⟨p, by simp, rfl⟩

theorem firsts_ordered (ps : List Pattern) : (firsts ps).Pairwise fun p q =>
    ps.findIdx (fun r => r.key = p.key) < ps.findIdx fun r => r.key = q.key := by
  have found : ∀ (ps rest : List Pattern) (p : Pattern), p ∈ ps →
      (ps ++ rest).findIdx (fun r => r.key = p.key) = ps.findIdx fun r => r.key = p.key := by
    intro ps rest p member
    have within : ps.findIdx (fun r => decide (r.key = p.key)) < ps.length :=
      List.findIdx_lt_length_of_exists ⟨p, member, by simp⟩
    rw [List.findIdx_append, if_pos within]
  induction ps using List.reverseRecOn with
  | nil => simp
  | append_singleton ps p ih =>
    have before : (firsts ps).Pairwise fun q r =>
        (ps ++ [p]).findIdx (fun s => s.key = q.key) < (ps ++ [p]).findIdx fun s => s.key = r.key := by
      refine ih.imp_of_mem ?_
      intro q r left right less
      rwa [found ps _ q (mem_of_mem_firsts left), found ps _ r (mem_of_mem_firsts right)]
    rw [firsts_append]
    split
    · exact before
    · rename_i fresh
      refine List.pairwise_append.mpr ⟨before, by simp, ?_⟩
      intro q left r right
      rw [List.mem_singleton] at right
      subst right
      have within : ps.findIdx (fun s => decide (s.key = q.key)) < ps.length :=
        List.findIdx_lt_length_of_exists ⟨q, mem_of_mem_firsts left, by simp⟩
      have unknown : ¬ ps.findIdx (fun s => decide (s.key = r.key)) < ps.length := by
        intro known
        obtain ⟨s, member, same⟩ := List.findIdx_lt_length.mp known
        obtain ⟨t, inside, twin⟩ := exists_first member
        apply fresh
        rw [List.any_eq_true]
        exact ⟨t, inside, by simpa [twin] using same⟩
      rw [found ps _ q (mem_of_mem_firsts left), List.findIdx_append, if_neg unknown]
      omega

theorem firsts_distinct (ps : List Pattern) : (firsts ps).Pairwise fun p q => p.key ≠ q.key := by
  refine (firsts_ordered ps).imp ?_
  intro p q less same
  rw [same] at less
  omega

theorem find?_firsts {ps : List Pattern} {wanted : Pattern → Bool}
    (respects : ∀ p ∈ ps, ∀ q ∈ ps, p.key = q.key → wanted p = wanted q) :
    (firsts ps).find? wanted = ps.find? wanted := by
  induction ps using List.reverseRecOn with
  | nil => rfl
  | append_singleton ps p ih =>
    have earlier := ih fun q left r right =>
      respects q (List.mem_append_left _ left) r (List.mem_append_left _ right)
    rw [firsts_append, List.find?_append]
    split
    · rename_i known
      rw [earlier]
      cases found : ps.find? wanted with
      | some q => rfl
      | none =>
        obtain ⟨q, inside, same⟩ := List.any_eq_true.mp known
        have twin := mem_of_mem_firsts inside
        have verdict := respects q (List.mem_append_left _ twin) p (by simp) (by simpa using same)
        have refused := List.find?_eq_none.mp found q twin
        simp [← verdict, refused]
    · rw [List.find?_append, earlier]

end Pattern
end XmlRules
