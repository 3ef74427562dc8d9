import XmlRules.RuleTable
namespace XmlRules

def lastGreatest {α : Type} (atMost : α → α → Bool) : List α → Option α
  | [] => none
  | x :: xs =>
    match lastGreatest atMost xs with
    | none => some x
    | some y => if atMost x y then some y else some x

def Anchor.rank : Anchor → Nat
  | .absolute => 1
  | .relative => 0

-- Wildcards rank by form, then by the length of the fixed part, then absolute over relative.
def Pattern.compareWildcards (p q : Pattern) : Ordering :=
  (compare p.form.rank q.form.rank).then
    ((compare p.specificity q.specificity).then (compare p.anchor.rank q.anchor.rank))

def Stamped.insert (s : Stamped) : List Stamped → List Stamped
  | [] => [s]
  | r :: rs => if s.stamp ≤ r.stamp then s :: r :: rs else r :: Stamped.insert s rs

def Stamped.sort : List Stamped → List Stamped := List.foldr Stamped.insert []

def unseen (seen : List ActionId) : List ActionId → List ActionId
  | [] => []
  | a :: as => if a ∈ seen then unseen seen as else a :: unseen (a :: seen) as

namespace RuleTable

def entriesAt (t : RuleTable) (positions : List Nat) : List RuleEntry :=
  positions.filterMap fun i => t.entries[i]?

def matchesAt (t : RuleTable) (positions : List Nat) (path : String) : List RuleEntry :=
  (t.entriesAt positions).filter fun e => e.pattern.isMatch path

-- The single ordinary winner: the exact absolute pattern, else the longest exact tail, else the
-- wildcard of highest rank. Of equals the one created last.
def ordinary? (t : RuleTable) (path : String) : Option RuleEntry :=
  (t.absolute[path]?.bind fun i => t.entries[i]?)
    <|> lastGreatest (fun e f => e.pattern.specificity ≤ f.pattern.specificity)
      (t.matchesAt (t.relative.getD (Path.lastSegment path) []) path)
    <|> lastGreatest (fun e f => (e.pattern.compareWildcards f.pattern).isLE)
      (t.matchesAt t.wildcards path)

def universalHandlers (t : RuleTable) (path : String) : List Stamped :=
  Stamped.sort ((t.matchesAt t.universal path).flatMap RuleEntry.handlers)

-- The ordinary winner's actions, or the fallback when nothing matches; then the universal actions
-- not among them; the mandatory ones where the placement says, repeated if need be.
def matching (t : RuleTable) (path : String) : List ActionId :=
  let universal := (t.universalHandlers path).map Stamped.action
  let chosen := match t.ordinary? path with
    | some e => e.actions
    | none => if universal.isEmpty then t.fallback else []
  let additive := unseen chosen universal
  match t.placement with
  | .afterUniversal => chosen ++ additive ++ t.mandatory
  | .beforeUniversal => chosen ++ t.mandatory ++ additive

end RuleTable
end XmlRules
