import XmlRules.Proofs.Events
import XmlRules.Proofs.NestedScopes
import XmlRules.Proofs.OpenPath
namespace XmlRules

abbrev OpenTag := QName × Attributes

namespace Event

def track (tags : List OpenTag) : Event → List OpenTag
  | .start name attrs => (name, attrs) :: tags
  | .finish _ => tags.tail
  | _ => tags

def openTags (es : List Event) : List OpenTag := es.foldl track []

end Event

theorem Tag.track_events (tag : Tag) (tags : List OpenTag) :
    tag.events.foldl Event.track tags = (tag.name, tag.attributes) :: tags := by
  have declared : ∀ bindings : List (String × String), (bindings.map fun binding =>
      Event.declare binding.1 binding.2).foldl Event.track tags = tags := by
    intro bindings
    induction bindings with
    | nil => rfl
    | cons binding bindings ih => exact ih
  rw [Tag.events, List.foldl_append, declared]
  rfl

theorem Content.track_events (content : Content) (tags : List OpenTag) :
    content.events.foldl Event.track tags = tags := by
  have texts : ∀ (run : List String) (tags : List OpenTag),
      (run.map Event.text).foldl Event.track tags = tags := by
    intro run
    induction run with
    | nil => exact fun _ => rfl
    | cons s run ih => exact ih
  induction content generalizing tags with
  | last run => exact texts run tags
  | next run tag inner rest inside after =>
    rw [Content.events, List.foldl_append, List.foldl_append, List.foldl_append, texts,
      tag.track_events, inside]
    exact after tags

def Tag.element (tag : Tag) (content : Content) : List Event :=
  tag.events ++ content.events ++ [.finish tag.name]

theorem Tag.track_element (tag : Tag) (content : Content) (tags : List OpenTag) :
    (tag.element content).foldl Event.track tags = tags := by
  rw [element, List.foldl_append, List.foldl_append, tag.track_events, content.track_events]
  rfl

-- An open element as the rules see it: where it stands, the actions it was matched with, and the
-- scopes that these have opened on it.
structure Level where
  name : QName
  mount : Mount
  actions : List ActionId
  scopes : List Scope

-- The registry opened last on the nearest of some elements that has one open.
def nearest (base : Registry) : List Level → Registry
  | [] => base
  | level :: around =>
    match level.scopes with
    | [] => nearest base around
    | scope :: _ => scope.rules

theorem nearest_eq (base : Registry) (levels : List Level) :
    nearest base levels = topmost base (levels.flatMap Level.scopes) := by
  induction levels with
  | nil => rfl
  | cons level around ih =>
    rw [List.flatMap_cons, nearest]
    cases level.scopes with
    | nil => exact ih
    | cons scope scopes => rfl

def trailOf (tags : List OpenTag) : Trail := .along (tags.map Prod.fst).reverse

theorem trailOf_cons (tag : OpenTag) (tags : List OpenTag) :
    trailOf (tag :: tags) = (trailOf tags).enter tag.1 := by
  rw [trailOf, List.map_cons, List.reverse_cons, Trail.along_append]
  rfl

theorem depth_trailOf (tags : List OpenTag) : (trailOf tags).depth = tags.length := by
  rw [trailOf, Trail.depth_along, List.length_reverse, List.length_map]

section Levels
variable (nested : ActionId → Option NestedRules) (depth : Nat) (base : Registry)

-- An element within some others: it is matched against the nearest registry around it.
def Level.within (around : List Level) (tags : List OpenTag) (tag : OpenTag) : Level :=
  let mount : Mount := ⟨(trailOf (tag :: tags)).path, tags.length + 1, tag.2⟩
  let actions := (nearest base around).matching mount.path
  ⟨tag.1, mount, actions, stacked (opened nested mount depth) (nearest base around) actions []⟩

def levels : List OpenTag → List Level
  | [] => []
  | tag :: tags => Level.within nested depth base (levels tags) tags tag :: levels tags

variable {nested depth base}

theorem Level.scopes_within (around : List Level) (tags : List OpenTag) (tag : OpenTag) :
    (within nested depth base around tags tag).scopes =
      stacked (opened nested (within nested depth base around tags tag).mount depth)
        (nearest base around) (within nested depth base around tags tag).actions [] := rfl

theorem installed_of_mem_levels {tags : List OpenTag} {level : Level}
    (member : level ∈ levels nested depth base tags) {scope : Scope} (on : scope ∈ level.scopes) :
    Installed nested level.mount scope := by
  induction tags with
  | nil => cases member
  | cons tag tags ih =>
    rcases List.mem_cons.mp member with rfl | further
    · rw [Level.scopes_within] at on
      obtain ⟨upper, shape, origin⟩ := stacked_above _ _ _ _
      rw [shape, List.append_nil] at on
      obtain ⟨id, _, active, above⟩ := origin scope on
      exact installed_of_mem_opened above
    · exact ih further

theorem actions_of_mem_levels {tags : List OpenTag} {inside around : List Level} {level : Level}
    (shape : levels nested depth base tags = inside ++ level :: around) :
    level.actions = (nearest base around).matching level.mount.path := by
  induction tags generalizing inside with
  | nil => simp [levels] at shape
  | cons tag tags ih =>
    rw [levels] at shape
    cases inside with
    | nil =>
      obtain ⟨rfl, rfl⟩ := List.cons.inj shape
      rfl
    | cons _ inside => exact ih (List.cons.inj shape).2

theorem nearest_of_host (base : Registry) {host : Level} (mounted : host.scopes ≠ []) (between outside : List Level) :
    ∃ nearer ∈ between ++ [host], ∃ scope ∈ nearer.scopes,
      nearest base (between ++ host :: outside) = scope.rules := by
  induction between with
  | nil =>
    obtain ⟨scope, scopes, shape⟩ := List.exists_cons_of_ne_nil mounted
    refine ⟨host, by simp, scope, by simp [shape], ?_⟩
    simp only [List.nil_append, nearest, shape]
  | cons level between ih =>
    simp only [List.cons_append, nearest]
    cases shape : level.scopes with
    | nil =>
      obtain ⟨nearer, known, found⟩ := ih
      exact ⟨nearer, List.mem_cons_of_mem _ known, found⟩
    | cons scope scopes => exact ⟨level, List.mem_cons_self, scope, by simp [shape], rfl⟩

theorem mountDepth_le {tags : List OpenTag} {scope : Scope}
    (member : scope ∈ (levels nested depth base tags).flatMap Level.scopes) :
    scope.mountDepth ≤ tags.length := by
  obtain ⟨level, known, on⟩ := List.mem_flatMap.mp member
  obtain ⟨_, _, _, _, _, _, _, _, _, mounted, _⟩ := installed_of_mem_levels known on
  rw [mounted]
  clear mounted on member
  induction tags with
  | nil => cases known
  | cons tag tags ih =>
    rcases List.mem_cons.mp known with rfl | further
    · exact Nat.le_refl _
    · exact Nat.le_succ_of_le (ih further)

theorem chained_levels (tags : List OpenTag) :
    Chained base ((levels nested depth base tags).flatMap Level.scopes) := by
  induction tags with
  | nil => trivial
  | cons tag tags ih =>
    rw [levels, List.flatMap_cons]
    refine Chained.append ?_ ih
    rw [← nearest_eq]
    exact chained_stacked (chained_opened depth) _ trivial

end Levels
end XmlRules
