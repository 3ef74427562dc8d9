import XmlRules.Step
namespace XmlRules

structure Behaviour (σ : Type) where
  name : String
  onStart : Step σ Unit := pure ()
  onBegin : QName → Attributes → Step σ Unit := fun _ _ => pure ()
  -- One unbroken run of text directly inside the element.
  onSegment : QName → String → Step σ Unit := fun _ _ => pure ()
  -- All text directly inside the element.
  onBody : QName → String → Step σ Unit := fun _ _ => pure ()
  onEnd : QName → Step σ Unit := fun _ => pure ()
  onFinish : Step σ Unit := pure ()

abbrev Catalogue (σ : Type) := ActionId → Behaviour σ

abbrev Definition (σ : Type) := Catalogue σ → Behaviour σ

namespace Behaviour
variable {σ : Type}

-- Stands for an action that is reached through endlessly many others.
def exhausted : Behaviour σ where
  name := ""
  onStart := throw .tooDeep
  onBegin _ _ := throw .tooDeep
  onSegment _ _ := throw .tooDeep
  onBody _ _ := throw .tooDeep
  onEnd _ := throw .tooDeep
  onFinish := throw .tooDeep

end Behaviour

namespace Catalogue
variable {σ : Type}

-- The catalogue in which actions run one another at most `depth` deep.
def tie (definitions : ActionId → Definition σ) : Nat → Catalogue σ
  | 0 => fun _ => .exhausted
  | depth + 1 => fun id => definitions id (tie definitions depth)

def start (c : Catalogue σ) (ids : List ActionId) : Step σ Unit := ids.forM fun id => (c id).onStart
def finish (c : Catalogue σ) (ids : List ActionId) : Step σ Unit := ids.forM fun id => (c id).onFinish

end Catalogue
end XmlRules
