import XmlRules.RuleTable
import XmlRules.Text.JsonText
namespace XmlRules

-- What can be chosen for a parse. Whatever a settings text leaves out keeps its usual value.
structure Settings where
  trims : Bool := false
  namespaces : Bool := true
  placement : Placement := .afterUniversal
deriving DecidableEq, Repr

def Placement.name : Placement → String
  | .afterUniversal => "after-universal"
  | .beforeUniversal => "before-universal"

def Placement.named? (s : String) : Option Placement :=
  if s = "after-universal" then some .afterUniversal
  else if s = "before-universal" then some .beforeUniversal
  else none

namespace Settings

def trimsKey : String := "trim-body-text"
def namespacesKey : String := "namespace-aware"
def placementKey : String := "mandatory-placement"

def jsonFlag (b : Bool) : String := if b then "true" else "false"

def json (s : Settings) : String :=
  Text.jsonObject [(trimsKey, jsonFlag s.trims), (namespacesKey, jsonFlag s.namespaces),
    (placementKey, Text.jsonString s.placement.name)]

end Settings
end XmlRules
