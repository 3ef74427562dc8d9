import XmlRules.RuleTable.Matching
namespace XmlRules

-- A registry of rules. A scoped one holds for the subtree below its mount point; its parent is kept
-- only to be active again when the scope closes, and adds nothing to a match.
inductive Registry where
  | base (table : RuleTable)
  | within (parent : Registry) (table : RuleTable) (mountPoint : String)

namespace Registry

def table : Registry → RuleTable
  | .base table => table
  | .within _ table _ => table

def withTable : Registry → RuleTable → Registry
  | .base _, table => .base table
  | .within parent _ mountPoint, table => .within parent table mountPoint

def parent? : Registry → Option Registry
  | .base _ => none
  | .within parent _ _ => some parent

def matching (r : Registry) (path : String) : List ActionId := r.table.matching path
def actions (r : Registry) : List ActionId := r.table.actions

def amend (r : Registry) (change : RuleM Unit) : Except RuleError Unit × Registry :=
  let (result, table) := change.perform r.table
  (result, r.withTable table)

def copy : Registry → Except RuleError Registry
  | .base table => .ok (.base table)
  | .within _ _ _ => .error .copyUnsupported

end Registry
end XmlRules
