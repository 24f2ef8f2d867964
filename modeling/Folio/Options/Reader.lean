import Folio.Options
import Folio.Yaml.Record

/-!
# Reading options

Options are written in YAML. Whatever is not set has its default, and other keys are ignored.
-/

namespace Folio.Options

open Yaml

/-- Reads options. -/
def ofTree (depth : Nat) (t : Tree) : Reading Options := do
  let r ← Record.ofTree ["section_type", "link_suffix", "default_rules"] true depth t
  let preset : Options := {}
  return { sectionType := ← r.getD "section_type" Tree.text preset.sectionType
           linkSuffix := ← r.getD "link_suffix" Tree.text preset.linkSuffix
           defaultRules := ← r.getD "default_rules" (Tree.table (depth - 1)) preset.defaultRules }

/-- Reads options from a text. -/
def read? (text : String) : Option Options := do (← Data.read? text).decode? ofTree

end Folio.Options
