import Folio.Declaration.Reader

/-!
# Options

What is set for all documents together.
-/

namespace Folio

structure Options where
  /-- The label type of sections, and of the labels of whole documents. -/
  sectionType : String := "section"
  /-- Stands behind the paths of documents in written links. -/
  linkSuffix : String := ".md"
  /-- The kinds of rules, by label type, for types that a document does not configure. -/
  defaultRules : Table String := []
  deriving DecidableEq, Repr, Inhabited

/-- The separator and the rule that are set for a type, if it has an entry. -/
def Options.defaultRule (options : Options) (typ : String) (level : Option Nat) :
    Except DeclarationError (Option (String × Option LabelRule)) :=
  (options.defaultRules.lookup typ).mapM fun kind => readRuleKind typ kind level

end Folio
