import Folio.Collection
import Folio.Options.Reader
import Folio.Proofs.Keys
import Folio.Proofs.LabeledNodes
import Folio.Proofs.Numbering.Growing
import Folio.Proofs.Numbering.Names
import Folio.Proofs.Outline
import Folio.Proofs.Resolution.Embedding
import Folio.Proofs.Resolution.Naming
import Folio.Proofs.Numbering.Runs
import Folio.Proofs.Numbering.Sequences
import Folio.Proofs.Numbering.Openings
import Folio.Proofs.Numbering.Creation
import Folio.Proofs.Numbering.Rules
import Folio.Proofs.Numbering.Nested
import Folio.Proofs.Resolution.Substitution
import Folio.Proofs.Transparency
import Folio.Proofs.Numbering.Trees
import Folio.Proofs.Numbering.Restarts
import Folio.Proofs.Numbering.Displayed
import Folio.Proofs.Numbering.Masters
import Folio.Proofs.Resolution.Owners
import Folio.Proofs.Resolution.Roots
import Folio.Proofs.Resolution.Leading
import Folio.Proofs.Figures
import Folio.Proofs.FoundTexts
import Folio.Proofs.ExternalErrors
import Folio.Proofs.Paths
import Folio.Proofs.QualifiedLinks
import Folio.Proofs.Resolution.Calm
import Folio.Proofs.Resolution.Enrolling
import Folio.Proofs.Queries
import Folio.Proofs.Anchors
import Folio.Proofs.Scope.Namespaces
import Folio.Proofs.Recursion
import Folio.Proofs.Termination
import Folio.Proofs.Forest
import Folio.Proofs.Resolution.Counting
import Folio.Proofs.Resolution.Pace
import Folio.Proofs.Resolution.Turns
import Folio.Proofs.SlotIds
import Folio.Proofs.Numbering.Levels
import Folio.Proofs.Numbering.Origins
import Folio.Proofs.Resolution.Origins
import Folio.Proofs.DeclaredLevels
import Folio.Proofs.DisplayLevels
import Folio.Proofs.Numbering.IdTexts
import Folio.Proofs.Resolution.Ledger
import Folio.Proofs.Resolution.Modest
import Folio.Proofs.Resolution.Identified
import Folio.Proofs.AutomaticAnchors
import Folio.Proofs.Calls
import Folio.Proofs.Resolution.Upkeep
import Folio.Proofs.Scope.Values
import Folio.Proofs.Resolution.Hygiene
import Folio.Proofs.Resolution.Arguments
import Folio.Proofs.CallByName
import Folio.Proofs.Resolution.Sheltering
import Folio.Proofs.RelativePaths
import Folio.Proofs.DeterminedLinks
import Folio.Proofs.Resolution.Masters
import Folio.Proofs.Resolution.Schedule
import Folio.Proofs.MasterChecks
import Folio.Proofs.Numbering.Commuting
import Folio.Proofs.LabelOrder
import Folio.Proofs.Statements
import Folio.Proofs.SplitDeclarations
import Folio.Proofs.DeclaredParts
import Folio.Proofs.RelativeLinks
import Folio.Proofs.Scope.Naming
import Folio.Proofs.Resolution.Filling
import Folio.Proofs.Resolution.Opening
import Folio.Proofs.ScopeNames
import Folio.Proofs.UnnamedScopes
import Folio.Proofs.FormatGrammar
import Folio.Proofs.FormatTexts
import Folio.Proofs.Joints
import Folio.Proofs.InlineTexts
import Folio.Proofs.NormalPaths
import Folio.Proofs.RefusedDeclarations
import Folio.Proofs.Scope.Answers
import Folio.Proofs.Scope.Refusals
import Folio.Proofs.Scope.Attempts
import Folio.Proofs.RefusedRegistrations
import Folio.Proofs.DocumentTerms
import Folio.Proofs.UnrelatedDocuments
import Folio.Proofs.AlphabeticNumbers
import Folio.Proofs.RomanNumerals
import Folio.Proofs.LinkTexts
import Folio.Proofs.CountingSteps
import Folio.Proofs.Numbering.Steps
import Folio.Proofs.Numbering.Ancestors
import Folio.Proofs.DirectoryNames
import Folio.Proofs.Numbering.Traversals
