import RuleTree.Node.Edit
import RuleTree.Node.Equality
import RuleTree.Options.Environment
import RuleTree.Proofs.BoundTexts
import RuleTree.Proofs.Calls
import RuleTree.Proofs.Clauses
import RuleTree.Proofs.DisabledNodes
import RuleTree.Proofs.Documents
import RuleTree.Proofs.FieldNames
import RuleTree.Proofs.FirstFault
import RuleTree.Proofs.Incomplete
import RuleTree.Proofs.Inlining
import RuleTree.Proofs.Interchange
import RuleTree.Proofs.Interleaving
import RuleTree.Proofs.JsonInterchange
import RuleTree.Proofs.Judgements
import RuleTree.Proofs.KeptGroups
import RuleTree.Proofs.Keywords
import RuleTree.Proofs.NamedTrees
import RuleTree.Proofs.NumberLiterals
import RuleTree.Proofs.NumberTokens
import RuleTree.Proofs.Numberless
import RuleTree.Proofs.Parsing
import RuleTree.Proofs.QuotedNames
import RuleTree.Proofs.RefusedSources
import RuleTree.Proofs.RoundTrip.Cel
import RuleTree.Proofs.RoundTrip.JsonLogic
import RuleTree.Proofs.RoundTrip.Mongo
import RuleTree.Proofs.RoundTrip.Settled
import RuleTree.Proofs.RoundTrip.Spel
import RuleTree.Proofs.RoundTrip.Sql
import RuleTree.Proofs.SearchFilters
import RuleTree.Proofs.SharedFields
import RuleTree.Proofs.TextTokens
import RuleTree.Proofs.ValidatedFormats
import RuleTree.Proofs.Valuation
import RuleTree.Proofs.Walks
import RuleTree.Proofs.Wildcards
import RuleTree.Query
