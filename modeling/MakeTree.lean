import MakeTree.Parse
import MakeTree.Proofs.Arguments
import MakeTree.Proofs.AssignmentSearch
import MakeTree.Proofs.Comments
import MakeTree.Proofs.Comparisons
import MakeTree.Proofs.Concatenation
import MakeTree.Proofs.Continuations
import MakeTree.Proofs.DefinitionExtent
import MakeTree.Proofs.DispatchLog
import MakeTree.Proofs.ExpansionViews
import MakeTree.Proofs.Expansions
import MakeTree.Proofs.Fragments
import MakeTree.Proofs.InlineRecipe
import MakeTree.Proofs.KeywordTokens
import MakeTree.Proofs.LineByLine
import MakeTree.Proofs.LineEndings
import MakeTree.Proofs.Nesting
import MakeTree.Proofs.Positions
import MakeTree.Proofs.PrefixTokens
import MakeTree.Proofs.RecipeExtent
import MakeTree.Proofs.RecipeLookahead
import MakeTree.Proofs.RecipePrefix
import MakeTree.Proofs.Refusals
import MakeTree.Proofs.RuleHeader
import MakeTree.Proofs.SkippedCharacters
import MakeTree.Proofs.StatementDispatch
import MakeTree.Proofs.StatementLocality
import MakeTree.Proofs.StatementRows
import MakeTree.Proofs.Strictness
import MakeTree.Proofs.Termination
import MakeTree.Proofs.Tiling
import MakeTree.Proofs.TokenFidelity
import MakeTree.Proofs.TokenShapes
import MakeTree.Proofs.TreeGrammar
import MakeTree.Proofs.Trimming
import MakeTree.Proofs.WordLists
import MakeTree.View.Makefile
