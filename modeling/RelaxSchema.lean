import RelaxSchema.Xml.Reader
import RelaxSchema.Schema.Compilation
import RelaxSchema.Schema.Positions
import RelaxSchema.Schema.Issues
import RelaxSchema.Document.Reader
import RelaxSchema.Store.Disk
import RelaxSchema.Grammar.Includes
import RelaxSchema.Compact.Schema
import RelaxSchema.Grammar.Forest
import RelaxSchema.Main
import RelaxSchema.Proofs.Automaton.Path
import RelaxSchema.Proofs.Automaton.Fragment
import RelaxSchema.Proofs.Automaton.Building
import RelaxSchema.Proofs.Automaton.Closure
import RelaxSchema.Proofs.Automaton.Determinisation
import RelaxSchema.Proofs.Automaton.Tokens
import RelaxSchema.Proofs.Automaton.Merging
import RelaxSchema.Proofs.Automaton.Limits
import RelaxSchema.Proofs.Compact.Content
import RelaxSchema.Proofs.Catalogue
import RelaxSchema.Proofs.Compact.Document
import RelaxSchema.Proofs.Schema.Built
import RelaxSchema.Proofs.Compact.Schema
import RelaxSchema.Proofs.Grammar.Expansion
import RelaxSchema.Proofs.Grammar.NormalForm
import RelaxSchema.Proofs.Grammar.ContentModel
import RelaxSchema.Proofs.Grammar.Core
import RelaxSchema.Proofs.Grammar.Registration
import RelaxSchema.Proofs.Grammar.Definitions
import RelaxSchema.Proofs.Grammar.Flattening
import RelaxSchema.Proofs.Content.Expression
import RelaxSchema.Proofs.Content.Replay
import RelaxSchema.Proofs.Schema.Validation
import RelaxSchema.Proofs.Schema.Core
import RelaxSchema.Proofs.Grammar.References
import RelaxSchema.Proofs.Schema.LevelOrder
import RelaxSchema.Proofs.Grammar.Content
import RelaxSchema.Proofs.Grammar.Preservation
import RelaxSchema.Proofs.Automaton.Trim
import RelaxSchema.Proofs.Content.Rows
import RelaxSchema.Proofs.Content.Equivalence
import RelaxSchema.Proofs.Content.Completion
import RelaxSchema.Proofs.Content.RepeatedText
import RelaxSchema.Proofs.Grammar.Regrouping
import RelaxSchema.Proofs.Grammar.Grouping
import RelaxSchema.Proofs.Schema.Grouping
import RelaxSchema.Proofs.Grammar.Planting
import RelaxSchema.Proofs.Grammar.GrammarElement
import RelaxSchema.Proofs.Grammar.Substitution
import RelaxSchema.Proofs.Grammar.Includes
import RelaxSchema.Proofs.Grammar.Marking
import RelaxSchema.Proofs.Schema.Overriding
import RelaxSchema.Proofs.Limits
import RelaxSchema.Proofs.Schema.Limits
import RelaxSchema.Proofs.Schema.Skeleton
import RelaxSchema.Proofs.Schema.Issues
import RelaxSchema.Proofs.Document.Elements
import RelaxSchema.Proofs.Grammar.IncludeDepth
import RelaxSchema.Proofs.Grammar.Reordering
import RelaxSchema.Proofs.Schema.Reordering
import RelaxSchema.Proofs.Schema.CharacterData
import RelaxSchema.Proofs.Content.Allowed
import RelaxSchema.Proofs.Automaton.Subsets
import RelaxSchema.Proofs.Content.Compilation
import RelaxSchema.Proofs.Automaton.Assembly
import RelaxSchema.Proofs.Automaton.AccessWords
import RelaxSchema.Proofs.Automaton.Numbering
import RelaxSchema.Proofs.Schema.Positions
import RelaxSchema.Proofs.Schema.Warnings
import RelaxSchema.Proofs.Schema.Paths
import RelaxSchema.Proofs.Grammar.Frame
import RelaxSchema.Proofs.Grammar.Division
import RelaxSchema.Proofs.Schema.Division
import RelaxSchema.Proofs.Grammar.Edits
import RelaxSchema.Proofs.Grammar.DocumentOrder
import RelaxSchema.Proofs.Grammar.Combining
import RelaxSchema.Proofs.Grammar.Removal
import RelaxSchema.Proofs.Schema.Removal
import RelaxSchema.Proofs.Grammar.Origin
import RelaxSchema.Proofs.Schema.FlatForm
import RelaxSchema.Proofs.Schema.ChildElements
import RelaxSchema.Proofs.Grammar.Normality
import RelaxSchema.Proofs.Grammar.EmptyAlternatives
import RelaxSchema.Proofs.Grammar.Respelling
import RelaxSchema.Proofs.Schema.EmptyAlternatives
import RelaxSchema.Proofs.Compact.Ranking
import RelaxSchema.Proofs.Document.Streams
import RelaxSchema.Proofs.Content.Rendering
import RelaxSchema.Proofs.Grammar.Dissolving
import RelaxSchema.Proofs.Grammar.NestedChoices
import RelaxSchema.Proofs.Grammar.Sweeps
import RelaxSchema.Proofs.Grammar.InPlace
import RelaxSchema.Proofs.Grammar.DefinitionsInPlace
import RelaxSchema.Proofs.Automaton.Frame
import RelaxSchema.Proofs.Store.Spelling
