import SplitPackages.Combine
import SplitPackages.CommandLine.Answer
import SplitPackages.CommandLine.Directory
import SplitPackages.CommandLine.Help
import SplitPackages.CommandLine.Invocation
import SplitPackages.CommandLine.Item
import SplitPackages.CommandLine.Program
import SplitPackages.Config
import SplitPackages.Declaration
import SplitPackages.Description
import SplitPackages.Environment
import SplitPackages.Error
import SplitPackages.Event
import SplitPackages.Id
import SplitPackages.Known
import SplitPackages.Lookup
import SplitPackages.Main
import SplitPackages.Module
import SplitPackages.OrderedSet
import SplitPackages.Package
import SplitPackages.Path
import SplitPackages.Proofs.Answers
import SplitPackages.Proofs.Bounds
import SplitPackages.Proofs.CacheOrder
import SplitPackages.Proofs.CandidateFold
import SplitPackages.Proofs.CandidateJoin
import SplitPackages.Proofs.ClientChoice
import SplitPackages.Proofs.Coherence
import SplitPackages.Proofs.Combination
import SplitPackages.Proofs.Configurations
import SplitPackages.Proofs.Coverage
import SplitPackages.Proofs.Declarations
import SplitPackages.Proofs.Extension
import SplitPackages.Proofs.Faithful
import SplitPackages.Proofs.Forest
import SplitPackages.Proofs.Frame
import SplitPackages.Proofs.Fullness
import SplitPackages.Proofs.Grounds
import SplitPackages.Proofs.Growth
import SplitPackages.Proofs.Histories
import SplitPackages.Proofs.Isolation
import SplitPackages.Proofs.KnownEntries
import SplitPackages.Proofs.LentAnswers
import SplitPackages.Proofs.Links
import SplitPackages.Proofs.LookupProgress
import SplitPackages.Proofs.LookupWrites
import SplitPackages.Proofs.Memos
import SplitPackages.Proofs.Merges
import SplitPackages.Proofs.NewSplit
import SplitPackages.Proofs.OrderlyState
import SplitPackages.Proofs.Outcome
import SplitPackages.Proofs.PathText
import SplitPackages.Proofs.Permanence
import SplitPackages.Proofs.Persistence
import SplitPackages.Proofs.Placement
import SplitPackages.Proofs.Pools
import SplitPackages.Proofs.Population
import SplitPackages.Proofs.Questions
import SplitPackages.Proofs.Reachability
import SplitPackages.Proofs.ReadChains
import SplitPackages.Proofs.Records
import SplitPackages.Proofs.RegisteredChild
import SplitPackages.Proofs.Registration
import SplitPackages.Proofs.Renderings
import SplitPackages.Proofs.Repetition
import SplitPackages.Proofs.Representation
import SplitPackages.Proofs.Requests
import SplitPackages.Proofs.Resolution
import SplitPackages.Proofs.ResolvedType
import SplitPackages.Proofs.SearchResult
import SplitPackages.Proofs.Searches
import SplitPackages.Proofs.Sections
import SplitPackages.Proofs.Sessions
import SplitPackages.Proofs.Shapes
import SplitPackages.Proofs.Sources
import SplitPackages.Proofs.SplitChildren
import SplitPackages.Proofs.Statements
import SplitPackages.Proofs.Stock
import SplitPackages.Proofs.Storage
import SplitPackages.Proofs.StrictLookups
import SplitPackages.Proofs.TaintedSearch
import SplitPackages.Proofs.TypeAccess
import SplitPackages.Proofs.TypeChoice
import SplitPackages.Proofs.Union
import SplitPackages.Proofs.Views
import SplitPackages.Proofs.Wrappers
import SplitPackages.Readability
import SplitPackages.Registration
import SplitPackages.Report
import SplitPackages.Request
import SplitPackages.Resolution
import SplitPackages.Search
import SplitPackages.Session
import SplitPackages.Split
import SplitPackages.Table
import SplitPackages.Text.Blank
import SplitPackages.Text.Extending
import SplitPackages.Text.Ignorable
import SplitPackages.Text.Pieces
import SplitPackages.Text.Quoted
import SplitPackages.Text.Ranges
import SplitPackages.Text.Unprintable
import SplitPackages.Toml.Datetime
import SplitPackages.Toml.Digits
import SplitPackages.Toml.Document
import SplitPackages.Toml.Key
import SplitPackages.Toml.Layout
import SplitPackages.Toml.Library
import SplitPackages.Toml.Number
import SplitPackages.Toml.Quotation
import SplitPackages.Toml.Reader
import SplitPackages.Toml.Record
import SplitPackages.Toml.Sheet
import SplitPackages.Toml.Statement
import SplitPackages.Toml.Table
import SplitPackages.Toml.Value
import SplitPackages.Toml.Word
import SplitPackages.View
import SplitPackages.Visibility
import SplitPackages.World
import SplitPackages.World.Build
import SplitPackages.World.Record
import SplitPackages.World.Text
