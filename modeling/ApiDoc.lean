import ApiDoc.Total
import ApiDoc.Text.Blank
import ApiDoc.Text.Pieces
import ApiDoc.Text.Hex
import ApiDoc.NameMap
import ApiDoc.Text.WordChar
import ApiDoc.Text.Lowercase
import ApiDoc.Fqsen
import ApiDoc.Digest
import ApiDoc.InlineTag
import ApiDoc.Disk.Fault
import ApiDoc.Text.Decimal
import ApiDoc.Example
import ApiDoc.Json.Basic
import ApiDoc.Json.Printer
import ApiDoc.Json.Parser
import ApiDoc.Kind
import ApiDoc.Reference
import ApiDoc.Tag
import ApiDoc.Element
import ApiDoc.File
import ApiDoc.Codec.Basic
import ApiDoc.Codec.Element
import ApiDoc.Token
import ApiDoc.Token.Lexer
import ApiDoc.DocBlock
import ApiDoc.Reader.Cursor
import ApiDoc.Reader.Signature
import ApiDoc.Reader.Reading
import ApiDoc.Reader.ClassBody
import ApiDoc.Reader.Statement
import ApiDoc.Source
import ApiDoc.Taxonomy
import ApiDoc.Toc
import ApiDoc.Glob
import ApiDoc.VisibilityFilter
import ApiDoc.Settings
import ApiDoc.Config
import ApiDoc.Cache.Error
import ApiDoc.BuildError
import ApiDoc.Event
import ApiDoc.ApiSet
import ApiDoc.Project
import ApiDoc.Resolution
import ApiDoc.Router
import ApiDoc.Codec.Project
import ApiDoc.Codec.Settings
import ApiDoc.Selection
import ApiDoc.Cache.FileCache
import ApiDoc.Cache.Manifest
import ApiDoc.Compile.Pass
import ApiDoc.Compile.Index
import ApiDoc.Compile.Link
import ApiDoc.Compile.SpaceTree
import ApiDoc.Compile.PackageTree
import ApiDoc.Compile.Markers
import ApiDoc.Compile.Texts
import ApiDoc.Compile.ExampleText
import ApiDoc.Compile.LinkText
import ApiDoc.Compile.BackLink
import ApiDoc.Compile.Contents
import ApiDoc.Compile.Filter
import ApiDoc.Compiler
import ApiDoc.Problem
import ApiDoc.Path
import ApiDoc.Disk
import ApiDoc.Discovery
import ApiDoc.ExampleFolders
import ApiDoc.Cache.Store
import ApiDoc.Collection
import ApiDoc.Build
import ApiDoc.Response
import ApiDoc.Command
import ApiDoc.CommandLine
import ApiDoc.Clock
import ApiDoc.Main
import ApiDoc.Proofs.JsonText
import ApiDoc.Proofs.Records
import ApiDoc.Proofs.Places
import ApiDoc.Proofs.Incremental
import ApiDoc.Proofs.Spots
import ApiDoc.Proofs.Addresses
import ApiDoc.Proofs.Reflection
import ApiDoc.Proofs.Reader
import ApiDoc.Proofs.Links
import ApiDoc.Proofs.Steps
import ApiDoc.Proofs.Trees
import ApiDoc.Proofs.Indexes
import ApiDoc.Proofs.Course
import ApiDoc.Proofs.Removal
import ApiDoc.Proofs.Unlinking
import ApiDoc.Proofs.BackLinks
import ApiDoc.Proofs.Exclusion
import ApiDoc.Proofs.Integrity
import ApiDoc.Proofs.Inverse
import ApiDoc.Proofs.Listing
import ApiDoc.Proofs.Canonical
import ApiDoc.Proofs.Linking
import ApiDoc.Proofs.Agreement
import ApiDoc.Proofs.InternalText
import ApiDoc.Proofs.KindViews
import ApiDoc.Proofs.Retention
import ApiDoc.Proofs.RoundTrip
import ApiDoc.Proofs.ReadBack
import ApiDoc.Proofs.Isolation
import ApiDoc.Proofs.Conservation
import ApiDoc.Proofs.FileOrder
import ApiDoc.Proofs.Mentions
import ApiDoc.Proofs.Seams
import ApiDoc.Proofs.Verbatim
import ApiDoc.Proofs.Growth
import ApiDoc.Proofs.Attachment
import ApiDoc.Proofs.Filing
import ApiDoc.Proofs.Contents
import ApiDoc.Proofs.Independence
import ApiDoc.Proofs.Cuts
import ApiDoc.Proofs.Positions
import ApiDoc.Proofs.Respacing
import ApiDoc.Proofs.Phrases
import ApiDoc.Proofs.Grammar
import ApiDoc.Proofs.Passage
import ApiDoc.Proofs.Statements
import ApiDoc.Proofs.Namespaces
import ApiDoc.Proofs.Imports
import ApiDoc.Proofs.Collisions
import ApiDoc.Proofs.Guides
import ApiDoc.Proofs.Turns
import ApiDoc.Proofs.Progress
import ApiDoc.Proofs.Spans
import ApiDoc.Proofs.Attribution
import ApiDoc.Proofs.Lookahead
import ApiDoc.Proofs.Locality
import ApiDoc.Proofs.Traces
import ApiDoc.Proofs.Refills
import ApiDoc.Proofs.Bodies
import ApiDoc.Proofs.Words
import ApiDoc.Proofs.Scanning
import ApiDoc.Proofs.Comments
import ApiDoc.Proofs.TagForms
import ApiDoc.Proofs.MagicMethods
import ApiDoc.Proofs.Refiling
import ApiDoc.Proofs.Marking
import ApiDoc.Proofs.MemberNames
import ApiDoc.Proofs.Splicing
import ApiDoc.Proofs.Guarded
import ApiDoc.Proofs.Bounds
import ApiDoc.Proofs.Expansion
import ApiDoc.Proofs.Parameters
import ApiDoc.Proofs.Accounting
import ApiDoc.Proofs.Damage
import ApiDoc.Proofs.Entries
import ApiDoc.Proofs.Success
import ApiDoc.Proofs.Upkeep
import ApiDoc.Proofs.ProblemOrder
import ApiDoc.Proofs.SaveTimes
import ApiDoc.Proofs.Pages
import ApiDoc.Proofs.Precedence
import ApiDoc.Proofs.Includes
import ApiDoc.Proofs.Discoveries
import ApiDoc.Proofs.Commands
