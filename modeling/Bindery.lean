import Bindery.Backoff
import Bindery.Build.Edition
import Bindery.Build.Run
import Bindery.Build.Session
import Bindery.Build.Site
import Bindery.Build.World
import Bindery.Command.Arguments
import Bindery.Command.Run
import Bindery.Config.Basic
import Bindery.Config.EnvFile
import Bindery.Config.Environment
import Bindery.Config.File
import Bindery.Config.Violation
import Bindery.Config.Vocabulary
import Bindery.Deflate.Bits
import Bindery.Deflate.Code
import Bindery.Deflate.Inflate
import Bindery.Digest.Block
import Bindery.Digest.Sha1
import Bindery.Digest.Sha256
import Bindery.Directive.Basic
import Bindery.Directive.Replace
import Bindery.Directive.Scanner
import Bindery.Duration
import Bindery.Expansion.Directives
import Bindery.Expansion.Document
import Bindery.Expansion.Pass
import Bindery.Expansion.Script
import Bindery.Expansion.Template
import Bindery.Expansion.Tree
import Bindery.Exposition
import Bindery.Fault.Basic
import Bindery.Fault.Console
import Bindery.FileTree
import Bindery.Gzip
import Bindery.Label
import Bindery.Language.Basic
import Bindery.Language.Locale
import Bindery.Listing.Basic
import Bindery.Listing.Comment
import Bindery.Listing.Extract
import Bindery.Listing.Layout
import Bindery.Listing.Marker
import Bindery.Listing.Python.Cut
import Bindery.Listing.Python.Token
import Bindery.Listing.Python.Wrap
import Bindery.Listing.Request
import Bindery.Listing.Selection
import Bindery.Log
import Bindery.Main
import Bindery.Manifest
import Bindery.Markdown.Autolink
import Bindery.Markdown.Block
import Bindery.Markdown.CharacterName
import Bindery.Markdown.Entity
import Bindery.Markdown.Html
import Bindery.Markdown.Inline
import Bindery.Markdown.Link
import Bindery.Markdown.Tag
import Bindery.Markdown.Target
import Bindery.Metadata.Block
import Bindery.Metadata.Initial
import Bindery.Metadata.Layer
import Bindery.Metadata.Record
import Bindery.Metadata.Store
import Bindery.Metric
import Bindery.Moment
import Bindery.Path
import Bindery.Proofs.Build.Discard
import Bindery.Proofs.Build.Edition
import Bindery.Proofs.Build.Effect
import Bindery.Proofs.Build.Independence
import Bindery.Proofs.Build.Outcome
import Bindery.Proofs.Build.Output
import Bindery.Proofs.Build.World
import Bindery.Proofs.Directive
import Bindery.Proofs.Directive.Depth
import Bindery.Proofs.Directive.Grammar
import Bindery.Proofs.Directive.Scanner
import Bindery.Proofs.Expansion.Conversation
import Bindery.Proofs.Expansion.Equations
import Bindery.Proofs.Expansion.Handling
import Bindery.Proofs.Expansion.Inclusion
import Bindery.Proofs.Expansion.Ledger
import Bindery.Proofs.Expansion.Mark
import Bindery.Proofs.Expansion.Numbering
import Bindery.Proofs.Expansion.Origin
import Bindery.Proofs.Expansion.Printing
import Bindery.Proofs.Expansion.Reference
import Bindery.Proofs.Expansion.Register
import Bindery.Proofs.Expansion.Services
import Bindery.Proofs.Expansion.Spot
import Bindery.Proofs.Expansion.Stray
import Bindery.Proofs.Expansion.Termination
import Bindery.Proofs.Expansion.Title
import Bindery.Proofs.Expansion.Visit
import Bindery.Proofs.Fault
import Bindery.Proofs.Fault.Place
import Bindery.Proofs.FileTree
import Bindery.Proofs.Label
import Bindery.Proofs.Listing.Extract
import Bindery.Proofs.Listing.Layout
import Bindery.Proofs.Listing.Python
import Bindery.Proofs.Listing.Selection
import Bindery.Proofs.Metadata.Store
import Bindery.Proofs.Path
import Bindery.Proofs.Path.Descent
import Bindery.Proofs.Repository.Cache
import Bindery.Proofs.Repository.Sharing
import Bindery.Proofs.Resolver
import Bindery.Proofs.Text.Tidy
import Bindery.Repository.Address
import Bindery.Repository.Attempt
import Bindery.Repository.Cache
import Bindery.Repository.Client
import Bindery.Repository.Commit
import Bindery.Repository.Credentials
import Bindery.Repository.Failure
import Bindery.Repository.Snapshot
import Bindery.Repository.WorkTree
import Bindery.Resolver
import Bindery.Text.Basic
import Bindery.Text.Decimal
import Bindery.Text.Number
import Bindery.Text.Punctuation
import Bindery.Text.Quoted
import Bindery.Text.Title
import Bindery.Text.Utf8
import Bindery.Url
import Bindery.Value
import Bindery.Version
import Bindery.Watch
import Bindery.Website.Description
import Bindery.Website.FileList
import Bindery.Website.FileSize
import Bindery.Website.Markup
import Bindery.Website.Page
import Bindery.Website.Site
import Bindery.Workspace
import Bindery.Yaml.Decode
import Bindery.Yaml.Node
import Bindery.Yaml.Scalar
import Bindery.Yaml.Token
import Bindery.Yaml.Writer
import Bindery.Proofs.Build.Languages
import Bindery.Proofs.Metadata.FirstWriter
import Bindery.Proofs.Build.References
import Bindery.Proofs.Expansion.Figure
import Bindery.Proofs.Build.Copy
import Bindery.Proofs.Directive.Brace
import Bindery.Proofs.Directive.Nesting
import Bindery.Proofs.Directive.Writing
import Bindery.Proofs.Directive.Replacing
import Bindery.Proofs.Listing.NormalForm
import Bindery.Proofs.Listing.Marker
import Bindery.Proofs.Listing.Label
import Bindery.Proofs.Listing.Apart
import Bindery.Proofs.Expansion.Line
import Bindery.Proofs.Listing.Choice
import Bindery.Proofs.Directive.Once
import Bindery.Proofs.Listing.Comment
import Bindery.Proofs.Listing.Lifetime
import Bindery.Proofs.Listing.Remark
import Bindery.Proofs.Listing.Signature
import Bindery.Proofs.Metadata.Path
import Bindery.Proofs.Listing.Bracket
import Bindery.Proofs.Listing.Wrap
import Bindery.Proofs.Listing.Row
import Bindery.Proofs.Markdown.Fence
import Bindery.Proofs.Expansion.Listed
import Bindery.Proofs.Backoff
import Bindery.Proofs.Repository.Attempt
import Bindery.Proofs.Manifest.Identity
import Bindery.Proofs.Config.Fetching
import Bindery.Proofs.Config.Input
import Bindery.Proofs.Website.Reading
import Bindery.Proofs.Website.FileList
import Bindery.Proofs.Listing.Scan
import Bindery.Proofs.Listing.Tiling
import Bindery.Proofs.Listing.Bounds
import Bindery.Proofs.Listing.Range
import Bindery.Proofs.Listing.Indentation
