import Modularity.Codebase.Basic
import Modularity.Codebase.Error
import Modularity.Codebase.Queries
import Modularity.Codebase.Snapshot
import Modularity.Config
import Modularity.Descriptor
import Modularity.Edge.Basic
import Modularity.Edge.Discovery
import Modularity.Fingerprint.Base62
import Modularity.Fingerprint.Basic
import Modularity.Fingerprint.Xxh64
import Modularity.Glob.Basic
import Modularity.Glob.IgnoreList
import Modularity.Glob.Parser
import Modularity.Glob.Regex
import Modularity.Glob.Written
import Modularity.Graph.Basic
import Modularity.Graph.Bootstrap
import Modularity.Graph.Cache
import Modularity.Graph.Dependency
import Modularity.Graph.Error
import Modularity.Graph.Layout
import Modularity.Graph.Options
import Modularity.Graph.Reach
import Modularity.Inspect
import Modularity.Interface.Basic
import Modularity.Interface.Family
import Modularity.Json.Basic
import Modularity.Json.Reader
import Modularity.Json.Record
import Modularity.Json.Text
import Modularity.Json.Token
import Modularity.Json.Writer
import Modularity.Module.AllowList
import Modularity.Module.Basic
import Modularity.Namespace.Basic
import Modularity.Namespace.Name
import Modularity.Ordered.Linear
import Modularity.Ordered.Map
import Modularity.Ordered.Set
import Modularity.Ordered.Sort
import Modularity.Proofs.Codebase.Addition
import Modularity.Proofs.Codebase.Assembly
import Modularity.Proofs.Codebase.Content
import Modularity.Proofs.Codebase.Fingerprint
import Modularity.Proofs.Codebase.Indexes
import Modularity.Proofs.Codebase.Listing
import Modularity.Proofs.Codebase.Queries
import Modularity.Proofs.Codebase.Reachable
import Modularity.Proofs.Codebase.Rebuild
import Modularity.Proofs.Codebase.Relocation
import Modularity.Proofs.Edge.Discovery
import Modularity.Proofs.Edge.Gaps
import Modularity.Proofs.Edge.Listing
import Modularity.Proofs.Edge.Occurrence
import Modularity.Proofs.Except
import Modularity.Proofs.Fingerprint.Bytes
import Modularity.Proofs.Fingerprint.Numeral
import Modularity.Proofs.Graph.Bootstrap
import Modularity.Proofs.Graph.Build
import Modularity.Proofs.Graph.Cache
import Modularity.Proofs.Graph.Conditions
import Modularity.Proofs.Graph.Dependency
import Modularity.Proofs.Graph.Exposure
import Modularity.Proofs.Graph.Layout
import Modularity.Proofs.Graph.Outline
import Modularity.Proofs.Graph.Ownership
import Modularity.Proofs.Graph.Positions
import Modularity.Proofs.Graph.Reach
import Modularity.Proofs.Graph.Relocation
import Modularity.Proofs.Graph.Search
import Modularity.Proofs.Interface.Facets
import Modularity.Proofs.Json.Documents
import Modularity.Proofs.Json.Pretty
import Modularity.Proofs.Json.Records
import Modularity.Proofs.Json.RoundTrip
import Modularity.Proofs.Json.Scan
import Modularity.Proofs.Module.Relocation
import Modularity.Proofs.Module.Unseen
import Modularity.Proofs.Namespace.Order
import Modularity.Proofs.Ordered.Canonical
import Modularity.Proofs.Ordered.Distinct
import Modularity.Proofs.Ordered.Image
import Modularity.Proofs.Verification.Circuit
import Modularity.Proofs.Verification.Component
import Modularity.Proofs.Verification.Cycles
import Modularity.Proofs.Verification.Relocation
import Modularity.Proofs.Verification.Soundness
import Modularity.Proofs.Verification.Unseen
import Modularity.Report.Basic
import Modularity.Report.Human
import Modularity.Stereotypes
import Modularity.Symbol.Basic
import Modularity.Symbol.Member
import Modularity.Text.Blank
import Modularity.Text.Pieces
import Modularity.Text.Quoted
import Modularity.Text.Unprintable
import Modularity.TypeExpr.Names
import Modularity.TypeExpr.Platform
import Modularity.Verification.Circuit
import Modularity.Verification.Cycles
import Modularity.Verification.Rules
import Modularity.Verification.Verify
import Modularity.Verification.Violation
import Modularity.Proofs.Codebase.Tree
import Modularity.Proofs.Verification.Findings
import Modularity.Proofs.Codebase.Opening
import Modularity.Proofs.Verification.Opening
import Modularity.Proofs.Graph.Reuse
import Modularity.Proofs.Graph.Roots
import Modularity.Proofs.Graph.Naming
import Modularity.Proofs.Namespace.Renaming
import Modularity.Proofs.Verification.Sharing
import Modularity.Proofs.Verification.Renaming
import Modularity.Proofs.Graph.DefaultInterface
import Modularity.Proofs.Graph.LocalNames
import Modularity.Proofs.Report.Summary
import Modularity.Proofs.Verification.Explanation
import Modularity.Proofs.TypeExpr.Grammar
import Modularity.Proofs.Namespace.Ancestry
import Modularity.Proofs.Glob.Canonical
