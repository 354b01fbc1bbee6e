import GraphFusion.Types.Error
import GraphFusion.Types.Codec
import GraphFusion.Numeric.Shortest
import GraphFusion.Values.Leaves
import GraphFusion.Values.Codec
import GraphFusion.Hash.Blake3
import GraphFusion.Graph.Verify
import GraphFusion.Graph.Compose
import GraphFusion.Graph.Codec
import GraphFusion.Json.Printer
import GraphFusion.Json.Decode
import GraphFusion.Graph.Json
import GraphFusion.Graph.Interpreter
import GraphFusion.Terms.Construct
import GraphFusion.Terms.Scope
import GraphFusion.Terms.Postorder
import GraphFusion.Fusion.Normalize
import GraphFusion.Fusion.Pass
import GraphFusion.Fusion.Pipeline
import GraphFusion.Store.Archive
import GraphFusion.Store.FileTree
import GraphFusion.Store.Basic
import GraphFusion.Proofs.Outcome
import GraphFusion.Proofs.Bytes.Reading
import GraphFusion.Proofs.Bytes.Canonical
import GraphFusion.Proofs.Types.Codec
import GraphFusion.Proofs.Values.Codec
import GraphFusion.Proofs.Graph.Codec
import GraphFusion.Proofs.Store.Archive
import GraphFusion.Proofs.Store.Truncation
import GraphFusion.Proofs.Store.Names
import GraphFusion.Proofs.Values.Leaves
import GraphFusion.Proofs.Values.Paths
import GraphFusion.Proofs.Values.Relabelling
import GraphFusion.Proofs.Store.Retention
import GraphFusion.Proofs.Store.Files
import GraphFusion.Proofs.Store.Interleaving
import GraphFusion.Proofs.Store.Operations
import GraphFusion.Proofs.Store.Listing
import GraphFusion.Proofs.Store.Saving
import GraphFusion.Proofs.Store.Alone
import GraphFusion.Proofs.Store.Durability
import GraphFusion.Proofs.Store.Session
import GraphFusion.Proofs.Store.Ledger
import GraphFusion.Proofs.Store.Crash
import GraphFusion.Proofs.Store.Locking
import GraphFusion.Proofs.Store.Batches
import GraphFusion.Proofs.Store.Concurrency
import GraphFusion.Proofs.Store.Racing
import GraphFusion.Proofs.Store.Footprint
import GraphFusion.Proofs.Store.Isolation
import GraphFusion.Proofs.Store.Frame
import GraphFusion.Proofs.Values.Typing
import GraphFusion.Proofs.Graph.Typing
import GraphFusion.Proofs.Graph.Execution
import GraphFusion.Proofs.Graph.Built
import GraphFusion.Proofs.Graph.Compose
import GraphFusion.Proofs.Graph.Combinators
import GraphFusion.Proofs.Graph.Soundness
import GraphFusion.Proofs.Graph.Attempts
import GraphFusion.Proofs.Graph.Leftovers
import GraphFusion.Proofs.Graph.Laws
import GraphFusion.Proofs.Graph.Interception
import GraphFusion.Proofs.Graph.Signatures
import GraphFusion.Proofs.Decoding
import GraphFusion.Proofs.Terms.Units
import GraphFusion.Proofs.Terms.Evaluation
import GraphFusion.Proofs.Terms.Occurrences
import GraphFusion.Proofs.Terms.Calls
import GraphFusion.Proofs.Terms.Equivalence
import GraphFusion.Proofs.Fusion.Pattern
import GraphFusion.Proofs.Fusion.Exactness
import GraphFusion.Proofs.Fusion.Inlining
import GraphFusion.Proofs.Fusion.Normalization
import GraphFusion.Proofs.Fusion.Pipeline
import GraphFusion.Proofs.Fusion.Glue
import GraphFusion.Proofs.Fusion.Outline
import GraphFusion.Proofs.Fusion.Totality
import GraphFusion.Proofs.Fusion.Completeness
import GraphFusion.Proofs.Fusion.BinderNames
import GraphFusion.Proofs.Fusion.Traversal
import GraphFusion.Proofs.Fusion.Scoping
import GraphFusion.Proofs.Fusion.Counting
import GraphFusion.Proofs.Fusion.Sharing
import GraphFusion.Proofs.Fusion.NormalForm
import GraphFusion.Proofs.Fusion.Exhaustion
import GraphFusion.Proofs.Fusion.Flags
import GraphFusion.Proofs.Graph.Broadcasting
import GraphFusion.Proofs.Graph.Integers
import GraphFusion.Proofs.Fusion.Binding
import GraphFusion.Proofs.Fusion.Rank
import GraphFusion.Proofs.Fusion.Convergence
import GraphFusion.Proofs.Json.Lexer
import GraphFusion.Proofs.Json.Parser
import GraphFusion.Proofs.Json.Decode
import GraphFusion.Proofs.Types.Json
import GraphFusion.Proofs.Graph.Json
