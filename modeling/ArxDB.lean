import ArxDB.Framework.Base64
import ArxDB.Framework.Chosen
import ArxDB.Framework.Derivation
import ArxDB.Framework.Dict
import ArxDB.Framework.Failing
import ArxDB.Framework.Grounded
import ArxDB.Framework.HashPath
import ArxDB.Framework.HashTree
import ArxDB.Framework.Record
import ArxDB.Framework.Saturate
import ArxDB.Framework.Staged
import ArxDB.Framework.Threads
import ArxDB.Framework.Worklist
import ArxDB.Impl.AppendLog
import ArxDB.Impl.Attest
import ArxDB.Impl.Ceremony
import ArxDB.Impl.Checkers
import ArxDB.Impl.Commit
import ArxDB.Impl.Concurrent
import ArxDB.Impl.Deployment
import ArxDB.Impl.EdgeCall
import ArxDB.Impl.Elenchus
import ArxDB.Impl.Go.AppendLog
import ArxDB.Impl.Go.Client
import ArxDB.Impl.Go.Crash
import ArxDB.Impl.Go.GraphIndex
import ArxDB.Impl.Go.Hashing
import ArxDB.Impl.Go.Layer
import ArxDB.Impl.Go.Merkle
import ArxDB.Impl.Go.Service
import ArxDB.Impl.Go.Session
import ArxDB.Impl.GraphIndex
import ArxDB.Impl.Hashing
import ArxDB.Impl.Http
import ArxDB.Impl.Kappa
import ArxDB.Impl.Merkle
import ArxDB.Impl.ObjectStore
import ArxDB.Impl.Path
import ArxDB.Impl.Primitives
import ArxDB.Impl.Reachability
import ArxDB.Impl.Refutation
import ArxDB.Impl.Resolve
import ArxDB.Impl.Roster
import ArxDB.Impl.Schema
import ArxDB.Impl.Seed
import ArxDB.Impl.Serialization
import ArxDB.Impl.Server
import ArxDB.Impl.Session
import ArxDB.Impl.SharedObjects
import ArxDB.Impl.Storage
import ArxDB.Impl.Text
import ArxDB.Impl.Verifier
import ArxDB.Impl.Z3Expr
import ArxDB.Proof.Atomic
import ArxDB.Proof.Attestation
import ArxDB.Proof.Bounds
import ArxDB.Proof.Ceremony
import ArxDB.Proof.ClaimText
import ArxDB.Proof.Concurrent
import ArxDB.Proof.Contradiction
import ArxDB.Proof.Corroboration
import ArxDB.Proof.Deduction
import ArxDB.Proof.Deployment.Anchor
import ArxDB.Proof.Deployment.Boots
import ArxDB.Proof.Deployment.Files
import ArxDB.Proof.Deployment.Identity
import ArxDB.Proof.Deployment.Restarts
import ArxDB.Proof.Depth
import ArxDB.Proof.DropIn
import ArxDB.Proof.Earned
import ArxDB.Proof.Encoding
import ArxDB.Proof.Exceptions
import ArxDB.Proof.Frontier
import ArxDB.Proof.Go.Adjacency
import ArxDB.Proof.Go.Anchor
import ArxDB.Proof.Go.Atomic
import ArxDB.Proof.Go.Ceremony
import ArxDB.Proof.Go.Client
import ArxDB.Proof.Go.Clients
import ArxDB.Proof.Go.Crash
import ArxDB.Proof.Go.Daemon
import ArxDB.Proof.Go.Keys
import ArxDB.Proof.Go.Layer
import ArxDB.Proof.Go.Log
import ArxDB.Proof.Go.Merkle
import ArxDB.Proof.Go.Objects
import ArxDB.Proof.Go.Operations
import ArxDB.Proof.Go.Pebble
import ArxDB.Proof.Go.Readback
import ArxDB.Proof.Go.Reads
import ArxDB.Proof.Go.Represents
import ArxDB.Proof.Go.Scans
import ArxDB.Proof.Go.Served
import ArxDB.Proof.Go.Session
import ArxDB.Proof.Grades
import ArxDB.Proof.Growth
import ArxDB.Proof.HashChain
import ArxDB.Proof.Hashing
import ArxDB.Proof.History
import ArxDB.Proof.Http.Answers
import ArxDB.Proof.Http.Graph
import ArxDB.Proof.Http.History
import ArxDB.Proof.Http.Json
import ArxDB.Proof.Http.Reproduce
import ArxDB.Proof.Immutable
import ArxDB.Proof.Inclusion
import ArxDB.Proof.Index
import ArxDB.Proof.Labelling
import ArxDB.Proof.Malformed
import ArxDB.Proof.Merkle
import ArxDB.Proof.Objects
import ArxDB.Proof.Operations
import ArxDB.Proof.Pipeline
import ArxDB.Proof.ProofTree
import ArxDB.Proof.Query
import ArxDB.Proof.Reachability
import ArxDB.Proof.Records
import ArxDB.Proof.Refutation
import ArxDB.Proof.Reproduce
import ArxDB.Proof.Resolve
import ArxDB.Proof.Rotation
import ArxDB.Proof.Seed
import ArxDB.Proof.Serialization
import ArxDB.Proof.SharedObjects
import ArxDB.Proof.Store
import ArxDB.Proof.Tamper
import ArxDB.Reference.Backends
import ArxDB.Reference.Cbor
import ArxDB.Reference.Prims
import ArxDB.Spec.Store
