import Batchwise.Table
import Batchwise.Text.Quoted
import Batchwise.Text.Blank
import Batchwise.Number
import Batchwise.Settings
import Batchwise.Selection
import Batchwise.Answer
import Batchwise.Registry
import Batchwise.Batch.Log
import Batchwise.Batch.Execution
import Batchwise.Query
import Batchwise.Scenario.Objects
import Batchwise.Scenario.Script
import Batchwise.Scenario.Session
import Batchwise.Proofs.Field
import Batchwise.Proofs.Environment
import Batchwise.Proofs.Query.Execute
import Batchwise.Proofs.Args
import Batchwise.Proofs.Args.Building
import Batchwise.Proofs.Normal
import Batchwise.Proofs.Selection.Chains
import Batchwise.Proofs.Batch.Trace
import Batchwise.Proofs.Batch.Phase
import Batchwise.Proofs.Batch.Renaming
import Batchwise.Proofs.Batch.Divergence
import Batchwise.Proofs.Query.Sharing
import Batchwise.Proofs.Query.Calls
import Batchwise.Proofs.Query.Traversal
import Batchwise.Proofs.Batch.Timing
import Batchwise.Proofs.Query.Timing
import Batchwise.Proofs.Batch.Abandonment
import Batchwise.Proofs.Query.Failures
import Batchwise.Proofs.Response.Sketch
import Batchwise.Proofs.Batch.Unwanted
import Batchwise.Proofs.Resolver.Build
import Batchwise.Proofs.Registry.Views
import Batchwise.Proofs.Batch.Joint
import Batchwise.Proofs.Batch.Joining
import Batchwise.Proofs.Batch.Together
import Batchwise.Proofs.Batch.Counting
import Batchwise.Proofs.Query.Barrier
import Batchwise.Proofs.Query.Depth
import Batchwise.Proofs.Batch.Window
import Batchwise.Proofs.Batch.Requested
import Batchwise.Proofs.Batch.Declared
import Batchwise.Proofs.Query.Slots
