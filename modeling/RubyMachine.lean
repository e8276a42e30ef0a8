import RubyMachine.Bytes.Sha256
import RubyMachine.Text.Quoted
import RubyMachine.Failure
import RubyMachine.Stack
import RubyMachine.Code.Assembly
import RubyMachine.Code.Listing
import RubyMachine.Code.Relocate
import RubyMachine.Cache.Inline
import RubyMachine.Coroutine
import RubyMachine.Heap.Collect
import RubyMachine.Machine.Step
import RubyMachine.Machine.Boot
import RubyMachine.Machine.Snapshot
import RubyMachine.Manifest
import RubyMachine.Program.Capture
import RubyMachine.Run.Store
import RubyMachine.Time.Calendar
import RubyMachine.Program.Load
import RubyMachine.Program.Stored
import RubyMachine.Main
import RubyMachine.Proofs.Heap.Cells
import RubyMachine.Proofs.Computation
import RubyMachine.Proofs.Heap.Invariant
import RubyMachine.Proofs.Heap.Allocation
import RubyMachine.Proofs.Heap.Marking
import RubyMachine.Proofs.Heap.Reachability
import RubyMachine.Proofs.Heap.Sweeping
import RubyMachine.Proofs.Value.Layout
import RubyMachine.Proofs.Heap.Collection
import RubyMachine.Proofs.Heap.Use
import RubyMachine.Proofs.Heap.Generations
import RubyMachine.Proofs.Heap.Pages
import RubyMachine.Proofs.Heap.Links
import RubyMachine.Proofs.Machine.Known
import RubyMachine.Proofs.Machine.Logic
import RubyMachine.Proofs.Machine.State
import RubyMachine.Proofs.Machine.Objects
import RubyMachine.Proofs.Machine.Frames
import RubyMachine.Proofs.Machine.Scopes
import RubyMachine.Proofs.Machine.Arguments
import RubyMachine.Proofs.Machine.Calls
import RubyMachine.Proofs.Machine.Fibers
import RubyMachine.Proofs.Machine.Invocation
import RubyMachine.Proofs.Machine.Builtins
import RubyMachine.Proofs.Machine.Sends
import RubyMachine.Proofs.Machine.Instructions
import RubyMachine.Proofs.Machine.Steps
import RubyMachine.Proofs.Cache.Lookup
import RubyMachine.Proofs.Cache.Versions
import RubyMachine.Proofs.Cache.Transparency
import RubyMachine.Proofs.Program.Renumbering
import RubyMachine.Proofs.Machine.Ivars
import RubyMachine.Proofs.Class.Building
import RubyMachine.Proofs.Class.Singletons
import RubyMachine.Proofs.Scope.Escape
import RubyMachine.Proofs.Heap.Held
import RubyMachine.Proofs.Threads.Returns
import RubyMachine.Proofs.Threads.Lifecycle
import RubyMachine.Proofs.Threads.MethodReturns
import RubyMachine.Proofs.Threads.Breaks
import RubyMachine.Proofs.Threads.Boundaries
import RubyMachine.Proofs.Program.Registration
import RubyMachine.Proofs.Program.Admission
import RubyMachine.Proofs.Code.Agreement
import RubyMachine.Proofs.Code.Assembled
import RubyMachine.Proofs.Code.Composition
import RubyMachine.Proofs.Code.Relocated
import RubyMachine.Proofs.Arguments.Methods
import RubyMachine.Proofs.Arguments.Routing
import RubyMachine.Proofs.Arguments.Folding
import RubyMachine.Proofs.Arguments.Spreading
import RubyMachine.Proofs.Scope.Upkeep
import RubyMachine.Proofs.Machine.Operators
import RubyMachine.Proofs.Number.Integers
import RubyMachine.Proofs.Machine.Likewise
import RubyMachine.Proofs.Threads.Exchange
import RubyMachine.Proofs.Threads.Executions
import RubyMachine.Proofs.Threads.Fused
import RubyMachine.Proofs.Heap.Retention
import RubyMachine.Proofs.Machine.Collections
import RubyMachine.Proofs.Scope.Environments
import RubyMachine.Proofs.Scope.Bindings
import RubyMachine.Proofs.Scope.Names
import RubyMachine.Proofs.Arguments.Forwarding
import RubyMachine.Proofs.Arguments.Handover
import RubyMachine.Proofs.Machine.Inspection
import RubyMachine.Proofs.Machine.Literals
import RubyMachine.Proofs.Object.Dictionaries
import RubyMachine.Proofs.Cache.Sites
import RubyMachine.Proofs.Value.Boxing
import RubyMachine.Proofs.Stack.Refinement
import RubyMachine.Proofs.Coroutine.Protocol
