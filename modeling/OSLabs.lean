import OSLabs.Libpriqueue.Elems
import OSLabs.Libpriqueue.Basic
import OSLabs.Libpriqueue.Refinement
import OSLabs.Libpriqueue.Runs
import OSLabs.Libpriqueue.Interface
import OSLabs.Libscheduler.Basic
import OSLabs.Libscheduler.Handlers
import OSLabs.Libscheduler.Spec
import OSLabs.Libscheduler.Ownership
import OSLabs.Libscheduler.Timing
import OSLabs.Libscheduler.Order
import OSLabs.Libscheduler.Preemption
import OSLabs.Libscheduler.Misses
import OSLabs.Libscheduler.Averages
import OSLabs.Libscheduler.Results
import OSLabs.Buddy.Basic
import OSLabs.Buddy.Blocks
import OSLabs.Buddy.Invariant
import OSLabs.Buddy.Canonical
import OSLabs.Buddy.RoundTrip
import OSLabs.Buddy.Allocation
import OSLabs.Quash.Descriptors
import OSLabs.Quash.Basic
import OSLabs.Quash.Execute
import OSLabs.Quash.Pipeline
import OSLabs.Quash.Wiring
import OSLabs.Quash.Runs
import OSLabs.Quash.Jobs
import OSLabs.Quash.Builtins
