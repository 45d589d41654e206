import MikaBoo.Model.System
import MikaBoo.Abstract.View
import MikaBoo.Abstract.Invariant
import MikaBoo.Abstract.Operations
import MikaBoo.Abstract.Termination
import MikaBoo.Abstract.Purge
import MikaBoo.Properties.Subtree
import MikaBoo.Abstract.Actions
import MikaBoo.Abstract.Simulation
import MikaBoo.Abstract.Serving
import MikaBoo.Abstract.Boot
import MikaBoo.Abstract.Reachable
import MikaBoo.Abstract.Lifecycle
import MikaBoo.Properties.Scheduling
import MikaBoo.Properties.Messages
import MikaBoo.Properties.PassUp
import MikaBoo.Abstract.Frames
import MikaBoo.Properties.ThreadCount
import MikaBoo.Properties.Idle
import MikaBoo.Properties.Accounting
import MikaBoo.Properties.Arguments
import MikaBoo.Model.Nucleus
import MikaBoo.Properties.Stubs
import MikaBoo.Abstract.Letters
import MikaBoo.Abstract.Survivors
import MikaBoo.Properties.Managers
import MikaBoo.Properties.Replies
import MikaBoo.Properties.Slots
import MikaBoo.Abstract.Casualties
import MikaBoo.Abstract.Contexts
import MikaBoo.Properties.Exchange
import MikaBoo.Abstract.Calls
import MikaBoo.Properties.Ownership
import MikaBoo.Properties.Mailboxes
import MikaBoo.Properties.Queues
import MikaBoo.Properties.Creation
import MikaBoo.Properties.Drift
import MikaBoo.Properties.Privilege
import MikaBoo.Properties.Staffing
import MikaBoo.Abstract.Transmitter
import MikaBoo.Properties.Terminal
import MikaBoo.Abstract.Arrivals
import MikaBoo.Library.Line
import MikaBoo.Properties.Overtaking
import MikaBoo.Properties.Waiters
import MikaBoo.Library.Numeral
import MikaBoo.Library.Output
import MikaBoo.Model.Syslib
import MikaBoo.Properties.Printing
import MikaBoo.Properties.Devices
import MikaBoo.Intrusive.Crossing
import MikaBoo.Properties.ClockQueue
import MikaBoo.Properties.Deadlock
import MikaBoo.Properties.Isolation
import MikaBoo.Abstract.Leftovers
import MikaBoo.Abstract.Provenance
import MikaBoo.Properties.Attribution
import MikaBoo.Properties.Requests
import MikaBoo.Properties.Soundness
import MikaBoo.Properties.Ticks
import MikaBoo.Properties.Refinement
import MikaBoo.Properties.Service
import MikaBoo.Properties.Errors
import MikaBoo.Properties.Receives
import MikaBoo.Properties.Capacity
import MikaBoo.Properties.Authority
import MikaBoo.Properties.Answers
import MikaBoo.Abstract.Registry
import MikaBoo.Properties.Registration
import MikaBoo.Library.Replay
import MikaBoo.Properties.Memory
import MikaBoo.Properties.Formats
import MikaBoo.Properties.Waking
