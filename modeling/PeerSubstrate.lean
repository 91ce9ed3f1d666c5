import PeerSubstrate.Text.Decimal
import PeerSubstrate.Text.Hex
import PeerSubstrate.Text.Quoted
import PeerSubstrate.Text.Utf8
import PeerSubstrate.Bencode.Dictionary
import PeerSubstrate.Bencode.Value
import PeerSubstrate.Bencode.Rendering
import PeerSubstrate.Bencode.DecodeError
import PeerSubstrate.Bencode.Token
import PeerSubstrate.Bencode.Decoding
import PeerSubstrate.Bencode.Encoding
import PeerSubstrate.Time.Duration
import PeerSubstrate.RoundTrip.Bisection
import PeerSubstrate.RoundTrip.Estimator
import PeerSubstrate.Concurrency.Machine
import PeerSubstrate.Concurrency.Schedule
import PeerSubstrate.Executor.Serialized
import PeerSubstrate.Executor.WorkItems
import PeerSubstrate.Executor.WorkSession
import PeerSubstrate.Time.Instant
import PeerSubstrate.Executor.TaskCell
import PeerSubstrate.Executor.TaskHandle
import PeerSubstrate.Executor.Immediate
import PeerSubstrate.Executor.Scheduled
import PeerSubstrate.Executor.Pool
import PeerSubstrate.Executor.PoolSession
import PeerSubstrate.Reactor.Poller
import PeerSubstrate.Reactor.Connections
import PeerSubstrate.Reactor.Worker
import PeerSubstrate.Reactor.Endpoint
import PeerSubstrate.Reactor.Session
import PeerSubstrate.Proofs.Text.Numeral
import PeerSubstrate.Proofs.Bencode.Grammar
import PeerSubstrate.Proofs.Bencode.Dictionary
import PeerSubstrate.Proofs.Bencode.Lexeme
import PeerSubstrate.Proofs.Bencode.Decoding
import PeerSubstrate.Proofs.Bencode.Acceptance
import PeerSubstrate.Proofs.Bencode.RoundTrip
import PeerSubstrate.Proofs.Bencode.Capacity
import PeerSubstrate.Proofs.Bencode.PrefixCode
import PeerSubstrate.Proofs.Bencode.Canonical
import PeerSubstrate.Proofs.Bencode.LexicalFaults
import PeerSubstrate.Proofs.Bencode.Faults
import PeerSubstrate.Proofs.Bencode.Extension
import PeerSubstrate.Proofs.Bencode.Containers
import PeerSubstrate.Proofs.Concurrency.Run
import PeerSubstrate.Proofs.Executor.Submission
import PeerSubstrate.Proofs.Executor.Serialization
import PeerSubstrate.Proofs.Executor.PoolThreads
import PeerSubstrate.Proofs.Executor.TaskRecords
import PeerSubstrate.Proofs.Executor.Cancellation
import PeerSubstrate.Proofs.Executor.HandleCalls
import PeerSubstrate.Proofs.Executor.Staffing
import PeerSubstrate.Proofs.Executor.Holdings
import PeerSubstrate.Proofs.Executor.Custody
import PeerSubstrate.Proofs.Executor.Shutdown
import PeerSubstrate.Proofs.Executor.Scripts
import PeerSubstrate.Proofs.Executor.Repetition
import PeerSubstrate.Proofs.Reactor.Turns
import PeerSubstrate.Proofs.Reactor.Election
import PeerSubstrate.Proofs.Reactor.Waking
import PeerSubstrate.Proofs.Executor.Asides
import PeerSubstrate.Proofs.Executor.Backlog
import PeerSubstrate.Proofs.Executor.Growth
import PeerSubstrate.Proofs.Executor.Passage
import PeerSubstrate.Proofs.Executor.QueueOrder
import PeerSubstrate.Proofs.Executor.Whereabouts
import PeerSubstrate.Proofs.Executor.SubmissionOrder
import PeerSubstrate.Proofs.Reactor.Isolation
import PeerSubstrate.Proofs.Reactor.Lifecycle
import PeerSubstrate.Proofs.Reactor.Watching
import PeerSubstrate.Proofs.RoundTrip.Window
import PeerSubstrate.Proofs.RoundTrip.StallTimeout
import PeerSubstrate.Proofs.RoundTrip.Publication
import PeerSubstrate.Proofs.Reactor.Batches
import PeerSubstrate.Proofs.Executor.Lapses
import PeerSubstrate.Proofs.Executor.Hands
import PeerSubstrate.Proofs.Executor.Manning
import PeerSubstrate.Proofs.Bencode.Continuation
import PeerSubstrate.Proofs.RoundTrip.Ranks
import PeerSubstrate.Proofs.RoundTrip.Dominance
import PeerSubstrate.Proofs.RoundTrip.StepResponse
import PeerSubstrate.Proofs.RoundTrip.Reporting
import PeerSubstrate.Proofs.RoundTrip.Probabilities
import PeerSubstrate.Proofs.Bencode.TokenStream
import PeerSubstrate.Proofs.Bencode.Resumption
import PeerSubstrate.Proofs.Executor.Generations
import PeerSubstrate.Proofs.Executor.Charge
import PeerSubstrate.Proofs.Executor.BreadthFirst
import PeerSubstrate.Proofs.Bencode.Splicing
import PeerSubstrate.Proofs.Executor.Bearers
import PeerSubstrate.Proofs.Executor.Marks
import PeerSubstrate.Proofs.Executor.Interruption
import PeerSubstrate.Proofs.Executor.Freight
import PeerSubstrate.Proofs.Executor.Ledger
import PeerSubstrate.Proofs.Executor.GivingUp
import PeerSubstrate.Proofs.Executor.QueuedEntries
import PeerSubstrate.Proofs.Executor.DueOrder
import PeerSubstrate.Proofs.Executor.Cadence
import PeerSubstrate.Proofs.Text.Printable
import PeerSubstrate.Proofs.Bencode.LogLines
import PeerSubstrate.Proofs.Bencode.Literals
import PeerSubstrate.Proofs.Bencode.Iterations
import PeerSubstrate.Proofs.Executor.Departures
import PeerSubstrate.Proofs.Executor.LostTasks
