import JobGateway.Delegate.Meter
import JobGateway.Delegate.Script
import JobGateway.Delegate.Stub
import JobGateway.Executor.Crew
import JobGateway.Executor.GatedPool
import JobGateway.Executor.MeteredPool
import JobGateway.Executor.StagedPool
import JobGateway.Executor.Team
import JobGateway.Main
import JobGateway.Proofs.CommandLine.Launch
import JobGateway.Proofs.Delegate.ClientAnswer
import JobGateway.Proofs.Delegate.ClientCall
import JobGateway.Proofs.Delegate.Configuration
import JobGateway.Proofs.Delegate.History
import JobGateway.Proofs.Delegate.Independence
import JobGateway.Proofs.Delegate.Listing
import JobGateway.Proofs.Delegate.NormalForm
import JobGateway.Proofs.Executor.Answers
import JobGateway.Proofs.Executor.Capacity
import JobGateway.Proofs.Executor.Crew
import JobGateway.Proofs.Executor.Exchange
import JobGateway.Proofs.Executor.Isolation
import JobGateway.Proofs.Executor.MeteredPool
import JobGateway.Proofs.Executor.Order
import JobGateway.Proofs.Executor.PoolRun
import JobGateway.Proofs.Executor.Resolution
import JobGateway.Proofs.Executor.Rest
import JobGateway.Proofs.Executor.Results
import JobGateway.Proofs.Executor.Sequential
import JobGateway.Proofs.Executor.Shares
import JobGateway.Proofs.Executor.Staff
import JobGateway.Proofs.Executor.Staged
import JobGateway.Proofs.Executor.Team
import JobGateway.Proofs.Executor.Transparency
import JobGateway.Proofs.Executor.Turns
import JobGateway.Proofs.Job.Content
import JobGateway.Proofs.Job.Key
import JobGateway.Proofs.Job.Members
import JobGateway.Proofs.Job.Spec
import JobGateway.Proofs.Job.Wire
import JobGateway.Proofs.Json.Arrangement
import JobGateway.Proofs.Json.Decoding
import JobGateway.Proofs.Json.Denotation
import JobGateway.Proofs.Json.Dissection
import JobGateway.Proofs.Json.Extent
import JobGateway.Proofs.Json.Front
import JobGateway.Proofs.Json.Grammar
import JobGateway.Proofs.Json.Outline
import JobGateway.Proofs.Json.Printing
import JobGateway.Proofs.Json.Reading
import JobGateway.Proofs.Json.Skipping
import JobGateway.Proofs.Json.Slots
import JobGateway.Proofs.Json.Soundness
import JobGateway.Proofs.Json.Spelling
import JobGateway.Proofs.Json.Stability
import JobGateway.Proofs.Json.Values
import JobGateway.Proofs.Json.WholeNumber
import JobGateway.Proofs.Json.Yields
import JobGateway.Proofs.Text.Blank
import JobGateway.Proofs.Text.Junk
import JobGateway.Proofs.Text.Lossy
import JobGateway.Proofs.Text.Map
import JobGateway.Proofs.Text.Split
import JobGateway.Proofs.Text.Utf8
import JobGateway.Proofs.Uuid
import JobGateway.Proofs.Worker.Content
import JobGateway.Proofs.Worker.Framing
import JobGateway.Proofs.Worker.Identifier
import JobGateway.Proofs.Worker.Loop
import JobGateway.Proofs.Worker.Message
import JobGateway.Proofs.Worker.Process
import JobGateway.Proofs.Worker.Serve
import JobGateway.Proofs.Delegate.KeyTable
import JobGateway.Proofs.Executor.Quarantine
import JobGateway.Proofs.Http.Envelope
import JobGateway.Proofs.Http.Path
import JobGateway.Proofs.Http.Route
import JobGateway.Proofs.Http.Routing
import JobGateway.Proofs.Http.Spelling
import JobGateway.Proofs.Http.Arguments
