import AgentUE.Conformance.Sse
import AgentUE.Conformance.Appends
import AgentUE.Conformance.Atomicity
import AgentUE.Conformance.Identity
import AgentUE.Conformance.MaskedSets
import AgentUE.Conformance.Commuting
import AgentUE.Conformance.Reducers
import AgentUE.Conformance.ValidRuns
import AgentUE.Go.Framing
import AgentUE.Go.Reassembly
import AgentUE.GoRunner.Numbers
import AgentUE.GoRunner.Resume
import AgentUE.Conformance.Addressed
import AgentUE.PythonRunner.Live
import AgentUE.PythonRunner.Lifecycle
import AgentUE.PythonRunner.Snapshot
import AgentUE.PythonRunner.Grammar
import AgentUE.PythonRunner.Crash
import AgentUE.PythonRunner.Pings
import AgentUE.PythonRunner.WatchedEnds
import AgentUE.PythonRunner.Lifetimes
import AgentUE.PythonRunner.Shared
import AgentUE.PythonRunner.Heartbeat
import AgentUE.Go.Codec
import AgentUE.Go.Panics
import AgentUE.PythonRunner.ScanFaults
import AgentUE.Python.Emitter
import AgentUE.TypeScript.RoundTrip
import AgentUE.TypeScript.Emitter
import AgentUE.GoRunner.Producer
import AgentUE.GoRunner.Expiry
import AgentUE.GoRunner.Reconnect
import AgentUE.GoRunner.Progress
import AgentUE.Conformance.Wire
import AgentUE.Conformance.Schemas
