import AgentTx.Lib.Sha256
import AgentTx.Dtx.Charge
import AgentTx.Dtx.Durable
import AgentTx.Dtx.Overlay
import AgentTx.Dtx.SourceOfTruth
import AgentTx.Identity
import AgentTx.Kv.Restore
import AgentTx.Lib.Prog.RelyGuarantee
import AgentTx.Lib.Json.Loads
import AgentTx.Lib.Lts
import AgentTx.Stream.ExactlyOnce
import AgentTx.Gateway.Protocol
import AgentTx.Gateway.Contract
import AgentTx.Gateway.Turn
import AgentTx.Gateway.Alone
import AgentTx.Gateway.Observation
import AgentTx.Gateway.ExactlyOnce
import AgentTx.Gateway.Calls
import AgentTx.Gateway.Irreversible
import AgentTx.Gateway.Saga
import AgentTx.Gateway.WalForm
import AgentTx.Gateway.Taxonomy
import AgentTx.Recovery.Protocol
import AgentTx.Recovery.Independence
import AgentTx.Recovery.Binding
import AgentTx.Checker.Distributed
import AgentTx.Checker.Turn
import AgentTx.Dtx.Fence
import AgentTx.Dtx.Coverage
import AgentTx.Dtx.Transparent
import AgentTx.Position
import AgentTx.Kv.CasTier
import AgentTx.Kv.Served
import AgentTx.Checker.Impossibility
import AgentTx.Stream.Immutable
import AgentTx.Kv.RoundTrip
import AgentTx.Kv.Publish
import AgentTx.Dtx.Interrupt
import AgentTx.Dtx.Content
import AgentTx.Dtx.Classes
import AgentTx.Lib.Json.Order
import AgentTx.Dtx.Reload
import AgentTx.Gateway.ContentCheck
import AgentTx.Core.ExactlyOnce
import AgentTx.Stream.Memory
import AgentTx.Checker.Retryable
import AgentTx.Dtx.TurnCommit
import AgentTx.Checker.Exhaustive
import AgentTx.Checker.Cutoff
import AgentTx.Dtx.Sweep
import AgentTx.Stack.Trials
import AgentTx.Dtx.TurnLog
import AgentTx.Dtx.Gate
import AgentTx.Gate1.Anywhere
import AgentTx.Gate1.Audit
import AgentTx.Stream.Audit
import AgentTx.Stream.Gate
