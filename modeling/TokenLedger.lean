import TokenLedger.Json.Parser
import TokenLedger.Main
import TokenLedger.Proofs.CallerOnly
import TokenLedger.Proofs.Checksum
import TokenLedger.Proofs.Conservation
import TokenLedger.Proofs.LifeCycle
import TokenLedger.Proofs.Wealth
import TokenLedger.Proofs.Admission
import TokenLedger.Proofs.Replay
import TokenLedger.Proofs.Batches
import TokenLedger.Proofs.Outages
import TokenLedger.Proofs.Identifiers
import TokenLedger.Proofs.OneState
import TokenLedger.Proofs.Sessions
import TokenLedger.Proofs.CanonicalText
import TokenLedger.Proofs.ExactUtf8
import TokenLedger.Proofs.ExactForm
import TokenLedger.Proofs.SnapshotHash
import TokenLedger.Proofs.Commuting
import TokenLedger.Proofs.Reached
import TokenLedger.Proofs.GateRoots
import TokenLedger.Proofs.Messages
import TokenLedger.Proofs.Naming
import TokenLedger.Proofs.Commands
import TokenLedger.Proofs.Literals
import TokenLedger.Proofs.Typos
import TokenLedger.Proofs.Buffers
import TokenLedger.Proofs.Refilling
import TokenLedger.Proofs.SeedCycles
