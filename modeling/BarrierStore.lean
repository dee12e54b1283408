import BarrierStore.Main
import BarrierStore.Proofs.Config.Settings
import BarrierStore.Proofs.Engine.AddressSpace
import BarrierStore.Proofs.Engine.Durability
import BarrierStore.Proofs.Engine.Mismatch
import BarrierStore.Proofs.Engine.Obstruction
import BarrierStore.Proofs.Engine.Refinement
import BarrierStore.Proofs.Engine.Replacement
import BarrierStore.Proofs.Engine.Restart
import BarrierStore.Proofs.Index.Barriers
import BarrierStore.Proofs.Index.Cuts
import BarrierStore.Proofs.Index.Line
import BarrierStore.Proofs.Segment.Maximal
import BarrierStore.Proofs.Service.Acknowledgement
import BarrierStore.Proofs.Service.Conservation
import BarrierStore.Proofs.Service.Correlation
import BarrierStore.Proofs.Service.Transparency
import BarrierStore.Proofs.ValueLog.Contract
import BarrierStore.Proofs.ValueLog.Damage
import BarrierStore.Proofs.ValueLog.Dangling
import BarrierStore.Proofs.ValueLog.Idempotence
import BarrierStore.Proofs.ValueLog.Interleaving
import BarrierStore.Proofs.ValueLog.Persisted
import BarrierStore.Proofs.ValueLog.Representation
import BarrierStore.Proofs.ValueLog.Retrying
import BarrierStore.Proofs.ValueLog.WriteOrder
import BarrierStore.Proofs.Wire.Boundaries
import BarrierStore.Proofs.Wire.Oversize
import BarrierStore.Proofs.Wire.Request
import BarrierStore.Server
