import QuicFuscate.Core.Proofs.AppConfig
import QuicFuscate.Core.Proofs.HandOver
import QuicFuscate.Core.Proofs.Migration
import QuicFuscate.Core.Proofs.PacketIds
import QuicFuscate.Core.Proofs.Server
import QuicFuscate.Core.Proofs.Statistics
import QuicFuscate.Fec.Proofs.Carryless16
import QuicFuscate.Fec.Proofs.ClosedLoop
import QuicFuscate.Fec.Proofs.Control
import QuicFuscate.Fec.Proofs.CrossFade
import QuicFuscate.Fec.Proofs.Delivery
import QuicFuscate.Fec.Proofs.DenseRows
import QuicFuscate.Fec.Proofs.Drift
import QuicFuscate.Fec.Proofs.Duplicates
import QuicFuscate.Fec.Proofs.Kernels
import QuicFuscate.Fec.Proofs.LossEstimate
import QuicFuscate.Fec.Proofs.Malformed
import QuicFuscate.Fec.Proofs.Massey
import QuicFuscate.Fec.Proofs.OneWindow
import QuicFuscate.Fec.Proofs.PooledPacket
import QuicFuscate.Fec.Proofs.Protection
import QuicFuscate.Fec.Proofs.Recovery
import QuicFuscate.Fec.Proofs.Recovery16
import QuicFuscate.Fec.Proofs.RecursiveInverse
import QuicFuscate.Fec.Proofs.Refusal
import QuicFuscate.Fec.Proofs.SendSafety
import QuicFuscate.Fec.Proofs.Solvers
import QuicFuscate.Optimize.Proofs.Concurrent
import QuicFuscate.Optimize.Proofs.Shrinking
import QuicFuscate.Optimize.Proofs.Utilization
import QuicFuscate.Core.Proofs.Client
import QuicFuscate.Core.Proofs.StaleBuffer
import QuicFuscate.Stealth.Proofs.Manager
import QuicFuscate.Stealth.Proofs.Eavesdropper
import QuicFuscate.Stealth.Proofs.FakeTls
import QuicFuscate.Stealth.Proofs.SameManager
import QuicFuscate.Stealth.Proofs.TwoWay
import QuicFuscate.Core.Proofs.WireStream
import QuicFuscate.Core.Proofs.XdpFrames
import QuicFuscate.Stealth.Proofs.TlsFfi
