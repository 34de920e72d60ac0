import ChainAnchor.Key.Extended
import ChainAnchor.Main
import ChainAnchor.Memory.PageLock
import ChainAnchor.Memory.Secret
import ChainAnchor.Number.Compact
import ChainAnchor.Number.Prime
import ChainAnchor.Number.Radix
import ChainAnchor.Proofs.BlockTree.Ages
import ChainAnchor.Proofs.BlockTree.Ancestry
import ChainAnchor.Proofs.BlockTree.Descent
import ChainAnchor.Proofs.BlockTree.History
import ChainAnchor.Proofs.BlockTree.Judgement
import ChainAnchor.Proofs.BlockTree.Overtaking
import ChainAnchor.Proofs.BlockTree.Reachable
import ChainAnchor.Proofs.BlockTree.Relinking
import ChainAnchor.Proofs.BlockTree.Rooted
import ChainAnchor.Proofs.BlockTree.Selection
import ChainAnchor.Proofs.BlockTree.Size
import ChainAnchor.Proofs.BlockTree.Waiting
import ChainAnchor.Proofs.Bytes
import ChainAnchor.Proofs.Bytes.Hex
import ChainAnchor.Proofs.Bytes.Readers
import ChainAnchor.Proofs.Checkpoint.Genuine
import ChainAnchor.Proofs.Codec.Restores
import ChainAnchor.Proofs.Codec.Storage
import ChainAnchor.Proofs.Codec.Wire
import ChainAnchor.Proofs.Curve.Encoding
import ChainAnchor.Proofs.Curve.Field
import ChainAnchor.Proofs.Curve.Group
import ChainAnchor.Proofs.Curve.Jacobian
import ChainAnchor.Proofs.Ecdsa.Der
import ChainAnchor.Proofs.Ecdsa.Nonce
import ChainAnchor.Proofs.Ecdsa.Recovery
import ChainAnchor.Proofs.Ecdsa.Signature
import ChainAnchor.Proofs.Key.Derivation
import ChainAnchor.Proofs.Key.Encoding
import ChainAnchor.Proofs.Key.Integrity
import ChainAnchor.Proofs.Key.Malleability
import ChainAnchor.Proofs.Key.Recovery
import ChainAnchor.Proofs.Key.Signing
import ChainAnchor.Proofs.Memory.PageLock
import ChainAnchor.Proofs.Network
import ChainAnchor.Proofs.Node.Answering
import ChainAnchor.Proofs.Node.Arrivals
import ChainAnchor.Proofs.Node.Authenticity
import ChainAnchor.Proofs.Node.Conflict
import ChainAnchor.Proofs.Node.Deferral
import ChainAnchor.Proofs.Node.Delivery
import ChainAnchor.Proofs.Node.Durability
import ChainAnchor.Proofs.Node.Freshness
import ChainAnchor.Proofs.Node.Growth
import ChainAnchor.Proofs.Node.Hardened
import ChainAnchor.Proofs.Node.Issuing
import ChainAnchor.Proofs.Node.MainChain
import ChainAnchor.Proofs.Node.Outcome
import ChainAnchor.Proofs.Node.Permission
import ChainAnchor.Proofs.Node.Progress
import ChainAnchor.Proofs.Node.Relaying
import ChainAnchor.Proofs.Node.Reliable
import ChainAnchor.Proofs.Node.Reorganization
import ChainAnchor.Proofs.Node.Requesting
import ChainAnchor.Proofs.Node.Reset
import ChainAnchor.Proofs.Node.Restart
import ChainAnchor.Proofs.Node.Rotation
import ChainAnchor.Proofs.Node.Run
import ChainAnchor.Proofs.Node.Validation
import ChainAnchor.Proofs.Number.Bytes
import ChainAnchor.Proofs.Number.Compact
import ChainAnchor.Proofs.Number.Mpi
import ChainAnchor.Proofs.Number.Ordering
import ChainAnchor.Proofs.Number.Primality
import ChainAnchor.Proofs.Number.PrimeSearch
import ChainAnchor.Proofs.Number.ProbablePrime
import ChainAnchor.Proofs.Number.Radix
import ChainAnchor.Proofs.Number.Residue
import ChainAnchor.Proofs.Store.Transaction
