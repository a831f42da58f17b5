import NamespaceIndexer.Ledger.Agreement
import NamespaceIndexer.Ledger.Erase
import NamespaceIndexer.Ledger.Theft
import NamespaceIndexer.Ledger.Commits
import NamespaceIndexer.Ledger.Commute
import NamespaceIndexer.Ledger.Preimage
import NamespaceIndexer.Ledger.Waterfill
import NamespaceIndexer.Ledger.Payments
import NamespaceIndexer.Ledger.Contest
import NamespaceIndexer.Ledger.Preblock
import NamespaceIndexer.Ledger.Selection
import NamespaceIndexer.Fold.Digest
import NamespaceIndexer.Fold.Registry
import NamespaceIndexer.Daemon.Attribution
import NamespaceIndexer.Daemon.Binding
import NamespaceIndexer.Daemon.Crash
import NamespaceIndexer.Daemon.Parsers
import NamespaceIndexer.Daemon.Refusal
import NamespaceIndexer.Daemon.Wallet
import NamespaceIndexer.Daemon.Inventory
import NamespaceIndexer.Daemon.Weighing
import NamespaceIndexer.Daemon.StageReorg
import NamespaceIndexer.Daemon.Reuse
import NamespaceIndexer.Daemon.Mtp
import NamespaceIndexer.Daemon.MempoolRuns
import NamespaceIndexer.Curve.Shim
import NamespaceIndexer.Daemon.FeeRate
import NamespaceIndexer.Daemon.Der
import NamespaceIndexer.Daemon.Carrier
import NamespaceIndexer.Daemon.Spans
import NamespaceIndexer.Daemon.Signer
import NamespaceIndexer.Curve.Exact
import NamespaceIndexer.Daemon.Multisig
import NamespaceIndexer.Daemon.OpReturn
import NamespaceIndexer.Daemon.Deletion
import NamespaceIndexer.Daemon.Commitment
import NamespaceIndexer.Daemon.Framing
import NamespaceIndexer.Daemon.Retarget
import NamespaceIndexer.Daemon.Work
import NamespaceIndexer.Ledger.LeasePorts
import NamespaceIndexer.Daemon.Chronicle
import NamespaceIndexer.Curve.Group
import NamespaceIndexer.Daemon.AttribCurve
import NamespaceIndexer.Daemon.Base58
import NamespaceIndexer.Go.Agree
import NamespaceIndexer.Hash.Derive
import NamespaceIndexer.Ts.Agree
import NamespaceIndexer.Daemon.Gossip
import NamespaceIndexer.Daemon.Bans
import NamespaceIndexer.Ledger.Supply
import NamespaceIndexer.Daemon.CatchUp
import NamespaceIndexer.Daemon.SocketFollow
