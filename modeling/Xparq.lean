import Xparq.Ledger.Snapshot
import Xparq.Consensus.Header
import Xparq.Consensus.DifficultyPaths
import Xparq.Consensus.Reorg
import Xparq.Blockchain.Binding
import Xparq.Node.HeaderSession
import Xparq.Ledger.AssetView
import Xparq.Ledger.AssetLookups
import Xparq.Ledger.SupplyForks
import Xparq.Ledger.Issuance
import Xparq.Ledger.Origins
import Xparq.Ledger.Executors
import Xparq.Program.Observed
import Xparq.Blockchain.Inclusion
import Xparq.Consensus.DifficultyWindow
import Xparq.Consensus.WorkLimbs
import Xparq.Node.Locator
import Xparq.Node.Checkpoints
import Xparq.Ledger.RegistryRuns
import Xparq.Ledger.AssetPages
import Xparq.StateMap.Map
import Xparq.Node.Mempool
import Xparq.Ledger.UtxoRuns
import Xparq.Node.Admission
import Xparq.Ledger.RootForks
import Xparq.Node.Peers
import Xparq.Node.Receipts
import Xparq.Devkit.Layout
import Xparq.Node.SnapshotRestore
import Xparq.Node.StoredIndexes
import Xparq.Wallet.Spend
import Xparq.Wallet.ExactBurn
