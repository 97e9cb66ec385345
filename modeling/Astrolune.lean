import Astrolune.Consensus.Agreement
import Astrolune.Consensus.Collector
import Astrolune.Consensus.Draw
import Astrolune.Consensus.LightClient
import Astrolune.Consensus.Produced
import Astrolune.Consensus.Unordered
import Astrolune.Consensus.Weights
import Astrolune.Contract.Confusable
import Astrolune.Execution.Fold
import Astrolune.Execution.Ledger
import Astrolune.Execution.Progress
import Astrolune.Keystore.Reopen
import Astrolune.Network.Compact
import Astrolune.Network.Reconstruct
import Astrolune.Node.Admission
import Astrolune.Node.Evidence
import Astrolune.Rpc.Json
import Astrolune.Rpc.Server
import Astrolune.State.Seals
import Astrolune.Storage.Body
import Astrolune.Storage.Exact
import Astrolune.Transaction.Formats
import Astrolune.Trocto.Fuel
import Astrolune.Trocto.Isolation
