import GoQrl.Trie.RangeComplete
import GoQrl.State.Snapshot
import GoQrl.Trie.Iterator
import GoQrl.Types.Signing
import GoQrl.PathDb.Tries
import GoQrl.Snapshot.Iterate
import GoQrl.Snapshot.Refine
import GoQrl.ForkId
import GoQrl.Freezer.Recovery
import GoQrl.Chain.Finality
import GoQrl.Rlp.Accounting
import GoQrl.Rlp.Slices
import GoQrl.Rlp.Reader
import GoQrl.BitUtil
import GoQrl.Vm.Analysis
import GoQrl.HashRange
import GoQrl.Chain.GetHash
import GoQrl.BaseFee
import GoQrl.Prque
