import Erigon.AccountHashing
import Erigon.AggregationBits
import Erigon.BpsTree
import Erigon.BranchCells
import Erigon.CommitmentHashSort
import Erigon.DoubleRlp
import Erigon.EliasFanoBytes
import Erigon.ExitChurn
import Erigon.FailingStreams
import Erigon.FakeExponential
import Erigon.HeadCache
import Erigon.HistoryMerge
import Erigon.HistoryRangeRead
import Erigon.IndexPrune
import Erigon.IndexRangeRead
import Erigon.IntraBlockObserve
import Erigon.IntraBlockRestore
import Erigon.JumpDest
import Erigon.Justification
import Erigon.LatestFileCache
import Erigon.LatestMessages
import Erigon.MemoryMutationDup
import Erigon.MemoryMutationMap
import Erigon.MultiEncSeqRead
import Erigon.OptimisticStore
import Erigon.PrefixLatest
import Erigon.Rabbits
import Erigon.SeekInFilesCache
import Erigon.ShortenedKeys
import Erigon.SpanRangeIndex
import Erigon.TxDependencies
import Erigon.TxNums
import Erigon.ValidatorChanges
import Erigon.VersionMapRead
import Erigon.VisibleFiles
