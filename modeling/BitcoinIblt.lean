import BitcoinIblt.Difference
import BitcoinIblt.Session
import BitcoinIblt.Exactness
import BitcoinIblt.BlockComparison
import BitcoinIblt.PeelHistory
import BitcoinIblt.Assembly
import BitcoinIblt.BitsetCodec
import BitcoinIblt.WireMessage
import BitcoinIblt.SelectionHeuristic
import BitcoinIblt.FeeRate
import BitcoinIblt.FeeEstimate
import BitcoinIblt.CandidateSet
import BitcoinIblt.TextPipeline
import BitcoinIblt.IbltLine
import BitcoinIblt.BitsetPointers
import BitcoinIblt.PoolLookup
import BitcoinIblt.SliceCount
import BitcoinIblt.Spelling
import BitcoinIblt.Rebuild
import BitcoinIblt.AssemblySound
import BitcoinIblt.AcceptedLine
import BitcoinIblt.VarintCodec
import BitcoinIblt.BestSlice
import BitcoinIblt.TodoCheck
import BitcoinIblt.DynamicBuckets
import BitcoinIblt.FeeScan
import BitcoinIblt.MonteCarlo
import BitcoinIblt.BitsetResend
import BitcoinIblt.MixedDifference
import BitcoinIblt.RecoverOrder
import BitcoinIblt.Lib.Binary64
import BitcoinIblt.BucketTable
import BitcoinIblt.Filters
import BitcoinIblt.EncodeDecode
import BitcoinIblt.SelectionFilter
import BitcoinIblt.GroupCheck
import BitcoinIblt.DecodeBlock
import BitcoinIblt.FullProtocol
import BitcoinIblt.Lib.Bisect
import BitcoinIblt.MinDecode
import BitcoinIblt.Corpus
import BitcoinIblt.IbltTest
import BitcoinIblt.Lib.BlockHash
import BitcoinIblt.Lib.Sha2
import BitcoinIblt.Sha256
import BitcoinIblt.Sha256Stream
import BitcoinIblt.Lib.WordMixing
import BitcoinIblt.Murmur
import BitcoinIblt.SourceHashes
