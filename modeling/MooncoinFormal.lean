import MooncoinFormal.Mweb.MmrIndex
import MooncoinFormal.Validation.Supply
import MooncoinFormal.Validation.HogExChain
import MooncoinFormal.Validation.StoredBody
import MooncoinFormal.Coins.UndoBytes
import MooncoinFormal.Pow.NoRetargeting
import MooncoinFormal.Coins.CacheStack
import MooncoinFormal.Mweb.MmrStack
import MooncoinFormal.Mweb.Miner
import MooncoinFormal.Validation.IndexRuns
import MooncoinFormal.Consensus.Merkle
import MooncoinFormal.Mweb.KernelBytes
import MooncoinFormal.Rpc.AmountValue
import MooncoinFormal.Pow.RetargetBand
import MooncoinFormal.Pow.Stall
import MooncoinFormal.Pow.WellRange
import MooncoinFormal.Validation.ArbitraryChain
import MooncoinFormal.Validation.LockPoints
import MooncoinFormal.Script.SoftFork
import MooncoinFormal.Mempool.StatisticsRuns
import MooncoinFormal.Policy.Standard
import MooncoinFormal.Validation.Locator
import MooncoinFormal.Wallet.Credit
import MooncoinFormal.Wallet.Sweep
import MooncoinFormal.Util.RollingBloom
import MooncoinFormal.Net.CompactBlock
import MooncoinFormal.Policy.FeeRate
