import Netplay.NegatedPlan
import Netplay.IdBlocks
import Netplay.Cast
import Netplay.ReservedIds
import Netplay.IndexedRecords
import Netplay.MonologLinearizable
import Netplay.HandleBlocks
import Netplay.HandleTurns
import Netplay.DnfPlan
import Netplay.ScanOrder
import Netplay.CharacterHistory
import Netplay.CountAgreement
import Netplay.ClauseMeaning
import Netplay.ReversedRange
import Netplay.LiteralReading
import Netplay.WireOrder
import Netplay.ByteTokens
import Netplay.TokenBucket
import Netplay.IndexRouting
import Netplay.BulkCopies
import Netplay.LinearLog
import Netplay.Extract
import Netplay.PacketReading
import Netplay.Aggregates
import Netplay.LazyTree
import Netplay.ConcurrentIndex
import Netplay.IndexPointers
import Netplay.IndexEntries
import Netplay.KeyedLists
import Netplay.IndexTiers
import Netplay.IndexMap
import Netplay.PointerParser
import Netplay.WriterProgress
import Netplay.BlockAppends
import Netplay.StreamFilters
import Netplay.StreamRegistration
import Netplay.CharacterMeaning
import Netplay.PortAnswers
