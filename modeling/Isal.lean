import Isal.OutputOverflow
import Isal.LengthSymbols
import Isal.HistogramCodes
import Isal.GzipParsing
import Isal.InflateStream
import Isal.HeaderVerdict
import Isal.RaidRecovery
import Isal.CrcBase
import Isal.LitLenRuns
import Isal.DistTableSize
import Isal.LitLenTableSize
import Isal.VectorDispatch
import Isal.BitBudget
import Isal.Adler32
import Isal.GzipRoundTrip
import Isal.RepeatedCharBlock
import Isal.StatelessSizes
import Isal.MatchMapTruth
import Isal.StreamVerdicts
import Isal.TrailerSessions
import Isal.OneShotRoundTrip
