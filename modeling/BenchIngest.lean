import BenchIngest.PyText
import BenchIngest.PyNumber
import BenchIngest.PyDict
import BenchIngest.CsvReader
import BenchIngest.CsvFile
import BenchIngest.RowReconstruction
import BenchIngest.MulticoreReadBack
import BenchIngest.PerCoreDecoder
import BenchIngest.HistogramFormat
import BenchIngest.CompletionBuckets
import BenchIngest.CompletionShares
import BenchIngest.Phase1Charts
import BenchIngest.GroupMean
import BenchIngest.LatencyHistograms
import BenchIngest.BdevLoad
import BenchIngest.SsdProfile
