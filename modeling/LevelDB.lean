import LevelDB.Arena
import LevelDB.Bloom
import LevelDB.CustomComparatorReads
import LevelDB.FreshNumbers
import LevelDB.Inputs
import LevelDB.InvertedRanges
import LevelDB.LogFailure
import LevelDB.LogReuse
import LevelDB.LogSound
import LevelDB.MemTableBytes
import LevelDB.PosixFile
import LevelDB.Reads
import LevelDB.RepairReads
import LevelDB.ReverseIteration
import LevelDB.TableCache
import LevelDB.TableGet
import LevelDB.UntrustedBlock
import LevelDB.UntrustedHandle
