import Nanolibc.EfiTimeCorrect
import Nanolibc.MallocFailures
import Nanolibc.MallocInvariant
import Nanolibc.StringAliasing
import Nanolibc.StringOrder
import Nanolibc.StrstrCorrect
import Nanolibc.UniquePtrOwnership
import Nanolibc.EfiPciResources
import Nanolibc.StrtokCorrect
import Nanolibc.StrtoxCorrect
import Nanolibc.UnorderedMapRefinement
import Nanolibc.VectorRefinement
import Nanolibc.VectorInsert
import Nanolibc.VectorOwnership
import Nanolibc.VectorGrowth
import Nanolibc.UnorderedMapAliasing
import Nanolibc.UnorderedMapMove
import Nanolibc.StdioFormat
import Nanolibc.StdioWrite
import Nanolibc.EfiConsoleOutput
import Nanolibc.StringHash
import Nanolibc.StringNumerals
import Nanolibc.StringRelations
import Nanolibc.CStringCase
import Nanolibc.CStringSearch
import Nanolibc.Strndup
import Nanolibc.ReallocRuns
import Nanolibc.EfiArgv
import Nanolibc.EfiPciRanges
import Nanolibc.EfiPciLocators
import Nanolibc.PciPolling
import Nanolibc.LinuxPciResources
import Nanolibc.NativeSleep
import Nanolibc.StdioOutput
import Nanolibc.EfiOutput
import Nanolibc.ClientRuns
import Nanolibc.LinuxPciBars
import Nanolibc.StringCopies
import Nanolibc.LinuxPciRegisters
import Nanolibc.EfiPciRegisters
import Nanolibc.HeapRefinement
import Nanolibc.TimeCalls
