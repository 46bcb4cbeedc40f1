import Coursework.Lib.Machine
import Coursework.Lib.Compaction
import Coursework.Nand.View
import Coursework.Sector.Request
import Coursework.PageMap.Banks
import Coursework.PageFtl.Mapping
import Coursework.BufferedFtl.Refinement
import Coursework.BufferedFtl.Tables
import Coursework.BufferedFtl.Collections
import Coursework.Dftl.Preservation
import Coursework.Mmap.History
import Coursework.Mmap.Lazy
import Coursework.Mmap.Release
import Coursework.Mmap.Positions
import Coursework.BigFile.Overrun
import Coursework.BigFile.Agreement
import Coursework.BigFile.Truncate
import Coursework.BigFile.Address
import Coursework.BigFile.Buffers
import Coursework.Lib.BlockTree
import Coursework.Lib.Program
import Coursework.Lib.Ring
import Coursework.Lib.Custody
import Coursework.Swap.Core
import Coursework.Swap.PageTables
import Coursework.Swap.Kalloc
import Coursework.Swap.Vm
import Coursework.Swap.Invariant
import Coursework.Swap.Coverage
import Coursework.Swap.SecondChance
import Coursework.Nand.Contract
import Coursework.Nand.Flags
import Coursework.Cfs.WakeUp
import Coursework.Cfs.Fairness
import Coursework.Seat.Sessions
import Coursework.Seat.Connections
import Coursework.Seat.Framing
import Coursework.Seat.Atomic
import Coursework.Seat.Bounds
import Coursework.Shell.Deadlock
import Coursework.Shell.HeadTail
import Coursework.Shell.CommandLine
import Coursework.Shell.LineSafety
import Coursework.TextSearch.AllWords
import Coursework.TextSearch.Gap
import Coursework.TextSearch.Phrase
import Coursework.TextSearch.Strtok
import Coursework.Swap.RingShape
import Coursework.Lexer.Lossless
import Coursework.Blackjack.Conservation
import Coursework.Asm.GcdLcm
import Coursework.Asm.Fibo
import Coursework.Zns.ReadBack
import Coursework.Zns.Source
import Coursework.Zns.Merged
import Coursework.SoftFloat.Exact
import Coursework.SoftFloat.Singles
import Coursework.SoftFloat.Padding
import Coursework.SortSearch.BinarySearch
import Coursework.Dftl.Scores
import Coursework.VirusSpread.Search
import Coursework.Journal.Reservation
import Coursework.Streams.Pipe
import Coursework.Streams.Console
import Coursework.Malloc.Programs
import Coursework.Cache.Bcache
