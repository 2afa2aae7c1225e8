import LightweightOs.Library.Transition
import LightweightOs.Library.Chain
import LightweightOs.Library.BitField
import LightweightOs.Library.Sessions
import LightweightOs.Library.Cursor
import LightweightOs.Library.Multiples
import LightweightOs.Library.Terminated
import LightweightOs.Library.DownStack
import LightweightOs.Library.Strings
import LightweightOs.Library.Fuel
import LightweightOs.Library.Blocks
import LightweightOs.Library.StringInstructions
import LightweightOs.Library.Positional
import LightweightOs.Library.PageWalk
import LightweightOs.Library.InterruptController
import LightweightOs.Words
import LightweightOs.Itoa
import LightweightOs.Numerals
import LightweightOs.MemoryLoops
import LightweightOs.Memmove
import LightweightOs.Printf
import LightweightOs.FileSystem
import LightweightOs.Paging
import LightweightOs.Console
import LightweightOs.Screen
import LightweightOs.Keyboard
import LightweightOs.Rtc
import LightweightOs.Process
import LightweightOs.Kernel
import LightweightOs.Execute
import LightweightOs.Halt
import LightweightOs.Vidmap
import LightweightOs.UserStores
import LightweightOs.Pit
import LightweightOs.KeyboardInterrupt
import LightweightOs.LineShape
import LightweightOs.KeyboardRows
import LightweightOs.Representation
import LightweightOs.Preservation
import LightweightOs.Simulation
import LightweightOs.System
import LightweightOs.Accounting
import LightweightOs.ProcessTree
import LightweightOs.SavedFrames
import LightweightOs.AddressSpace
import LightweightOs.RtcDivisor
import LightweightOs.Clock
import LightweightOs.RtcRate
import LightweightOs.RtcWrite
import LightweightOs.VideoMapping
import LightweightOs.VidmapPointer
import LightweightOs.PagingEntries
import LightweightOs.KeyboardBounds
import LightweightOs.TerminalIsolation
import LightweightOs.PendingLine
import LightweightOs.TerminalRead
import LightweightOs.BlockedReaders
import LightweightOs.FileCalls
import LightweightOs.Lifetimes
import LightweightOs.Programs
import LightweightOs.DescriptorTable
import LightweightOs.NewProcess
import LightweightOs.FileStreams
import LightweightOs.ReadData
import LightweightOs.Directory
import LightweightOs.FreshDescriptor
import LightweightOs.Arguments
import LightweightOs.CommandParsing
import LightweightOs.Executables
import LightweightOs.ImageLoading
import LightweightOs.FailedExecute
import LightweightOs.PointerStores
import LightweightOs.PutcCalls
import LightweightOs.ReferenceTerminal
import LightweightOs.CursorBounds
import LightweightOs.HardwareCursor
import LightweightOs.Entry
import LightweightOs.InterruptedProcess
import LightweightOs.EditingView
import LightweightOs.LineEditing
import LightweightOs.KeyEffects
import LightweightOs.TabErase
import LightweightOs.TypedText
import LightweightOs.DeliveredLine
import LightweightOs.EraseTyped
import LightweightOs.Exceptions
import LightweightOs.ExitStatus
import LightweightOs.Linkage
import LightweightOs.LinkageView
import LightweightOs.SystemCalls
import LightweightOs.LibraryCalls
import LightweightOs.PageTableOps
import LightweightOs.AddressTranslation
import LightweightOs.MemoryIsolation
import LightweightOs.I8259
import LightweightOs.InterruptTable
import LightweightOs.InterruptLinkage
import LightweightOs.Preemption
import LightweightOs.InterruptService
