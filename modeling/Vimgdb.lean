import Vimgdb.Lib.Runs
import Vimgdb.Lib.IntrusiveList
import Vimgdb.Lib.EventQueue
import Vimgdb.Lib.Grouping
import Vimgdb.Lib.Nesting
import Vimgdb.Lib.Program
import Vimgdb.Lib.Maps
import Vimgdb.Lib.Directory
import Vimgdb.Lib.PointerTree
import Vimgdb.Lib.Regex
import Vimgdb.Lib.Scanner
import Vimgdb.Lib.Buffer
import Vimgdb.Lexing.Quoted
import Vimgdb.Common.Strings
import Vimgdb.Common.Split
import Vimgdb.Common.Words
import Vimgdb.Common.Numbers
import Vimgdb.Common.Printf
import Vimgdb.Common.Socket
import Vimgdb.Common.Events
import Vimgdb.Gdb.Issue
import Vimgdb.Gdb.Parser
import Vimgdb.Gdb.Quoting
import Vimgdb.Gdb.Readline
import Vimgdb.Gdb.Response
import Vimgdb.Gdb.Shutdown
import Vimgdb.Gdb.AwaitUpdate
import Vimgdb.Gdb.StopEvents
import Vimgdb.Gdb.Threads
import Vimgdb.Gdb.Variables
import Vimgdb.Gdb.VariableMaps
import Vimgdb.Gdb.VariableDeletions
import Vimgdb.Gdb.VariablePrint
import Vimgdb.Gdb.Callstack
import Vimgdb.Gdb.References
import Vimgdb.Gdb.FrameDeletions
import Vimgdb.Gdb.Writers
import Vimgdb.Gui.Annotation
import Vimgdb.Gui.Parser
import Vimgdb.Gui.Lines
import Vimgdb.Gui.Readline
import Vimgdb.Gui.Receive
import Vimgdb.Gui.Fragments
import Vimgdb.Gui.Action
import Vimgdb.Gui.Atomic
import Vimgdb.Gui.Registry
import Vimgdb.Gui.Print
import Vimgdb.Gui.Shutdown
import Vimgdb.Lexing.Per
import Vimgdb.Lexing.RoundTrip
import Vimgdb.User.Breakpoints
import Vimgdb.User.Session
import Vimgdb.User.PerSet
import Vimgdb.User.PerLoads
import Vimgdb.User.ViewsLive
import Vimgdb.User.Commands
import Vimgdb.Gdb.VariableInvariants
import Vimgdb.Gdb.VariableChanges
import Vimgdb.Gdb.VariableRoots
import Vimgdb.Gdb.VariableFailures
import Vimgdb.Lib.Codes
import Vimgdb.Gdb.CallstackKeys
import Vimgdb.Gdb.CallstackFailures
import Vimgdb.User.CallstackFold
import Vimgdb.Common.Lists
import Vimgdb.Common.DynarrayBuffer
import Vimgdb.User.ViewText
import Vimgdb.User.MemoryShown
import Vimgdb.User.MemorySet
import Vimgdb.User.MemoryAddresses
import Vimgdb.User.PerBits
import Vimgdb.User.PerLines
import Vimgdb.User.Per2h
import Vimgdb.User.Delivery
import Vimgdb.User.PerRefresh
import Vimgdb.Gui.Preserve
import Vimgdb.Gui.Screen
import Vimgdb.Gui.Slots
import Vimgdb.User.Plugin
import Vimgdb.User.Inferior
import Vimgdb.Gdb.Meaning
import Vimgdb.Lib.Board
import Vimgdb.Gui.Quiet
import Vimgdb.Gui.Annotated
import Vimgdb.Gui.Signs
import Vimgdb.User.Signs
import Vimgdb.User.SignRuns
