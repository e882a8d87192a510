import JosKernel.Lib.Interval
import JosKernel.Lib.Result
import JosKernel.Lib.Bytes
import JosKernel.Lib.Memory
import JosKernel.Lib.Move
import JosKernel.Lib.Patch
import JosKernel.Lib.Ring
import JosKernel.Lib.Run
import JosKernel.Lib.Emit
import JosKernel.Lib.Digits
import JosKernel.Lib.Positional
import JosKernel.Lib.StringOp
import JosKernel.Lib.Linked
import JosKernel.Lib.Tokens
import JosKernel.Lib.Latch
import JosKernel.Lib.Registers
import JosKernel.Lib.Interleave
import JosKernel.Lib.Paging
import JosKernel.Lib.Layout
import JosKernel.Kdebug.Stab
import JosKernel.Kdebug.Search
import JosKernel.Kdebug.Reads
import JosKernel.Kdebug.Bracket
import JosKernel.Kdebug.Containing
import JosKernel.Kdebug.NotContained
import JosKernel.Kdebug.Settles
import JosKernel.Kdebug.Eip
import JosKernel.Kdebug.Strings
import JosKernel.Kdebug.RulesOut
import JosKernel.Kdebug.Line
import JosKernel.Kdebug.LineNumber
import JosKernel.Kdebug.Safety
import JosKernel.Kdebug.Names
import JosKernel.Kdebug.Params
import JosKernel.Boot.Main
import JosKernel.Boot.Readseg
import JosKernel.Boot.Load
import JosKernel.Boot.Segment
import JosKernel.Boot.Drive
import JosKernel.Console.Input
import JosKernel.Console.Queue
import JosKernel.Console.Fifo
import JosKernel.Console.Keyboard
import JosKernel.Console.Extended
import JosKernel.Console.Output
import JosKernel.Console.Init
import JosKernel.Console.Ports
import JosKernel.Console.Tape
import JosKernel.Console.Display
import JosKernel.Console.Devices
import JosKernel.Console.Poll
import JosKernel.Console.Delivery
import JosKernel.Console.Typing
import JosKernel.Printf.Format
import JosKernel.Printf.Output
import JosKernel.Printf.Scan
import JosKernel.Printf.Verbatim
import JosKernel.Printf.Snprintf
import JosKernel.Printf.Escape
import JosKernel.Printf.Numeral
import JosKernel.Printf.Padding
import JosKernel.Printf.Text
import JosKernel.Printf.Literal
import JosKernel.Printf.Bounded
import JosKernel.Printf.ErrorText
import JosKernel.Printf.Cprintf
import JosKernel.Strings.Strtol
import JosKernel.Strings.RoundTrip
import JosKernel.Strings.EndPtr
import JosKernel.Strings.Compare
import JosKernel.Strings.Memmove
import JosKernel.Strings.Memset
import JosKernel.Console.Readline
import JosKernel.Console.Edit
import JosKernel.Console.Echo
import JosKernel.Console.Direct
import JosKernel.Printf.Render
import JosKernel.Pmap.FreeList
import JosKernel.Pmap.Address
import JosKernel.Pmap.Paging
import JosKernel.Pmap.PageInfo
import JosKernel.Pmap.Check
import JosKernel.Monitor.Runcmd
import JosKernel.Monitor.Words
import JosKernel.Monitor.Commands
import JosKernel.Monitor.Loop
import JosKernel.Monitor.Session
import JosKernel.Monitor.Backtrace
import JosKernel.Monitor.Info
import JosKernel.Kernel.Panic
import JosKernel.Kernel.Init
import JosKernel.Kernel.Machine
