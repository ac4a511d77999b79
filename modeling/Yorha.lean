import Yorha.Lib.Logged
import Yorha.Heap.Replay
import Yorha.Fs.Ownership
import Yorha.Fs.Tree
import Yorha.Fs.Returns
import Yorha.Fs.Namespace
import Yorha.Fs.Table
import Yorha.Fs.Cursor
import Yorha.Fs.Write
import Yorha.Fs.Validity
import Yorha.Fs.Integrity
import Yorha.Fs.Stream
import Yorha.Fs.Creation
import Yorha.Io.Devices
import Yorha.Io.Keyboard
import Yorha.Io.Serial
import Yorha.Fs.Mount
import Yorha.Fs.Image
import Yorha.Fs.Layout
import Yorha.Fs.Remount
import Yorha.Io.Boot
import Yorha.Heap.Buffer
import Yorha.Heap.Split
import Yorha.Shell.Commands
import Yorha.Shell.Sget
import Yorha.Shell.Loop
import Yorha.Shell.Keeps
import Yorha.Lib.Editor
import Yorha.Shell.Editing
import Yorha.Fs.Secrecy
import Yorha.Util.Bounds
import Yorha.Heap.Leak
import Yorha.Page.Basic
import Yorha.Page.Paging
import Yorha.Page.Mapping
import Yorha.Page.Pool
import Yorha.Page.Loading
import Yorha.Shell.Descriptors
import Yorha.Io.Terminal
import Yorha.Io.Console
import Yorha.Shell.Redirect
import Yorha.Shell.Dump
import Yorha.Shell.Reads
import Yorha.Shell.Arguments
import Yorha.Fs.Traverse
import Yorha.Fs.Unchecked
import Yorha.Fs.Unresolved
import Yorha.Fs.Full
import Yorha.Fs.Erase
import Yorha.Fs.Accounting
import Yorha.Fs.Names
import Yorha.Fs.Buffers
import Yorha.Shell.Listing
import Yorha.Shell.Relookup
import Yorha.Heap.Refuse
import Yorha.Heap.Shrink
import Yorha.Heap.Fields
import Yorha.Io.Vga
import Yorha.Str.Order
import Yorha.Str.Number
import Yorha.Io.Printf
import Yorha.Io.Shift
import Yorha.Fs.Paths
import Yorha.Io.Ata
import Yorha.Io.Lba28
import Yorha.Fs.SetUp
import Yorha.Cpu.Gates
import Yorha.Cpu.Stub
import Yorha.Cpu.Pic
import Yorha.Cpu.Handlers
import Yorha.Fs.Crash
import Yorha.Page.Boot
import Yorha.Fs.Refine
import Yorha.Lib.Orders
import Yorha.Shell.Orders
import Yorha.Shell.Follows
