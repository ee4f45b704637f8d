import Sdb.Core.LTS
import Sdb.Core.Exec
import Sdb.Core.Slots
import Sdb.Core.Reach
import Sdb.Core.Scan
import Sdb.Core.Worklist
import Sdb.Core.Calls
import Sdb.Core.Refine
import Sdb.Core.Feed
import Sdb.Core.Paged
import Sdb.L1Data.Message
import Sdb.L1Data.Text
import Sdb.L1Data.Decimal
import Sdb.L1Data.BreakpointMap
import Sdb.L1Data.LineTable
import Sdb.L2Pause.Debugger
import Sdb.L2Pause.Steps
import Sdb.L2Pause.Confirm
import Sdb.L2Pause.Resume
import Sdb.L2Pause.Request
import Sdb.L2Pause.Stepping
import Sdb.L2Pause.Breakpoints
import Sdb.L2Pause.Wakeup
import Sdb.L2Pause.Detach
import Sdb.L2Pause.Listener
import Sdb.L2Pause.RunState
import Sdb.L2Pause.Verified
import Sdb.L2Pause.Mirror
import Sdb.L2Pause.Prints
import Sdb.L2Pause.SourceNames
import Sdb.L2Pause.Held
import Sdb.L2Pause.Session
import Sdb.L2Pause.Exact
import Sdb.L2Pause.Monitor
import Sdb.L2Pause.LastFrame
import Sdb.L2Pause.History
import Sdb.L3Vm.SqVm
import Sdb.L3Vm.Heap
import Sdb.L3Vm.Helpers
import Sdb.L3Vm.Parse
import Sdb.L3Vm.Accepted
import Sdb.L3Vm.Grammar
import Sdb.L3Vm.Literal
import Sdb.L3Vm.Language
import Sdb.L3Vm.Canonical
import Sdb.L3Vm.Bounds
import Sdb.L3Vm.EscapeBounds
import Sdb.L3Vm.Commands
import Sdb.L4Display.Moves
import Sdb.L4Display.Balance
import Sdb.L4Display.Runs
import Sdb.L4Display.Lookup
import Sdb.L4Display.ClassScan
import Sdb.L4Display.ClassFound
import Sdb.L4Display.HeapOrder
import Sdb.L4Display.FrameNumbers
import Sdb.L4Display.LocalPages
import Sdb.L4Display.Paths
import Sdb.L4Display.Listing
import Sdb.L4Display.Slips
import Sdb.L4Display.Readings
import Sdb.L4Display.Pages
import Sdb.L4Display.Paging
import Sdb.L4Display.Write
import Sdb.L4Display.Listed
import Sdb.L4Display.ChildCounts
import Sdb.L4Display.Replaced
import Sdb.L4Display.Edit
import Sdb.L4Display.EditText
import Sdb.L4Display.Redisplay
import Sdb.L4Display.PathText
import Sdb.L4Display.SummaryText
import Sdb.L4Display.Summary
import Sdb.L4Display.Reference
import Sdb.L4Display.Evaluate
import Sdb.L4Display.Resolved
import Sdb.L4Display.Worklist
import Sdb.L4Display.Rounds
import Sdb.L4Display.Height
import Sdb.L4Display.Looking
import Sdb.L4Display.Scenes
import Sdb.L4Display.Terms
import Sdb.L4Display.Watch
import Sdb.L4Display.WatchPath
import Sdb.L4Display.PageBounds
import Sdb.L4Display.VmCodes
import Sdb.L4Display.PageByPage
import Sdb.L5Server.Broadcast
import Sdb.L5Server.QueryParams
import Sdb.L5Server.EventDto
import Sdb.L5Server.Controller
import Sdb.L5Server.Requests
import Sdb.L5Server.ResponsePages
import Sdb.L5Server.PausedAnswers
import Sdb.L5Server.FileBreakpoints
import Sdb.L5Server.Events
