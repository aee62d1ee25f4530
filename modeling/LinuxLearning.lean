import LinuxLearning.HttpConn.Body
import LinuxLearning.HttpConn.DeclaredLength
import LinuxLearning.HttpConn.Mapping
import LinuxLearning.HttpConn.Pipeline
import LinuxLearning.HttpConn.DocRoot
import LinuxLearning.HttpConn.RealFile
import LinuxLearning.HttpConn.HeaderLaw
import LinuxLearning.HttpConn.ResponseFraming
import LinuxLearning.HttpConn.Frame
import LinuxLearning.HttpConn.RequestGrammar
import LinuxLearning.HttpConn.Drain
import LinuxLearning.HttpParse.Agreement
import LinuxLearning.HttpParse.Main
import LinuxLearning.FileResponse.Writev
import LinuxLearning.Timers.HeapOrder
import LinuxLearning.Timers.SortedOrder
import LinuxLearning.Timers.HeapTick
import LinuxLearning.Timers.HeapIndices
import LinuxLearning.Timers.HeapRuns
import LinuxLearning.ThreadPool.Limit
import LinuxLearning.Timers.WheelRearm
import LinuxLearning.Timers.WheelLists
import LinuxLearning.Timers.Destructors
import LinuxLearning.Timers.HeapService
import LinuxLearning.Timers.WheelService
import LinuxLearning.ProcessPool.Fairness
import LinuxLearning.ProcessPool.Stranding
import LinuxLearning.ProcessPool.ChildSignals
import LinuxLearning.WebServer.Exclusive
import LinuxLearning.WebServer.Descriptors
import LinuxLearning.WebServer.Capacity
import LinuxLearning.Chatroom.Delivery
import LinuxLearning.Chatroom.Masks
import LinuxLearning.Chatroom.Client
import LinuxLearning.CloseInactive.Deadlines
import LinuxLearning.CgiConn.Requests
import LinuxLearning.Scratch.Memmove
import LinuxLearning.Scratch.Tail
import LinuxLearning.Scratch.Du
import LinuxLearning.EdgeTriggered.Reflect
import LinuxLearning.EdgeTriggered.LtEt
import LinuxLearning.OneShot.Service
import LinuxLearning.PthreadCond.Messages
import LinuxLearning.Epoll.Reports
import LinuxLearning.Libevent.Registration
