import CallLesson.Reactor.TaskQueue
import CallLesson.Reactor.OnTime
import CallLesson.Reactor.WheelTimes
import CallLesson.Reactor.WheelRegistry
import CallLesson.Reactor.WheelCalls
import CallLesson.Reactor.ReleaseOnce
import CallLesson.Reactor.GracefulShutdown
import CallLesson.Reactor.Dispatch
import CallLesson.Reactor.ConnTable
import CallLesson.Reactor.IdleRelease
import CallLesson.Gobang.Turns
import CallLesson.Gobang.Wakeup
import CallLesson.Gobang.SessionLookup
import CallLesson.Gobang.SessionPolicy
import CallLesson.Calculator.Readers
import CallLesson.Calculator.Malformed
import CallLesson.Calculator.Output
import CallLesson.Calculator.Recver
import CallLesson.Http.ThreadPool
import CallLesson.Lessons.ThreadPool
import CallLesson.Lessons.BlockQueue
import CallLesson.Lessons.RingQueue
import CallLesson.Algorithm.OpenHashProgress
import CallLesson.Algorithm.RBCheck
import CallLesson.Algorithm.ZhcSet
import CallLesson.Algorithm.ZhcMap
import CallLesson.Algorithm.AVLTree
import CallLesson.Algorithm.HashTable
import CallLesson.Algorithm.UnorderedSet
import CallLesson.Algorithm.BitSet
import CallLesson.Algorithm.ZhcList
import CallLesson.Algorithm.SmartPtr
import CallLesson.Gobang.Forfeit
import CallLesson.Reactor.BufferMemory
import CallLesson.Reactor.BufferLines
import CallLesson.Http.ContentLength
import CallLesson.Http.Handler
import CallLesson.Http.Cgi
import CallLesson.Gobang.SessionCookie
import CallLesson.Gobang.Login
import CallLesson.Algorithm.ZhcVector
import CallLesson.Algorithm.StringInput
