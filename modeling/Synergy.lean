import Synergy.TimerAccounting
import Synergy.TimerWakeups
import Synergy.TimerRollover
import Synergy.SchedulerQueue
import Synergy.SchedulerShutdown
import Synergy.SchedulerFinished
import Synergy.IOManagerShutdown
import Synergy.TimerExpiry
import Synergy.TimerHandles
import Synergy.IOManagerAgreement
import Synergy.SchedulerCurrent
import Synergy.SchedulerJoin
import Synergy.IOManagerTickle
import Synergy.PiberContext
import Synergy.PiberCoroutines
import Synergy.PiberNesting
import Synergy.SchedulerCaller
import Synergy.SchedulerDrain
import Synergy.TimerArming
import Synergy.TimerResets
import Synergy.Hook
import Synergy.HookModes
import Synergy.HookSleep
import Synergy.IOManagerTable
import Synergy.ScopedLock
import Synergy.HookIo
import Synergy.HookIoDeadline
import Synergy.HookConnect
import Synergy.GuardedCode
import Synergy.IOManagerWaiters
import Synergy.LockUse
import Synergy.SchedulerCounters
import Synergy.SchedulerOrder
import Synergy.SchedulerPinned
import Synergy.SchedulerProgress
import Synergy.SchedulerExecution
import Synergy.Thread
import Synergy.PiberHandles
import Synergy.SchedulerLeaks
