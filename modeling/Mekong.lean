import Mekong.Analysis.MutualExclusion
import Mekong.Analysis.StrandedWaiter
import Mekong.Analysis.FairHandoff
import Mekong.Analysis.WaitQueue
import Mekong.Analysis.Residue
import Mekong.Analysis.TryLock
import Mekong.Analysis.FutexToken
import Mekong.Analysis.PthreadContract
import Mekong.Analysis.SemaphoreToken
import Mekong.Analysis.SemaphoreTimeout
import Mekong.Analysis.PiecewiseHashing
import Mekong.Analysis.StateKept
import Mekong.Analysis.WaitGroupWakeups
import Mekong.Analysis.WaitGroupCounter
import Mekong.Analysis.NodeLifetime
import Mekong.Analysis.UnparkAll
import Mekong.Analysis.AbortSelf
import Mekong.Analysis.NodeReuse
import Mekong.Analysis.HashBounds
import Mekong.Analysis.IntegerTypes
import Mekong.Analysis.CrcSalt
import Mekong.Analysis.Block32Overflow
import Mekong.Analysis.TimeoutToTimespec
import Mekong.Analysis.FutexDeadline
import Mekong.Analysis.HashCoverage
import Mekong.Analysis.City32Mixing
import Mekong.Analysis.City64Width
import Mekong.Analysis.City64Mixing
import Mekong.Analysis.StateErased
import Mekong.Analysis.DataRaceFreedom
import Mekong.Analysis.FutexMutexRuns
import Mekong.Analysis.FairUnlocks
import Mekong.Analysis.GenU32Period
import Mekong.Analysis.LinkedOnce
import Mekong.Analysis.AloneEnds
import Mekong.Analysis.QueueRaceFreedom
import Mekong.Analysis.WaitGroupJoin
