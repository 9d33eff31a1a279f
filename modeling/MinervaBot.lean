import MinervaBot.Lib.CString
import MinervaBot.Lib.Exec
import MinervaBot.Lib.QueueTable
import MinervaBot.Lib.Fallback
import MinervaBot.Crc8
import MinervaBot.Hashmap
import MinervaBot.HashmapCorrect
import MinervaBot.Permissions
import MinervaBot.PermissionsGet
import MinervaBot.PermissionsSet
import MinervaBot.Commands
import MinervaBot.CommandTable
import MinervaBot.Irc
import MinervaBot.IrcLines
import MinervaBot.Threadpool
import MinervaBot.Handlers
import MinervaBot.PermissionsMutex
import MinervaBot.Setp
import MinervaBot.Escalation
import MinervaBot.Owner
import MinervaBot.Modules
import MinervaBot.Reload
import MinervaBot.CommandPrefix
import MinervaBot.IrcActions
import MinervaBot.IrcGrammar
import MinervaBot.IrcBounds
import MinervaBot.Pool
import MinervaBot.PoolWait
import MinervaBot.Lib.SlotTable
import MinervaBot.LoaderContexts
import MinervaBot.LoaderUse
import MinervaBot.Watchdir
import MinervaBot.Dispatch
import MinervaBot.HashmapPut
import MinervaBot.LoaderCount
import MinervaBot.Net
import MinervaBot.NetMutex
import MinervaBot.IrcLogin
import MinervaBot.LoginBounds
import MinervaBot.MainLoop
import MinervaBot.Lib.MemStr
import MinervaBot.CmdBlock
import MinervaBot.Cryptocurrency
import MinervaBot.Geoip
import MinervaBot.CommandCase
import MinervaBot.Unescape
import MinervaBot.WebModules
import MinervaBot.WebLines
import MinervaBot.LiteralLoop
import MinervaBot.LiteralBounds
import MinervaBot.Fullwidth
import MinervaBot.HashmapRemove
import MinervaBot.CrcRemainder
import MinervaBot.LoaderCalls
import MinervaBot.PermissionsBounds
import MinervaBot.PoolFailures
import MinervaBot.PoolBytes
import MinervaBot.LoaderCallsSpec
import MinervaBot.LockDiscipline
import MinervaBot.LoadFailures
import MinervaBot.CommandsClean
import MinervaBot.ChanopLevels
import MinervaBot.ChanopBuffer
import MinervaBot.Lib.Critical
import MinervaBot.Logger
import MinervaBot.Calc
import MinervaBot.Connect
import MinervaBot.MainRuns
import MinervaBot.Shutdown
import MinervaBot.Pipeline
import MinervaBot.PermissionsEntries
import MinervaBot.Delegation
import MinervaBot.ShippedModules
import MinervaBot.Lib.Heap
import MinervaBot.HashmapHeap
import MinervaBot.HeapRuns
import MinervaBot.LoginNicks
import MinervaBot.Lib.HeapTrie
import MinervaBot.CommandsHeap
