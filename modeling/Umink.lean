import Umink.Daemon.Identity
import Umink.Daemon.Lifecycle
import Umink.Daemon.Plugins
import Umink.Library.Trace
import Umink.Spscq.Interleaving
import Umink.Library.RecMutex
import Umink.Plugin.Signals
import Umink.Plugin.HookTable
import Umink.Plugin.Load
import Umink.Plugin.Terminate
import Umink.Lua.SignalSteps
import Umink.Lua.Config
import Umink.Lua.Loaded
import Umink.Lua.Authorization
import Umink.Lua.Deadlock
import Umink.Lua.Recursion
import Umink.Lua.SignalArgs
import Umink.Lua.SignalData
import Umink.Lua.Session
import Umink.Lua.SubModules
import Umink.Lua.MemoryModes
import Umink.Lua.CliReceive
import Umink.Lua.CliShutdown
import Umink.Lua.CmdCall
import Umink.Lua.DataTables
import Umink.Lua.DoSignal
import Umink.Lua.EnvThread
import Umink.Lua.ListSignals
import Umink.Lua.SignalCalls
import Umink.Lua.SignalStack
import Umink.Lua.TableCalls
import Umink.MosquittoAuth.Access
import Umink.MosquittoAuth.BasicAuth
import Umink.MosquittoAuth.JwtExpiry
import Umink.MosquittoAuth.Lockout
import Umink.MosquittoAuth.PayloadMod
import Umink.MosquittoAuth.PluginInit
import Umink.Mqtt.FileNames
import Umink.Mqtt.Lifetime
import Umink.Mqtt.Loader
import Umink.Mqtt.Publish
import Umink.Mqtt.Shutdown
import Umink.Mqtt.Topics
import Umink.Mqtt.UploadIntegrity
import Umink.Mqtt.UploadLimits
import Umink.Mqtt.UploadSizes
import Umink.Mqtt.Wakeup
import Umink.Umcounters.EnvCounters
import Umink.Umcounters.PerfInc
import Umink.Umcounters.PerfMatch
import Umink.Umcounters.Registry
import Umink.Umcounters.Threads
import Umink.Umdb.LuaStores
import Umink.Umdb.Presence
import Umink.Umdb.Statements
import Umink.Umdb.Store
import Umink.Umdb.StoreNames
