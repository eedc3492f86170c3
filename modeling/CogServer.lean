import CogServer.ShellOutput
import CogServer.ConsoleModes
import CogServer.ModuleListing
import CogServer.ConsoleCommands
import CogServer.WebOutput
import CogServer.WebReplies
import CogServer.HttpMessage
import CogServer.ConnectionTable
import CogServer.McpPort
import CogServer.WebSession
import CogServer.TelnetSession
import CogServer.ShellLifetimes
import CogServer.Containment
import CogServer.McpDelivery
import CogServer.HttpResponses
import CogServer.HttpRequests
import CogServer.WebShells
import CogServer.ShutdownReturn
import CogServer.BarrierNames
import CogServer.BarrierDrain
import CogServer.LivenessProbes
import CogServer.BarrierDeadlock
import CogServer.McpEvaluators
import CogServer.TelnetLines
import CogServer.NetworkShutdown
import CogServer.NetworkCycles
import CogServer.MainLoops
import CogServer.ConsoleLifetime
import CogServer.ModuleLifetimes
import CogServer.SlotWaits
import CogServer.LoadedModules
import CogServer.ServerFrames
import CogServer.JsonLines
import CogServer.HeaderFields
import CogServer.Base64
import CogServer.CommandWords
import CogServer.TelnetReplies
import CogServer.McpReplays
import CogServer.PageServer
import CogServer.GarbledLines
import CogServer.PythonLines
