import Vecoda.MessagePipe
import Vecoda.LuaText
import Vecoda.XmlSimple
import Vecoda.Channel
import Vecoda.EventStream
import Vecoda.EventAgreement
import Vecoda.AtomicEvents
import Vecoda.Transitions
import Vecoda.Backend
import Vecoda.Registration
import Vecoda.ThreadList
import Vecoda.ScriptIdentity
import Vecoda.BreakFlag
import Vecoda.HookCallback
import Vecoda.LineHook
import Vecoda.Stepping
import Vecoda.Slots
import Vecoda.Watch
import Vecoda.Toggles
import Vecoda.Breakpoints
import Vecoda.BreakpointSync
import Vecoda.Files
import Vecoda.LoadHandshake
import Vecoda.ScriptIndex
import Vecoda.HandleBreak
import Vecoda.BreakDecision
import Vecoda.UnifiedStack
import Vecoda.Variables
import Vecoda.Requests
import Vecoda.OneResponse
import Vecoda.Routing
import Vecoda.Deciding
import Vecoda.CallbackRoutes
import Vecoda.Created
import Vecoda.References
import Vecoda.Resuming
import Vecoda.StaleResume
import Vecoda.CommandOrder
import Vecoda.StoppedEvaluation
import Vecoda.CommandThread
import Vecoda.Framing
import Vecoda.PathBreakpoints
import Vecoda.Repeats
import Vecoda.JitRepeats
import Vecoda.HostRelease
import Vecoda.Reattach
import Vecoda.HookRegions
import Vecoda.DetachedHooks
import Vecoda.CommandStream
import Vecoda.LuaStack
import Vecoda.ProtectedCall
import Vecoda.TableDocument
import Vecoda.ExpandedTable
import Vecoda.ByteMemory
import Vecoda.X86Machine
import Vecoda.Thunks
import Vecoda.Forwarding
import Vecoda.FrameIds
import Vecoda.StackCapacity
import Vecoda.LogMessages
import Vecoda.CanonicalPaths
import Vecoda.LuaApi
import Vecoda.TableCache
import Vecoda.CachedReferences
import Vecoda.FrameTables
import Vecoda.ValueText
import Vecoda.EvaluateProgram
import Vecoda.ExpandProgram
import Vecoda.Worklist
import Vecoda.PrintedCalls
import Vecoda.PrintedChains
import Vecoda.PrintingEnds
import Vecoda.EvaluateOutcome
import Vecoda.StackBalance
import Vecoda.Expansions
import Vecoda.GbkText
import Vecoda.StringFields
import Vecoda.PipeReads
import Vecoda.LateAttach
import Vecoda.TcpReads
import Vecoda.LoadReports
import Vecoda.XmlPrinter
import Vecoda.TextReferences
import Vecoda.PrintedTags
import Vecoda.PrintedDocuments
import Vecoda.ShownStrings
import Vecoda.OpenElements
import Vecoda.FirstResults
import Vecoda.AlikeDecoders
import Vecoda.JsonGrammar
import Vecoda.JsonStrings
import Vecoda.JsonDecode
import Vecoda.JsonScanning
import Vecoda.JsonItems
import Vecoda.JsonAcceptance
import Vecoda.JsonEscapes
import Vecoda.JsonEncode
import Vecoda.JsonTrees
import Vecoda.JsonRoundTrip
import Vecoda.JsonMessages
import Vecoda.CommandSession
import Vecoda.HitCounts
import Vecoda.HitCourses
import Vecoda.DepthFirst
import Vecoda.LoadedSymbols
import Vecoda.DecodedTables
import Vecoda.ChunkedFrames
import Vecoda.MessageLoop
import Vecoda.LoadedFunctions
import Vecoda.ApiCalls
