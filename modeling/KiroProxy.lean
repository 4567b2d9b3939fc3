import KiroProxy.AttemptSnapshot
import KiroProxy.CandidateSelection
import KiroProxy.CapacityWaiter
import KiroProxy.ControlBlock.Cleaner
import KiroProxy.ConversationHistory.Alternation
import KiroProxy.Converter.ToolNameRoundTrip
import KiroProxy.Converter.ToolPairing
import KiroProxy.EventStream.Accounting
import KiroProxy.IdentityGuard
import KiroProxy.InFlight.Limits
import KiroProxy.InFlight.TombstoneHistory
import KiroProxy.LocalPoolRiskReopening
import KiroProxy.OpenAI.Received
import KiroProxy.OpenAI.ResponsesFailure
import KiroProxy.OpenAI.ResponsesTools
import KiroProxy.OpenAI.SseParser
import KiroProxy.PayloadGuard.AnthropicRepair
import KiroProxy.PayloadGuard.RepeatedIds
import KiroProxy.PayloadGuard.TrimPairing
import KiroProxy.PromptCache.Conversation
import KiroProxy.PromptCache.CreationSpacing
import KiroProxy.PromptCache.CreationWindow
import KiroProxy.PromptCache.HashInput
import KiroProxy.PromptCache.Ttl
import KiroProxy.ReleaseDispatcher
import KiroProxy.RemoteSources.Bounds
import KiroProxy.RequestFacts.Rewritten
import KiroProxy.RequestKeyLimits
import KiroProxy.RequestKeyStates
import KiroProxy.RuntimeConfig
import KiroProxy.RuntimeMutation.Conservation
import KiroProxy.RuntimeMutation.Quarantine
import KiroProxy.SchedulerRedisBreaker
import KiroProxy.SelectionWindow
import KiroProxy.SessionBindings
import KiroProxy.StopSequence
import KiroProxy.StorageTask
import KiroProxy.Stream.Run
import KiroProxy.Stream.ToolInputScan
import KiroProxy.Stream.XmlEntities
import KiroProxy.StructuredNumbering
import KiroProxy.ThinkingDisplay
import KiroProxy.TokenRefreshBucket
import KiroProxy.ToolNameRestore.TextRestorer
import KiroProxy.ToolSchemaKeys.Reversal
import KiroProxy.TranscriptSanitizer.RawPath
import KiroProxy.TranscriptSanitizer.Segments
import KiroProxy.UsageShaping.ColdCache
import KiroProxy.UsageShaping.KiroPlusFinalize
import KiroProxy.UsageShaping.SplitTotals
import KiroProxy.UsageShaping.WithinBounds
import KiroProxy.UsageShaping.WithinCaps
