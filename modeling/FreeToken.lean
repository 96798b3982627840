import FreeToken.Engine.AddRequest
import FreeToken.Engine.AbortRequest
import FreeToken.Engine.Step
import FreeToken.KVCache.RadixSpec
import FreeToken.Scheduler.SchedulerSpec
import FreeToken.Engine.Calls
import FreeToken.Engine.AddSpec
import FreeToken.Engine.CommitSpec
import FreeToken.Engine.Lives
import FreeToken.Engine.Books
import FreeToken.Engine.Ownership
import FreeToken.Engine.Conservation
import FreeToken.Engine.Atomicity
import FreeToken.Engine.Columns
import FreeToken.Memory.Written
import FreeToken.Memory.Alone
import FreeToken.Memory.ReadBack
import FreeToken.Scheduler.Progress
import FreeToken.Scheduler.Chunks
import FreeToken.Scheduler.Budget
import FreeToken.Engine.Sizing
import FreeToken.Engine.RebuildCache
import FreeToken.Engine.StartStates
import FreeToken.Engine.Generate
import FreeToken.Server.Interleavings
import FreeToken.Models.ConvRings
import FreeToken.Models.PleStates
import FreeToken.Engine.LinearBudget
import FreeToken.Engine.Restores
import FreeToken.Server.ThinkTags
import FreeToken.Server.SharedParsers
import FreeToken.Moe.HybridSpec
import FreeToken.Engine.SampleRows
import FreeToken.KVCache.RadixStable
import FreeToken.Kernel.AsyncProgress
import FreeToken.Models.GGUF.LoadSpec
import FreeToken.Checkpoint.FtwSpec
import FreeToken.Models.ExpertSourcesSpec
import FreeToken.Engine.CacheBudgetSpec
import FreeToken.Models.GGUF.Dequant
import FreeToken.Lib.Generator
import FreeToken.Models.GGUF.Experts
import FreeToken.Models.GGUF.DequantSpec
import FreeToken.Models.GGUF.ExpertsSpec
import FreeToken.Models.GGUF.LazyExperts
import FreeToken.Moe.WholeLayer
import FreeToken.Lib.Packed
import FreeToken.Models.GGUF.KQuants
import FreeToken.Server.AnthropicApi
import FreeToken.Server.AnthropicSpec
import FreeToken.Server.OpenaiApi
import FreeToken.Server.Surfaces
import FreeToken.Lib.Spans
import FreeToken.Server.FunctionCallParser
import FreeToken.Server.ToolCallSpans
import FreeToken.Lib.Matrices
import FreeToken.Kernel.Dequantize
import FreeToken.Moe.SlotWeights
import FreeToken.Moe.SlotWeightsSpec
import FreeToken.Lib.Utf8
import FreeToken.Lib.Views
import FreeToken.Tokenizer.Detokenize
import FreeToken.Tokenizer.DetokenizeSpec
import FreeToken.Lib.Grammar
import FreeToken.Lib.ReadNumbers
import FreeToken.Models.GGUF.Hostile
import FreeToken.Models.GGUF.HostileSpec
import FreeToken.Moe.CpuLayers
import FreeToken.Moe.CpuLayersSpec
import FreeToken.Engine.StepTotal
import FreeToken.Engine.Answers
import FreeToken.Scheduler.Idle
import FreeToken.Lib.Accumulate
import FreeToken.Kernel.CpuMoe
import FreeToken.Kernel.CpuMoeSpec
import FreeToken.Moe.InramExperts
import FreeToken.Models.GatedDeltaNet
import FreeToken.Models.DeltaNetChunks
import FreeToken.Lib.Scatter
import FreeToken.Lib.TileKernel
import FreeToken.Kernel.FusedLinear
import FreeToken.Kernel.FusedLinearSpec
import FreeToken.Kernel.FusedGptqSpec
import FreeToken.Lib.Grouped
import FreeToken.Lib.TopK
import FreeToken.Kernel.FusedMoe
import FreeToken.Kernel.FusedMoeSpec
import FreeToken.Models.QsaAttention
import FreeToken.Models.QsaAttentionSpec
import FreeToken.Models.DsaAttention
import FreeToken.Models.DsaAttentionSpec
import FreeToken.Kernel.Int8Packing
import FreeToken.Kernel.Mxfp4Quant
import FreeToken.Lib.EndToEnd
import FreeToken.Models.NgramConstants
import FreeToken.Models.NgramConstantsSpec
import FreeToken.Moe.HybridSplit
import FreeToken.Tokenizer.Effort
import FreeToken.Tokenizer.EffortSpec
import FreeToken.Layers.Rotary
import FreeToken.Layers.RotarySpec
import FreeToken.Layers.RopeScaling
import FreeToken.Layers.RopeScalingSpec
import FreeToken.Models.YarnRope
import FreeToken.Models.YarnRopeSpec
import FreeToken.Lib.Sieve
import FreeToken.Lib.TextLines
import FreeToken.Launch.CodexConfig
import FreeToken.Launch.CodexConfigSpec
import FreeToken.Models.GGUF.CompleteFiles
import FreeToken.Models.LoaderBanks
import FreeToken.Models.LeadingDense
import FreeToken.Lib.Heapq
import FreeToken.KVCache.HybridRadixCache
import FreeToken.KVCache.HybridSpec
import FreeToken.KVCache.HybridEvict
import FreeToken.KVCache.HybridRuns
import FreeToken.KVCache.HybridMap
import FreeToken.Lib.OnlineSoftmax
import FreeToken.Attention.Triton
import FreeToken.Attention.Sycl
import FreeToken.Attention.KernelSpec
import FreeToken.Attention.TritonSpec
import FreeToken.Attention.SyclSpec
import FreeToken.Attention.BackendsAgree
import FreeToken.Lib.CausalModel
import FreeToken.Memory.Sessions
import FreeToken.Lib.LayeredModel
import FreeToken.Models.Qwen3
import FreeToken.Models.Qwen3Spec
