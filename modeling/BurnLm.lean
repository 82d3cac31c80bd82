import BurnLm.Inference.Serving
import BurnLm.Inference.Lockstep
import BurnLm.Llama.Coupling
import BurnLm.Llama.Rollback
import BurnLm.Llama.Streaming
import BurnLm.Inference.Guard
import BurnLm.PagedKv.Isolation
import BurnLm.PagedKv.Exhaustion
import BurnLm.PagedKv.Window
import BurnLm.Inference.PromptBudget
import BurnLm.Inference.Utf8Fronts
import BurnLm.Inference.TextStream
import BurnLm.Inference.Stages
import BurnLm.Inference.Booked
import BurnLm.Inference.Overtaking
import BurnLm.Inference.Cancellation
import BurnLm.Inference.LostDecoder
import BurnLm.Inference.Permits
import BurnLm.Inference.Seniority
import BurnLm.Inference.Streamed
import BurnLm.Llama.Projection
import BurnLm.Llama.Generate
import BurnLm.Llama.Sampling
import BurnLm.Math.GumbelMax
import BurnLm.Llama.HfConfig
import BurnLm.Llama.HfRepo
import BurnLm.Llama.HfTokenizer
import BurnLm.Llama.Fetch
import BurnLm.Llama.LegacyMpk
import BurnLm.Llama.PositionalEncoding
import BurnLm.Http.ChatStore
import BurnLm.Http.Framing
import BurnLm.Http.StreamDrain
import BurnLm.Http.StreamRun
import BurnLm.Http.StreamedResponse
import BurnLm.PagedAttn.Oracle
import BurnLm.PagedAttn.Kernel
import BurnLm.PagedAttn.Plane
import BurnLm.PagedAttn.Merge
import BurnLm.PagedAttn.Launch
import BurnLm.PagedAttn.Dispatch
import BurnLm.PagedKv.Attention
import BurnLm.PagedKv.WriteIndices
import BurnLm.PagedKv.LaneRecords
import BurnLm.PagedKv.KernelPath
import BurnLm.Llama.Transformer
import BurnLm.Llama.CausalBlock
import BurnLm.Llama.CausalForward
import BurnLm.Llama.Formulas
import BurnLm.Llama.KernelDevice
import BurnLm.Llama.Recompute
import BurnLm.Llama.Served
import BurnLm.Math.CausalStack
import BurnLm.Math.Channel
import BurnLm.Inference.Solo
import BurnLm.Inference.Transparency
