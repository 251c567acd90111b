import LightServe.Infra.CpuLists
import LightServe.Infra.Isolate
import LightServe.Infra.Tune
import LightServe.Kernels.FlashAttentionBackward
import LightServe.Kernels.FusedRmsNorm
import LightServe.Kernels.TiledMatmul
import LightServe.Lib.Dict
import LightServe.Lib.Forest
import LightServe.Memory.Partition
import LightServe.Mlops.Canary
import LightServe.Mlops.RegisterOnce
import LightServe.Mlops.Rollback
import LightServe.Model.ChunkedForward
import LightServe.Model.CudaGraphDecode
import LightServe.Model.Int8KVCache
import LightServe.Model.LLMEngine
import LightServe.Model.LlamaKernels
import LightServe.PrefixCache.Collision
import LightServe.PrefixCache.HeldPaths
import LightServe.Scheduling.Watermark
import LightServe.Server.Answers
import LightServe.Server.Handoffs
import LightServe.Server.Progress
import LightServe.Serving.ContextGuard
import LightServe.Serving.Integrity
import LightServe.Serving.ResumeDecode
import LightServe.Serving.VerifyRound
import LightServe.Speculation.DraftPool
import LightServe.Speculation.Synchronised
import LightServe.Training.Corpus
import LightServe.Training.Documents
import LightServe.Training.Linearisation
import LightServe.Training.NearCopy
import LightServe.Training.Promote
