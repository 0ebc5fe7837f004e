import AneLinux.Hwx.ConvertersAgree
import AneLinux.Staged.RuntimeWalk
import AneLinux.Staged.BankRoundTrip
import AneLinux.Staged.Residual
import AneLinux.Runtime.Convolution
import AneLinux.Runtime.BlobSwap
import AneLinux.Runtime.PingPongLayout
import AneLinux.Qwen.Resume
import AneLinux.Inproc.SinkLaw
import AneLinux.Qwen4.NGramChunks
import AneLinux.Qwen4.NGramRange
import AneLinux.Qwen4.SparseMask
import AneLinux.Staged.StrideWalk
import AneLinux.Staged.NormalizeStream
import AneLinux.Resident.Exclusion
import AneLinux.Hwx.RegisterCodec
import AneLinux.Hwx.HeaderRoundTrip
import AneLinux.Hwx.Rewire
import AneLinux.Staged.TaskExtent
import AneLinux.Anec.Repack
import AneLinux.Anec.TaskZeroSplice
import AneLinux.Hwx.TaskSlice
import AneLinux.Hwx.SplitKernel
import AneLinux.Hwx.KernelWeights
import AneLinux.Staged.Pending
import AneLinux.Staged.DecodeChannels
import AneLinux.Staged.ChainClosure
import AneLinux.Staged.PairingOrder
import AneLinux.Libane.ExecLoop
import AneLinux.Firmware.Doorbell
import AneLinux.Privacy.Staged
import AneLinux.Runtime.AppendAtomic
import AneLinux.Runtime.TiedHead
import AneLinux.Runtime.TokenRuntime
import AneLinux.Micro.Attribution
import AneLinux.Qwen.Archive
import AneLinux.Qwen.TopOverlap
import AneLinux.Btrfs.ReadFile
import AneLinux.Fat.Directory
import AneLinux.Registry.Contributors
import AneLinux.Tunables.MachO
import AneLinux.Profile.Unwrap
import AneLinux.Encoder.ExpandDims
import AneLinux.Qwen.StagedPorts
import AneLinux.Anec.PrefixBundle
import AneLinux.Shader.Linear
import AneLinux.Hwx.WeightBlob
import AneLinux.Runtime.Reduction
import AneLinux.Runtime.Rope
import AneLinux.Driver.PowerDomains
import AneLinux.Encoder.Arguments
import AneLinux.Encoder.FusedRun
import AneLinux.Libane.Tile
import AneLinux.Libane.Init
import AneLinux.Qwen4.DeltaNet
import AneLinux.Inproc.Server
import AneLinux.Firmware.Load
