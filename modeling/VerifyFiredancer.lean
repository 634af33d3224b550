import VerifyFiredancer.Lib.BitField
import VerifyFiredancer.Lib.BlockHeap
import VerifyFiredancer.Lib.ByteMem
import VerifyFiredancer.Lib.CreditFlow
import VerifyFiredancer.Lib.Csv
import VerifyFiredancer.Lib.Cyclic
import VerifyFiredancer.Lib.FirstMin
import VerifyFiredancer.Lib.Guarded
import VerifyFiredancer.Lib.Harness
import VerifyFiredancer.Lib.History
import VerifyFiredancer.Lib.LastWrite
import VerifyFiredancer.Lib.Layout
import VerifyFiredancer.Lib.LinearProbe
import VerifyFiredancer.Lib.LowBit
import VerifyFiredancer.Lib.Mixer
import VerifyFiredancer.Lib.ObjectHeap
import VerifyFiredancer.Lib.OverlapCopy
import VerifyFiredancer.Lib.PowerMask
import VerifyFiredancer.Lib.ReadScan
import VerifyFiredancer.Lib.Regex
import VerifyFiredancer.Lib.Rejection
import VerifyFiredancer.Lib.RingWindow
import VerifyFiredancer.Lib.Sampling
import VerifyFiredancer.Lib.Seqlock
import VerifyFiredancer.Lib.Smear
import VerifyFiredancer.Lib.TextLines
import VerifyFiredancer.Lib.ZigZag
import VerifyFiredancer.Bcmp
import VerifyFiredancer.Bits
import VerifyFiredancer.BitsImpl
import VerifyFiredancer.BrunchStat
import VerifyFiredancer.CachePrivate
import VerifyFiredancer.Chacha20rng
import VerifyFiredancer.Fctl
import VerifyFiredancer.FseqOverride
import VerifyFiredancer.Mcache
import VerifyFiredancer.McacheVector
import VerifyFiredancer.Pod
import VerifyFiredancer.PodTyped
import VerifyFiredancer.Scratch
import VerifyFiredancer.SeaAllocators
import VerifyFiredancer.Tango
import VerifyFiredancer.Tcache
import VerifyFiredancer.TcacheCrab
import VerifyFiredancer.TcachePacked
import VerifyFiredancer.TlsProto
import VerifyFiredancer.UnalignedAccess
import VerifyFiredancer.UtilBase
import VerifyFiredancer.Verify
import VerifyFiredancer.Lemmas.Bcmp
import VerifyFiredancer.Lemmas.BitsImpl
import VerifyFiredancer.Lemmas.Fctl
import VerifyFiredancer.Lemmas.Mcache
import VerifyFiredancer.Lemmas.McachePosition
import VerifyFiredancer.Lemmas.PodHeader
import VerifyFiredancer.Lemmas.PodIter
import VerifyFiredancer.Lemmas.Scratch
import VerifyFiredancer.Lemmas.Svw
import VerifyFiredancer.Lemmas.Tango
import VerifyFiredancer.Lemmas.TangoRun
import VerifyFiredancer.Lemmas.Tcache
import VerifyFiredancer.Lemmas.TcachePacked
import VerifyFiredancer.Lemmas.Verify
import VerifyFiredancer.Theorems.Align
import VerifyFiredancer.Theorems.AllocatorRuns
import VerifyFiredancer.Theorems.Allocators
import VerifyFiredancer.Theorems.AtomicXchg
import VerifyFiredancer.Theorems.Base10
import VerifyFiredancer.Theorems.BitCount
import VerifyFiredancer.Theorems.BitField
import VerifyFiredancer.Theorems.BrunchCsv
import VerifyFiredancer.Theorems.BrunchStat
import VerifyFiredancer.Theorems.CacheHeader
import VerifyFiredancer.Theorems.Chacha20rngCalls
import VerifyFiredancer.Theorems.Chacha20rngRoll
import VerifyFiredancer.Theorems.Chacha20rngStream
import VerifyFiredancer.Theorems.FctlFlow
import VerifyFiredancer.Theorems.FctlHysteresis
import VerifyFiredancer.Theorems.FctlQuery
import VerifyFiredancer.Theorems.FctlStall
import VerifyFiredancer.Theorems.FseqSplit
import VerifyFiredancer.Theorems.Hash
import VerifyFiredancer.Theorems.McacheLine
import VerifyFiredancer.Theorems.McacheQuery
import VerifyFiredancer.Theorems.McacheSeq
import VerifyFiredancer.Theorems.McacheVector
import VerifyFiredancer.Theorems.McacheWait
import VerifyFiredancer.Theorems.Memchr
import VerifyFiredancer.Theorems.Memcmp
import VerifyFiredancer.Theorems.Memmove
import VerifyFiredancer.Theorems.Once
import VerifyFiredancer.Theorems.PodHeader
import VerifyFiredancer.Theorems.PodIter
import VerifyFiredancer.Theorems.PodIterPtr
import VerifyFiredancer.Theorems.PodTyped
import VerifyFiredancer.Theorems.Pow2
import VerifyFiredancer.Theorems.Rotate
import VerifyFiredancer.Theorems.ScratchLayout
import VerifyFiredancer.Theorems.ScratchOverflow
import VerifyFiredancer.Theorems.SignedWords
import VerifyFiredancer.Theorems.Strncmp
import VerifyFiredancer.Theorems.SvwStream
import VerifyFiredancer.Theorems.SvwTail
import VerifyFiredancer.Theorems.Tango
import VerifyFiredancer.Theorems.TcacheCrab
import VerifyFiredancer.Theorems.TcacheFifo
import VerifyFiredancer.Theorems.TcacheInvariant
import VerifyFiredancer.Theorems.TcacheMapCnt
import VerifyFiredancer.Theorems.TcachePacked
import VerifyFiredancer.Theorems.TcacheProbe
import VerifyFiredancer.Theorems.TcacheRemove
import VerifyFiredancer.Theorems.TcacheRetention
import VerifyFiredancer.Theorems.TcacheSpec
import VerifyFiredancer.Theorems.TlsDecode
import VerifyFiredancer.Theorems.TlsPubkey
import VerifyFiredancer.Theorems.Turnstile
import VerifyFiredancer.Theorems.UnalignedAccess
import VerifyFiredancer.Theorems.VerifyLines
import VerifyFiredancer.Theorems.VerifyVerdict
import VerifyFiredancer.Theorems.ZigZag
