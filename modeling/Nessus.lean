import Nessus.Lib.Outcome
import Nessus.Lib.Loop
import Nessus.Lib.CString
import Nessus.Lib.Writes
import Nessus.Lib.Base64
import Nessus.Lib.Machine
import Nessus.Lib.Calls
import Nessus.Lib.CInt
import Nessus.Lib.Words
import Nessus.Lib.ByteOrder
import Nessus.Lib.JsonGrammar
import Nessus.Lib.Trace
import Nessus.Lib.Utf8
import Nessus.Abi.Errors
import Nessus.Abi.Transport
import Nessus.Lib.Count
import Nessus.Lib.Ledger
import Nessus.Lib.RefCounted
import Nessus.Lib.Acyclic
import Nessus.Lib.Ring
import Nessus.Lib.BitString
import Nessus.Lib.Sponge
import Nessus.Lib.Keccak
import Nessus.Abi.Guid
import Nessus.Abi.GuidText
import Nessus.Abi.GuidGrammar
import Nessus.Abi.Sha3
import Nessus.Abi.Sha3Sponge
import Nessus.Abi.Sha3Keccak
import Nessus.Meta.Rotate
import Nessus.Meta.MinusMod
import Nessus.Meta.Numbers
import Nessus.Meta.NumberTexts
import Nessus.Abi.RefCount
import Nessus.Abi.RefCountInv
import Nessus.Abi.Unload
import Nessus.Abi.UnloadInv
import Nessus.Abi.UnloadEnds
import Nessus.Abi.Interfaces
import Nessus.Abi.TypeIdentity
import Nessus.Abi.ParamString
import Nessus.Abi.ParamStringValues
import Nessus.Abi.StringViews
import Nessus.Abi.ParamVector
import Nessus.Abi.ParamSpan
import Nessus.Abi.RangeCopy
import Nessus.Abi.BoxValue
import Nessus.Abi.Iterators
import Nessus.Abi.IteratorSteps
import Nessus.Abi.IteratorSafety
import Nessus.Abi.Iteration
import Nessus.Abi.ParamHashMap
import Nessus.Os.Environment
import Nessus.Tensor.Tensor
import Nessus.Tensor.Bitmap
import Nessus.Tensor.Permute
import Nessus.Tensor.Pixels
import Nessus.Tensor.Layouts
import Nessus.Register.Registry
import Nessus.Register.Counting
import Nessus.Register.Linear
import Nessus.Register.Stale
import Nessus.Memory.CircularQueue
import Nessus.Memory.CircularRefines
import Nessus.Memory.BlockingQueue
import Nessus.Memory.BlockingInv
import Nessus.Memory.PoolAllocator
import Nessus.Memory.PoolInv
import Nessus.Memory.CudaPool
import Nessus.Memory.CachingAllocator
import Nessus.Memory.CachingInv
import Nessus.Memory.CachingSpec
import Nessus.Memory.CachingStreams
import Nessus.Memory.DelegateCall
import Nessus.Memory.DelegateDelivery
import Nessus.Memory.Delegate
import Nessus.Memory.DelegateTokens
import Nessus.Parser.Json
import Nessus.Parser.Init
import Nessus.Parser.InitOnce
import Nessus.Parser.Writer
import Nessus.Parser.Reader
import Nessus.Parser.ReaderTotal
import Nessus.Parser.ReaderLex
import Nessus.Parser.ReaderComplete
import Nessus.Parser.Frame
import Nessus.Parser.FrameSpec
import Nessus.Parser.FrameMap
import Nessus.Parser.ReaderRoundTrip
import Nessus.Parser.NchwRepack
import Nessus.Parser.NhwcRepack
import Nessus.Parser.Nv21
import Nessus.Parser.FrameChecks
import Nessus.Parser.Base64X
import Nessus.Parser.Base64Decode
import Nessus.Parser.Base64Encode
import Nessus.Parser.Base64Path
import Nessus.Parser.CApi
import Nessus.Parser.InstanceId
import Nessus.Parser.Impl
import Nessus.Parser.StatusCode
import Nessus.Parser.CTotal
import Nessus.Parser.Jni
import Nessus.Parser.Licence
import Nessus.Parser.JniReturns
