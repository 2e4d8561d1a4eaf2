import Yacl.Math.UniversalHash
import Yacl.Dpf.EvalAll
import Yacl.Dpf.Dcf
import Yacl.Dpf.Pprf
import Yacl.Kernel.Iknp
import Yacl.Kernel.Kos
import Yacl.Kernel.Sgrr
import Yacl.Crypto.Vss
import Yacl.Crypto.Tpre
import Yacl.Link.SendChunkedWindow
import Yacl.Link.Shutdown.Graceful
import Yacl.Crypto.SyncDrbg
import Yacl.Crypto.Sm4Drbg
import Yacl.Crypto.Oprf
import Yacl.Kernel.SVoleKernel
import Yacl.Kernel.FerretKernel
import Yacl.Kernel.FerretCorrect
import Yacl.Math.IntrinsicField
import Yacl.Math.MpIntSerialize
import Yacl.Math.Montgomery
import Yacl.Math.SafePrime
import Yacl.Crypto.ToyWeierstrass
import Yacl.Link.MessageKeys
import Yacl.Utils.CircuitBytes
import Yacl.Utils.CuckooIndex
import Yacl.Kernel.MpVoleHistory
import Yacl.Crypto.FillPRand
import Yacl.Kernel.XorReduce
import Yacl.Link.AllGather
