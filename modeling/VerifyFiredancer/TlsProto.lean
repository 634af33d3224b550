import VerifyFiredancer.Bits
import VerifyFiredancer.Lib.Harness

/-!
# TlsProto: the stubs that stand for the parsers of the TLS handshake

For the proofs of the handshake the parsers of `fd_tls_proto.c` are replaced by stubs, which fill their result with anything and
constrain it by assumptions. The functions are those of `fd_tls_proto_override.c`; the values a stub draws are an argument.

`fd_tls_proto.h` is not part of the sources: the structures have the fields that the stubs read or write, at the widths they use
them, and the values of `FD_TLS_CERTTYPE_RAW_PUBKEY` and `FD_TLS_CERTTYPE_X509` are parameters. So is `sea_is_dereferenceable`,
which belongs to the model checker.
-/

namespace VerifyFiredancer

open Harness

/-- A part of a wire buffer: `quic_tp` and `alpn` of a decoded message. -/
structure FdTlsExtOpaque where
  buf : Nat
  bufsz : Ulong
  deriving DecidableEq

/-- `server_name` of a client hello. -/
structure FdTlsExtServerName where
  hostNameLen : Ulong
  hostName : Nat → Uchar

/-- `fd_tls_client_hello_t`. -/
structure FdTlsClientHello where
  serverName : FdTlsExtServerName
  quicTp : FdTlsExtOpaque
  alpn : FdTlsExtOpaque

/-- `fd_tls_enc_ext_t`. -/
structure FdTlsEncExt where
  quicTp : FdTlsExtOpaque
  alpn : FdTlsExtOpaque
  deriving DecidableEq

/-- What the decoders draw: the bytes `memhavoc` leaves in `out`, the size, and the two parts. -/
structure DecodeNd (Out : Type) where
  out : Out
  actualSz : Ulong
  quicTpOff : Ulong
  quicTpSz : Ulong
  alpnOff : Ulong
  alpnSz : Ulong

/-- The draw of one part of the wire buffer. -/
def ndPart (wire : Nat) (actualSz off sz : Ulong) : Outcome FdTlsExtOpaque := do
  assume (off < actualSz)
  assume (sz < actualSz - off)
  pure { buf := wire + off.toNat, bufsz := sz }

section Dereferenceable

variable (seaIsDereferenceable : Nat → Ulong → Bool)

/-- `fd_tls_decode_client_hello`: what it returns and what it leaves in `out`. -/
def fdTlsDecodeClientHello (wire : Nat) (wireSz : Ulong) (nd : DecodeNd FdTlsClientHello) :
    Outcome (Long × FdTlsClientHello) := do
  let out := nd.out
  let actualSz := nd.actualSz
  assume (actualSz ≠ 0)
  if wireSz < actualSz then
    return (-1, out)
  sassert (seaIsDereferenceable wire actualSz)
  assume (out.serverName.hostNameLen ≤ 253)
  assume (out.serverName.hostNameLen = 0 ∨ out.serverName.hostName (out.serverName.hostNameLen - 1).toNat = 0)
  let quicTp ← ndPart wire actualSz nd.quicTpOff nd.quicTpSz
  let out := { out with quicTp := quicTp }
  let alpn ← ndPart wire actualSz nd.alpnOff nd.alpnSz
  let out := { out with alpn := alpn }
  return (actualSz, out)

/-- `fd_tls_decode_enc_ext`: what it returns and what it leaves in `out`. -/
def fdTlsDecodeEncExt (wire : Nat) (wireSz : Ulong) (nd : DecodeNd FdTlsEncExt) : Outcome (Long × FdTlsEncExt) := do
  let out := nd.out
  let actualSz := nd.actualSz
  assume (actualSz ≠ 0)
  if wireSz < actualSz then
    return (-1, out)
  sassert (seaIsDereferenceable wire actualSz)
  let quicTp ← ndPart wire actualSz nd.quicTpOff nd.quicTpSz
  let out := { out with quicTp := quicTp }
  let alpn ← ndPart wire actualSz nd.alpnOff nd.alpnSz
  let out := { out with alpn := alpn }
  return (actualSz, out)

end Dereferenceable

/-- `fd_tls_extract_cert_pubkey_res_t`. -/
structure FdTlsExtractCertPubkeyRes where
  pubkey : Option Nat
  alert : Uint
  reason : Uint
  deriving DecidableEq

/-- `fd_tls_extract_cert_pubkey`. What it draws is the content of `res`, which starts out unconstrained; `ok` is fixed. -/
def fdTlsExtractCertPubkey (fdTlsCerttypeRawPubkey fdTlsCerttypeX509 : Uint) (cert : Nat) (certSz : Ulong) (certType : Uint)
    (res : FdTlsExtractCertPubkeyRes) : Outcome FdTlsExtractCertPubkeyRes := do
  sassert (certType = fdTlsCerttypeRawPubkey ∨ certType = fdTlsCerttypeX509)
  let ok : Uchar := 0
  assume (ok ≤ 1)
  let ok := ok &&& (if 32 ≤ certSz then 1 else 0)
  if ok ≠ 0 then
    assume (cert ≤ res.pubkey.getD 0 ∧ res.pubkey.getD 0 < cert + certSz.toNat - 32)
    return { res with alert := 0, reason := 0 }
  else
    return { res with pubkey := none }

end VerifyFiredancer
