import VerifyFiredancer.TlsProto

/-!
# What the decoders of the TLS stubs can give

The stubs of the decoders draw a size and two parts of the wire buffer, and constrain them by `off < s` and `sz < s - off`. The
parts of a message of size `s` are those with `off + sz ≤ s`, so the second assumption, strict as the first one, cuts every run in
which a part ends where the message does (`TlsDecodeAux.decodeEncExt_before`, `TlsDecodeAux.decodeClientHello_before`). Every
message has such parts, so the stubs give what they should on an empty buffer only (`tlsDecode_exact_iff`).
-/

namespace VerifyFiredancer

open Harness

/-- A part of the first `s` bytes of a wire buffer. -/
def PartOf (wire s : Nat) (part : FdTlsExtOpaque) : Prop :=
  ∃ off, off < s ∧ off + part.bufsz.toNat ≤ s ∧ part.buf = wire + off

/-- A part of the first `s` bytes of a wire buffer that ends before the last of them does. -/
def PartBefore (wire s : Nat) (part : FdTlsExtOpaque) : Prop :=
  ∃ off, off < s ∧ off + part.bufsz.toNat < s ∧ part.buf = wire + off

/-- The runs of a decoder: none fails; some return -1; and the others are those that return a size within the wire buffer, with
any `quic_tp` and any `alpn` that are parts of so many bytes. -/
structure Decodes (part : Nat → Nat → FdTlsExtOpaque → Prop) {Out : Type} (f : DecodeNd Out → Outcome (Long × Out))
    (quicTp alpn : Out → FdTlsExtOpaque) (wire : Nat) (wireSz : Ulong) : Prop where
  safe : Safe f
  fails : ∃ out, Possible f (-1, out)
  successes : ∀ (s : Long) (quic al : FdTlsExtOpaque),
    (∃ out, Possible f (s, out) ∧ s ≠ -1 ∧ quicTp out = quic ∧ alpn out = al) ↔
      1 ≤ s.toNat ∧ s ≤ wireSz ∧ part wire s.toNat quic ∧ part wire s.toNat al

namespace TlsDecodeAux

/-! ## One part -/

/-- The part a draw gives. -/
theorem ndPart_eq_done_iff {wire : Nat} {s off sz : Ulong} {part : FdTlsExtOpaque} :
    ndPart wire s off sz = .done part ↔ off < s ∧ sz < s - off ∧ part = ⟨wire + off.toNat, sz⟩ := by
  rw [ndPart, assume_bind_eq_done, assume_bind_eq_done, pure_eq_done, eq_comm (a := part)]

/-- A draw of a part does not fail. -/
theorem ndPart_ne_failed (wire : Nat) (s off sz : Ulong) : ndPart wire s off sz ≠ .failed :=
  assume_bind_ne_failed fun _ => assume_bind_ne_failed fun _ => pure_ne_failed

/-- The parts that draws give. -/
theorem exists_ndPart_iff {wire : Nat} {s : Ulong} {part : FdTlsExtOpaque} :
    (∃ off sz, ndPart wire s off sz = .done part) ↔ PartBefore wire s.toNat part := by
  constructor
  · rintro ⟨off, sz, h⟩
    obtain ⟨hoff, hsz, rfl⟩ := ndPart_eq_done_iff.1 h
    have hsub := BitVec.toNat_sub_of_le (BitVec.le_of_lt hoff)
    rw [BitVec.lt_def] at hoff hsz
    exact ⟨off.toNat, hoff, by simp only; omega, rfl⟩
  · rintro ⟨off, hoff, hsz, hbuf⟩
    have hs := s.isLt
    have hval : (BitVec.ofNat 64 off).toNat = off := by rw [BitVec.toNat_ofNat, Nat.mod_eq_of_lt (by omega)]
    have hlt : BitVec.ofNat 64 off < s := by rw [BitVec.lt_def, hval]; exact hoff
    have hsub := BitVec.toNat_sub_of_le (BitVec.le_of_lt hlt)
    refine ⟨BitVec.ofNat 64 off, part.bufsz, ndPart_eq_done_iff.2 ⟨hlt, ?_, ?_⟩⟩
    · rw [BitVec.lt_def, hsub, hval]
      omega
    · obtain ⟨buf, bufsz⟩ := part
      rw [hval]
      exact congrArg (fun b => FdTlsExtOpaque.mk b bufsz) hbuf

/-- The end of a decoder: the draws of both parts, and the size it returns. -/
theorem parts_eq_done_iff {wire : Nat} {actualSz qoff qsz aoff asz : Ulong} {Out : Type}
    {put : FdTlsExtOpaque → FdTlsExtOpaque → Out} {s : Long} {out : Out} :
    (do
      let quic ← ndPart wire actualSz qoff qsz
      let al ← ndPart wire actualSz aoff asz
      pure (actualSz, put quic al)) = Outcome.done (s, out) ↔
    s = actualSz ∧ ∃ quic al, ndPart wire actualSz qoff qsz = .done quic ∧ ndPart wire actualSz aoff asz = .done al ∧
      out = put quic al := by
  simp only [bind_eq_done, pure_eq_done, Prod.mk.injEq]
  constructor
  · rintro ⟨quic, hq, al, ha, rfl, rfl⟩
    exact ⟨rfl, quic, al, hq, ha, rfl⟩
  · rintro ⟨rfl, quic, al, hq, ha, rfl⟩
    exact ⟨quic, hq, al, ha, rfl, rfl⟩

theorem parts_ne_failed {wire : Nat} {actualSz qoff qsz aoff asz : Ulong} {Out : Type}
    {put : FdTlsExtOpaque → FdTlsExtOpaque → Out} :
    (do
      let quic ← ndPart wire actualSz qoff qsz
      let al ← ndPart wire actualSz aoff asz
      pure ((actualSz : Long), put quic al)) ≠ Outcome.failed :=
  bind_ne_failed (ndPart_ne_failed _ _ _ _) fun _ _ => bind_ne_failed (ndPart_ne_failed _ _ _ _) fun _ _ => pure_ne_failed

/-! ## The decoders -/

section Decoders

variable {deref : Nat → Ulong → Bool} {wire : Nat} {wireSz : Ulong} {Out : Type}

/-- The runs of a decoder that wants `ok` of what it is left in `out`, and puts the two parts there with `put`. -/
structure DecoderRuns (deref : Nat → Ulong → Bool) (wire : Nat) (wireSz : Ulong) (f : DecodeNd Out → Outcome (Long × Out))
    (ok : Out → Prop) (put : Out → FdTlsExtOpaque → FdTlsExtOpaque → Out) : Prop where
  done_iff : ∀ nd s out, f nd = .done (s, out) ↔
    nd.actualSz ≠ 0 ∧
      if wireSz < nd.actualSz then s = -1 ∧ out = nd.out
      else deref wire nd.actualSz = true ∧ ok nd.out ∧ s = nd.actualSz ∧
        ∃ quic al, ndPart wire nd.actualSz nd.quicTpOff nd.quicTpSz = .done quic ∧
          ndPart wire nd.actualSz nd.alpnOff nd.alpnSz = .done al ∧ out = put nd.out quic al
  safe : (∀ n, n ≤ wireSz → deref wire n = true) → Safe f

/-- A decoder that compares the sizes and checks the buffer before the rest of its body. -/
theorem DecoderRuns.of_body {f : DecodeNd Out → Outcome (Long × Out)} {ok : Out → Prop}
    {put : Out → FdTlsExtOpaque → FdTlsExtOpaque → Out} (body : DecodeNd Out → Outcome (Long × Out))
    (heq : ∀ nd, f nd = assume (nd.actualSz ≠ 0) >>= fun _ =>
      if wireSz < nd.actualSz then pure (-1, nd.out) else sassert (deref wire nd.actualSz = true) >>= fun _ => body nd)
    (hdone : ∀ nd s out, body nd = .done (s, out) ↔ ok nd.out ∧ s = nd.actualSz ∧
      ∃ quic al, ndPart wire nd.actualSz nd.quicTpOff nd.quicTpSz = .done quic ∧
        ndPart wire nd.actualSz nd.alpnOff nd.alpnSz = .done al ∧ out = put nd.out quic al)
    (hsafe : ∀ nd, body nd ≠ .failed) : DecoderRuns deref wire wireSz f ok put where
  done_iff := by
    intro nd s out
    rw [heq, assume_bind_eq_done]
    refine and_congr_right fun _ => ?_
    split_ifs with hlt
    · rw [pure_eq_done, Prod.mk.injEq, eq_comm (a := s), eq_comm (a := out)]
    · rw [sassert_bind_eq_done, hdone]
  safe := by
    intro hbuf nd
    rw [heq]
    refine assume_bind_ne_failed fun _ => ?_
    split_ifs with hlt
    · exact pure_ne_failed
    · exact sassert_bind_ne_failed (hbuf _ (BitVec.not_lt.1 hlt)) (hsafe nd)

/-- The runs of `fd_tls_decode_enc_ext`. -/
theorem decodeEncExt_runs :
    DecoderRuns deref wire wireSz (fdTlsDecodeEncExt deref wire wireSz) (fun _ => True)
      fun out quic al => { out with quicTp := quic, alpn := al } := by
  refine DecoderRuns.of_body _ (fun nd => rfl) (fun nd s out => ?_) fun nd => parts_ne_failed
  rw [parts_eq_done_iff, true_and]

/-- The runs of `fd_tls_decode_client_hello`: the server name is empty or ends with a NUL. -/
theorem decodeClientHello_runs :
    DecoderRuns deref wire wireSz (fdTlsDecodeClientHello deref wire wireSz)
      (fun out => out.serverName.hostNameLen ≤ 253 ∧
        (out.serverName.hostNameLen = 0 ∨ out.serverName.hostName (out.serverName.hostNameLen - 1).toNat = 0))
      fun out quic al => { out with quicTp := quic, alpn := al } := by
  refine DecoderRuns.of_body _ (fun nd => rfl) (fun nd s out => ?_) fun nd =>
    assume_bind_ne_failed fun _ => assume_bind_ne_failed fun _ => parts_ne_failed
  rw [assume_bind_eq_done, assume_bind_eq_done, parts_eq_done_iff, and_assoc]

/-- A decoder gives exactly the parts that end before the message does. -/
theorem DecoderRuns.before {f : DecodeNd Out → Outcome (Long × Out)} {ok : Out → Prop}
    {put : Out → FdTlsExtOpaque → FdTlsExtOpaque → Out} {quicTp alpn : Out → FdTlsExtOpaque}
    (h : DecoderRuns deref wire wireSz f ok put) (hquic : ∀ out quic al, quicTp (put out quic al) = quic)
    (halpn : ∀ out quic al, alpn (put out quic al) = al) (out₀ : Out) (hok : ok out₀) (hsz : wireSz.toNat < longMax)
    (hbuf : ∀ n, n ≤ wireSz → deref wire n = true) : Decodes PartBefore f quicTp alpn wire wireSz where
  safe := h.safe hbuf
  fails := by
    have hlt : wireSz < ulongMax := by
      have hmax : ulongMax.toNat = 2 ^ 64 - 1 := rfl
      unfold longMax at hsz
      rw [BitVec.lt_def]
      omega
    have hne : ulongMax ≠ 0 := by decide
    refine ⟨out₀, ⟨out₀, ulongMax, 0, 0, 0, 0⟩, (h.done_iff _ _ _).2 ⟨hne, ?_⟩⟩
    rw [if_pos hlt]
    exact ⟨rfl, rfl⟩
  successes := by
    intro s quic al
    constructor
    · rintro ⟨out, ⟨nd, hnd⟩, hne, rfl, rfl⟩
      obtain ⟨hpos, hrun⟩ := (h.done_iff nd s out).1 hnd
      split_ifs at hrun with hlt
      · exact absurd hrun.1 hne
      · obtain ⟨_, _, rfl, quic, al, hq, ha, rfl⟩ := hrun
        have hzero : nd.actualSz.toNat ≠ 0 := fun e => hpos (BitVec.eq_of_toNat_eq e)
        rw [hquic, halpn]
        exact ⟨Nat.one_le_iff_ne_zero.2 hzero, BitVec.not_lt.1 hlt, exists_ndPart_iff.1 ⟨_, _, hq⟩,
          exists_ndPart_iff.1 ⟨_, _, ha⟩⟩
    · rintro ⟨hpos, hle, hq, ha⟩
      obtain ⟨qoff, qsz, hq⟩ := exists_ndPart_iff.2 hq
      obtain ⟨aoff, asz, ha⟩ := exists_ndPart_iff.2 ha
      have hzero : s ≠ 0 := by
        rintro rfl
        exact absurd hpos (by decide)
      have hne : s ≠ -1 := by
        rintro rfl
        have hmax : (-1 : Long).toNat = 2 ^ 64 - 1 := rfl
        unfold longMax at hsz
        rw [BitVec.le_def] at hle
        omega
      refine ⟨put out₀ quic al, ⟨⟨out₀, s, qoff, qsz, aoff, asz⟩, (h.done_iff _ _ _).2 ⟨hzero, ?_⟩⟩, hne, hquic _ _ _,
        halpn _ _ _⟩
      rw [if_neg (BitVec.not_lt.2 hle)]
      exact ⟨hbuf s hle, hok, rfl, quic, al, hq, ha, rfl⟩

/-- `fd_tls_decode_enc_ext` gives exactly the parts that end before the message does. -/
theorem decodeEncExt_before (hsz : wireSz.toNat < longMax) (hbuf : ∀ n, n ≤ wireSz → deref wire n = true) :
    Decodes PartBefore (fdTlsDecodeEncExt deref wire wireSz) FdTlsEncExt.quicTp FdTlsEncExt.alpn wire wireSz :=
  decodeEncExt_runs.before (fun _ _ _ => rfl) (fun _ _ _ => rfl) ⟨⟨0, 0⟩, ⟨0, 0⟩⟩ trivial hsz hbuf

/-- `fd_tls_decode_client_hello` gives exactly the parts that end before the message does. -/
theorem decodeClientHello_before (hsz : wireSz.toNat < longMax) (hbuf : ∀ n, n ≤ wireSz → deref wire n = true) :
    Decodes PartBefore (fdTlsDecodeClientHello deref wire wireSz) FdTlsClientHello.quicTp FdTlsClientHello.alpn wire
      wireSz :=
  decodeClientHello_runs.before (fun _ _ _ => rfl) (fun _ _ _ => rfl) ⟨⟨0, fun _ => 0⟩, ⟨0, 0⟩, ⟨0, 0⟩⟩
    ⟨by decide, Or.inl rfl⟩ hsz hbuf

/-- A decoder that gives the parts that end before the message does gives all parts of an empty buffer only: the one byte of a
message of size one is never given. -/
theorem decodes_partOf_iff {f : DecodeNd Out → Outcome (Long × Out)} {quicTp alpn : Out → FdTlsExtOpaque}
    (h : Decodes PartBefore f quicTp alpn wire wireSz) : Decodes PartOf f quicTp alpn wire wireSz ↔ wireSz = 0 := by
  constructor
  · intro hall
    by_contra hne
    have hpos : 1 ≤ wireSz.toNat := Nat.one_le_iff_ne_zero.2 fun e => hne (BitVec.eq_of_toNat_eq e)
    have hle : (1 : Long) ≤ wireSz := BitVec.le_def.2 hpos
    have hpart : PartOf wire (1 : Long).toNat ⟨wire, 1⟩ := ⟨0, Nat.one_pos, Nat.le_refl 1, rfl⟩
    have hrun := (hall.successes 1 ⟨wire, 1⟩ ⟨wire, 1⟩).2 ⟨Nat.le_refl 1, hle, hpart, hpart⟩
    obtain ⟨_, _, ⟨off, hoff, hend, _⟩, _⟩ := (h.successes 1 ⟨wire, 1⟩ ⟨wire, 1⟩).1 hrun
    have hlt : off + 1 < 1 := hend
    omega
  · rintro rfl
    refine ⟨h.safe, h.fails, fun s quic al => (h.successes s quic al).trans ?_⟩
    have hzero : (0 : Ulong).toNat = 0 := rfl
    constructor
    · rintro ⟨hpos, hle, _⟩
      rw [BitVec.le_def] at hle
      omega
    · rintro ⟨hpos, hle, _⟩
      rw [BitVec.le_def] at hle
      omega

end Decoders

end TlsDecodeAux

open TlsDecodeAux

/-- On a wire buffer that can be read, the decoders give all parts of a message exactly when the buffer is empty. -/
theorem tlsDecode_exact_iff (deref : Nat → Ulong → Bool) (wire : Nat) (wireSz : Ulong) (hsz : wireSz.toNat < longMax)
    (hbuf : ∀ n, n ≤ wireSz → deref wire n = true) :
    (Decodes PartOf (fdTlsDecodeClientHello deref wire wireSz) FdTlsClientHello.quicTp FdTlsClientHello.alpn wire wireSz ↔
      wireSz = 0) ∧
    (Decodes PartOf (fdTlsDecodeEncExt deref wire wireSz) FdTlsEncExt.quicTp FdTlsEncExt.alpn wire wireSz ↔ wireSz = 0) :=
  ⟨decodes_partOf_iff (decodeClientHello_before hsz hbuf), decodes_partOf_iff (decodeEncExt_before hsz hbuf)⟩

/-- A wire buffer of eight bytes at address 16. -/
theorem tlsDecode_exact_eight :
    (Decodes PartOf (fdTlsDecodeClientHello (fun a n => a == 16 && n ≤ 8) 16 8) FdTlsClientHello.quicTp
      FdTlsClientHello.alpn 16 8 ↔ (8 : Ulong) = 0) ∧
    (Decodes PartOf (fdTlsDecodeEncExt (fun a n => a == 16 && n ≤ 8) 16 8) FdTlsEncExt.quicTp FdTlsEncExt.alpn 16 8 ↔
      (8 : Ulong) = 0) :=
  tlsDecode_exact_iff (fun a n => a == 16 && n ≤ 8) 16 8 (by decide) fun n hn => by simpa using hn

/-- On a wire buffer of one byte neither decoder gives that byte as a part. -/
theorem tlsDecode_one_not_exact :
    ¬Decodes PartOf (fdTlsDecodeClientHello (fun a n => a == 16 && n ≤ 1) 16 1) FdTlsClientHello.quicTp
      FdTlsClientHello.alpn 16 1 ∧
    ¬Decodes PartOf (fdTlsDecodeEncExt (fun a n => a == 16 && n ≤ 1) 16 1) FdTlsEncExt.quicTp FdTlsEncExt.alpn 16 1 := by
  have hbuf : ∀ n : Ulong, n ≤ 1 → ((16 : Nat) == 16 && decide (n ≤ 1)) = true := fun n hn => by simpa using hn
  have hsz : (1 : Ulong).toNat < longMax := by decide
  refine ⟨fun h => ?_, fun h => ?_⟩
  · exact absurd ((decodes_partOf_iff (decodeClientHello_before hsz hbuf)).1 h) (by decide)
  · exact absurd ((decodes_partOf_iff (decodeEncExt_before hsz hbuf)).1 h) (by decide)

end VerifyFiredancer
