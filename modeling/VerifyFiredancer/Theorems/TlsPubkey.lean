import VerifyFiredancer.TlsProto

/-!
# What the stub of the certificate parser can give

`fd_tls_extract_cert_pubkey` should stand for every parser that finds a key of 32 bytes within the certificate or fails. Its `ok`
is fixed to zero where the other stubs draw it, so no run succeeds (`TlsPubkeyAux.extract_eq_done_iff`): it stands for the
parsers of certificates that are too short for a key, and of no others (`tlsPubkey_exact_iff`).
-/

namespace VerifyFiredancer

open Harness

/-- The runs of the stub: the keys of the successful ones are the places of 32 bytes within the certificate, and it may fail. -/
structure ExtractsExactly (f : FdTlsExtractCertPubkeyRes → Outcome FdTlsExtractCertPubkeyRes) (cert : Nat) (certSz : Ulong) :
    Prop where
  successes : ∀ p, (∃ res, Possible f res ∧ res.pubkey = some p) ↔ ∃ o, o + 32 ≤ certSz.toNat ∧ p = cert + o
  fails : ∃ res, Possible f res ∧ res.pubkey = none

namespace TlsPubkeyAux

variable {raw x509 certType : Uint} {cert : Nat} {certSz : Ulong}

/-- Every run fails to find a key. -/
theorem extract_eq_done_iff (htype : certType = raw ∨ certType = x509) {res res' : FdTlsExtractCertPubkeyRes} :
    fdTlsExtractCertPubkey raw x509 cert certSz certType res = .done res' ↔ res' = { res with pubkey := none } := by
  have hand : ∀ x : Uchar, (0 : Uchar) &&& x = 0 := fun _ => BitVec.zero_and
  have hok : ¬((0 : Uchar) &&& (if 32 ≤ certSz then 1 else 0)) ≠ 0 := fun h => h (hand _)
  unfold fdTlsExtractCertPubkey
  simp only
  rw [sassert_bind_eq_done, assume_bind_eq_done, if_neg hok, pure_eq_done, eq_comm (a := res')]
  exact ⟨fun h => h.2.2, fun h => ⟨htype, by decide, h⟩⟩

end TlsPubkeyAux

open TlsPubkeyAux

/-- The stub gives what a parser can exactly when the certificate is too short for a key. -/
theorem tlsPubkey_exact_iff (raw x509 : Uint) (cert : Nat) (certSz : Ulong) (certType : Uint)
    (htype : certType = raw ∨ certType = x509) :
    ExtractsExactly (fdTlsExtractCertPubkey raw x509 cert certSz certType) cert certSz ↔ certSz.toNat < 32 := by
  have hnone : ∀ res p, Possible (fdTlsExtractCertPubkey raw x509 cert certSz certType) res → res.pubkey ≠ some p := by
    rintro res p ⟨nd, hnd⟩
    rw [(extract_eq_done_iff htype).1 hnd]
    exact nofun
  constructor
  · intro h
    by_contra hge
    obtain ⟨res, hrun, hp⟩ := (h.successes cert).2 ⟨0, by omega, rfl⟩
    exact hnone res cert hrun hp
  · intro hlt
    refine ⟨fun p => iff_of_false ?_ ?_, ⟨none, 0, 0⟩, ⟨⟨none, 0, 0⟩, (extract_eq_done_iff htype).2 rfl⟩, rfl⟩
    · rintro ⟨res, hrun, hp⟩
      exact hnone res p hrun hp
    · rintro ⟨o, ho, _⟩
      omega

/-- A certificate of 32 bytes at address 16, of the type that is two. -/
theorem tlsPubkey_exact_32 :
    ExtractsExactly (fdTlsExtractCertPubkey 2 0 16 32 2) 16 32 ↔ (32 : Ulong).toNat < 32 :=
  tlsPubkey_exact_iff 2 0 16 32 2 (Or.inl rfl)

/-- The key of a certificate of 32 bytes is never found. -/
theorem tlsPubkey_32_not_exact : ¬ExtractsExactly (fdTlsExtractCertPubkey 2 0 16 32 2) 16 32 := by
  intro h
  obtain ⟨res, ⟨nd, hnd⟩, hp⟩ := (h.successes 16).2 ⟨0, by decide, rfl⟩
  rw [(extract_eq_done_iff (Or.inl rfl)).1 hnd] at hp
  exact nomatch hp

end VerifyFiredancer
