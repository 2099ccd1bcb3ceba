import QuicFuscate.Framework.ByteReader
import QuicFuscate.Stealth.FakeTls

/-!
# Reading the forged handshake

A reader that trusts the length fields splits a byte string into handshake records and their messages.
Of the handshake with explicit parameters it finds the parameters again exactly if every record fits
into its two-byte length field.  The handshake of a profile has the shape that its parts announce exactly
if the profile has a certificate and one of the two hellos.
-/

namespace QuicFuscate.Stealth.FakeTls

open Framework Fec

/-! ## The reader -/

def readU16 : Reader UInt16 := do
  let hi ← readByte
  let lo ← readByte
  return fromBeBytes hi lo

def readU24 : Reader ℕ := do
  let b₂ ← readByte
  let b₁ ← readByte
  let b₀ ← readByte
  return b₂.toNat * 2 ^ 16 + b₁.toNat * 2 ^ 8 + b₀.toNat

def readMessage : Reader (UInt8 × List UInt8) := do
  let htype ← readByte
  let len ← readU24
  let body ← readRest
  require (body.length = len)
  return (htype, body)

def readRecord : Reader (UInt8 × List UInt8) := do
  let contentType ← readByte
  require (contentType = 0x16)
  let _ ← readU16
  let len ← readU16
  let fragment ← readBlock len.toNat
  let message ← ofOption (readMessage fragment)
  return message.1

def readRecords (bytes : List UInt8) : Option (List (UInt8 × List UInt8)) := readAll readRecord bytes.length bytes

def readWords : List UInt8 → Option (List UInt16)
  | [] => some []
  | [_] => none
  | hi :: lo :: rest => (readWords rest).map (fromBeBytes hi lo :: ·)

def readExtensions : Reader (List UInt8) := do
  let len ← readU16
  let extensions ← readRest
  require (extensions.length = len.toNat)
  return extensions

def readClientHello : Reader ClientHelloParams := do
  let tlsVersion ← readU16
  let _ ← readBlock 32
  let sessionIdLen ← readByte
  let _ ← readBlock sessionIdLen.toNat
  let suitesLen ← readU16
  let suites ← readBlock suitesLen.toNat
  let compressionLen ← readByte
  let _ ← readBlock compressionLen.toNat
  let extensions ← readExtensions
  let cipherSuites ← ofOption (readWords suites)
  return ⟨tlsVersion, cipherSuites, extensions⟩

def readServerHello : Reader ServerHelloParams := do
  let tlsVersion ← readU16
  let _ ← readBlock 32
  let sessionIdLen ← readByte
  let _ ← readBlock sessionIdLen.toNat
  let cipherSuite ← readU16
  let _ ← readByte
  let extensions ← readExtensions
  return ⟨tlsVersion, cipherSuite, extensions⟩

/-- The handshake splits into three records, and the given parameters and certificate are found in them. -/
def Readable (ch : ClientHelloParams) (sh : ServerHelloParams) (cert : List UInt8) : Prop :=
  ∃ clientBody serverBody, readRecords (handshakeCustomWithCert ch sh cert) =
      some [(0x01, clientBody), (0x02, serverBody), (0x0b, cert)] ∧
    ReadsAll readClientHello clientBody ch ∧ ReadsAll readServerHello serverBody sh

/-! ## Reading back -/

private theorem reads_u16 (v : UInt16) : Reads readU16 (beBytes16 v) v := by
  intro rest
  change some (fromBeBytes (toBeBytes v).1 (toBeBytes v).2, rest) = _
  rw [fromBeBytes_toBeBytes]

private theorem reads_u24 {n : ℕ} (hn : n < 2 ^ 24) : Reads readU24 ((beBytes32 (UInt32.ofNat n)).drop 1) n := by
  intro rest
  have hword : (UInt32.ofNat n).toNat = n := UInt32.toNat_ofNat_of_lt' (hn.trans (by decide))
  change some ((UInt8.ofNat ((UInt32.ofNat n).toNat / 2 ^ 16)).toNat * 2 ^ 16 +
    (UInt8.ofNat ((UInt32.ofNat n).toNat / 2 ^ 8)).toNat * 2 ^ 8 + (UInt8.ofNat (UInt32.ofNat n).toNat).toNat, rest) = _
  rw [hword]
  simp only [UInt8.toNat_ofNat', Option.some.injEq, Prod.mk.injEq, and_true]
  omega

private theorem readsAll_message {htype : UInt8} {payload : List UInt8} (h : payload.length < 2 ^ 24) :
    ReadsAll readMessage ([htype] ++ ((beBytes32 (UInt32.ofNat payload.length)).drop 1 ++ payload))
      (htype, payload) := by
  apply (reads_byte htype).bind_all
  apply (reads_u24 h).bind_all
  apply (readsAll_rest payload).bind
  exact (reads_require rfl).bind (reads_pure _)

private theorem reads_record {htype : UInt8} {payload : List UInt8} (h : payload.length + 4 < 2 ^ 16) :
    Reads readRecord (record htype payload) (htype, payload) := by
  have hmessage : readMessage ([htype] ++ ((beBytes32 (UInt32.ofNat payload.length)).drop 1 ++ payload)) =
      some ((htype, payload), []) := readsAll_message (by omega)
  have hlen : ([htype] ++ ((beBytes32 (UInt32.ofNat payload.length)).drop 1 ++ payload)).length =
      (UInt16.ofNat (payload.length + 4)).toNat := by
    rw [UInt16.toNat_ofNat_of_lt' h]
    simp [beBytes32]
  have hread : Reads readRecord ([0x16] ++ ([] ++ (beBytes16 0x0303 ++ (beBytes16 (UInt16.ofNat (payload.length + 4)) ++
      ([htype] ++ ((beBytes32 (UInt32.ofNat payload.length)).drop 1 ++ payload) ++ []))))) (htype, payload) := by
    apply (reads_byte 0x16).bind
    apply (reads_require rfl).bind
    apply (reads_u16 0x0303).bind
    apply (reads_u16 _).bind
    apply (reads_block _ hlen).bind
    exact (reads_ofOption hmessage).bind (reads_pure _)
  have hbytes : record htype payload = [0x16] ++ ([] ++
    (beBytes16 0x0303 ++ (beBytes16 (UInt16.ofNat (payload.length + 4)) ++
      ([htype] ++ ((beBytes32 (UInt32.ofNat payload.length)).drop 1 ++ payload) ++ [])))) := by
    simp [record, beBytes16, toBeBytes]
  rw [hbytes]
  exact hread

def clientPayload (ch : ClientHelloParams) : List UInt8 :=
  beBytes16 ch.tlsVersion ++ List.replicate 32 0 ++ [0] ++ beBytes16 (UInt16.ofNat (ch.cipherSuites.length * 2)) ++
    ch.cipherSuites.flatMap beBytes16 ++ [1] ++ [0] ++ beBytes16 (UInt16.ofNat ch.extensions.length) ++ ch.extensions

def serverPayload (sh : ServerHelloParams) : List UInt8 :=
  beBytes16 sh.tlsVersion ++ List.replicate 32 0 ++ [0] ++ beBytes16 sh.cipherSuite ++ [0] ++
    beBytes16 (UInt16.ofNat sh.extensions.length) ++ sh.extensions

private theorem length_flatMap_beBytes16 (ws : List UInt16) : (ws.flatMap beBytes16).length = ws.length * 2 := by
  induction ws with
  | nil => rfl
  | cons w ws ih =>
      rw [List.flatMap_cons, List.length_append, ih, List.length_cons]
      simp [beBytes16]
      omega

private theorem clientHelloCustom_eq (ch : ClientHelloParams) :
    clientHelloCustom ch = record 0x01 (clientPayload ch) := rfl

private theorem clientPayload_length (ch : ClientHelloParams) :
    (clientPayload ch).length = 41 + ch.cipherSuites.length * 2 + ch.extensions.length := by
  simp only [clientPayload, List.length_append, length_flatMap_beBytes16, List.length_replicate, beBytes16,
    List.length_cons, List.length_nil]
  omega

private theorem serverPayload_length (sh : ServerHelloParams) :
    (serverPayload sh).length = 40 + sh.extensions.length := by
  simp only [serverPayload, List.length_append, List.length_replicate, beBytes16, List.length_cons, List.length_nil]

private theorem readWords_flatMap (ws : List UInt16) : readWords (ws.flatMap beBytes16) = some ws := by
  induction ws with
  | nil => rfl
  | cons w ws ih =>
      rw [List.flatMap_cons]
      change (readWords (ws.flatMap beBytes16)).map (fromBeBytes (toBeBytes w).1 (toBeBytes w).2 :: ·) = _
      rw [ih, fromBeBytes_toBeBytes]
      rfl

private theorem readsAll_extensions {extensions : List UInt8} (h : extensions.length < 2 ^ 16) :
    ReadsAll readExtensions (beBytes16 (UInt16.ofNat extensions.length) ++ extensions) extensions := by
  apply (reads_u16 _).bind_all
  apply (readsAll_rest extensions).bind
  exact (reads_require (UInt16.toNat_ofNat_of_lt' h).symm).bind (reads_pure _)

private theorem readsAll_clientHello {ch : ClientHelloParams} (hsuites : ch.cipherSuites.length * 2 < 2 ^ 16)
    (hext : ch.extensions.length < 2 ^ 16) : ReadsAll readClientHello (clientPayload ch) ch := by
  have hlen : (ch.cipherSuites.flatMap beBytes16).length = (UInt16.ofNat (ch.cipherSuites.length * 2)).toNat := by
    rw [UInt16.toNat_ofNat_of_lt' hsuites, length_flatMap_beBytes16]
  simp only [clientPayload, List.append_assoc]
  apply (reads_u16 _).bind_all
  apply (reads_block _ List.length_replicate).bind_all
  apply (reads_byte 0).bind_all
  apply (reads_block [] rfl).bind_all
  apply (reads_u16 _).bind_all
  apply (reads_block _ hlen).bind_all
  apply (reads_byte 1).bind_all
  apply (reads_block [0] rfl).bind_all
  apply (readsAll_extensions hext).bind
  exact (reads_ofOption (readWords_flatMap ch.cipherSuites)).bind (reads_pure ch)

private theorem readsAll_serverHello {sh : ServerHelloParams} (hext : sh.extensions.length < 2 ^ 16) :
    ReadsAll readServerHello (serverPayload sh) sh := by
  simp only [serverPayload, List.append_assoc]
  apply (reads_u16 _).bind_all
  apply (reads_block _ List.length_replicate).bind_all
  apply (reads_byte 0).bind_all
  apply (reads_block [] rfl).bind_all
  apply (reads_u16 _).bind_all
  apply (reads_byte 0).bind_all
  apply (readsAll_extensions hext).bind
  exact reads_pure sh

/-! ## What has been read -/

variable {bytes rest : List UInt8}

private theorem readU16_length {v : UInt16} (h : readU16 bytes = some (v, rest)) : bytes.length = rest.length + 2 := by
  obtain ⟨hi, mid, hhi, h⟩ := bind_eq_some.mp h
  obtain ⟨lo, mid', hlo, h⟩ := bind_eq_some.mp h
  cases h
  rw [readByte_eq_some hhi, readByte_eq_some hlo]
  rfl

private theorem readU24_length {n : ℕ} (h : readU24 bytes = some (n, rest)) : bytes.length = rest.length + 3 := by
  obtain ⟨b₂, mid, h₂, h⟩ := bind_eq_some.mp h
  obtain ⟨b₁, mid', h₁, h⟩ := bind_eq_some.mp h
  obtain ⟨b₀, mid'', h₀, h⟩ := bind_eq_some.mp h
  cases h
  rw [readByte_eq_some h₂, readByte_eq_some h₁, readByte_eq_some h₀]
  rfl

private theorem readMessage_length {message : UInt8 × List UInt8} (h : readMessage bytes = some (message, rest)) :
    bytes.length = message.2.length + 4 := by
  obtain ⟨htype, mid, htyped, h⟩ := bind_eq_some.mp h
  obtain ⟨len, mid', hlen, h⟩ := bind_eq_some.mp h
  obtain ⟨body, mid'', hbody, h⟩ := bind_eq_some.mp h
  obtain ⟨u, mid₃, -, h⟩ := bind_eq_some.mp h
  rw [← pure_eq_some h, readRest_eq_some hbody, readByte_eq_some htyped, List.length_cons, readU24_length hlen]

private theorem readRecord_length {message : UInt8 × List UInt8} (h : readRecord bytes = some (message, rest)) :
    message.2.length + 4 < 2 ^ 16 := by
  obtain ⟨contentType, mid, -, h⟩ := bind_eq_some.mp h
  obtain ⟨u, mid', -, h⟩ := bind_eq_some.mp h
  obtain ⟨version, mid'', -, h⟩ := bind_eq_some.mp h
  obtain ⟨len, mid₃, -, h⟩ := bind_eq_some.mp h
  obtain ⟨fragment, mid₄, hfragment, h⟩ := bind_eq_some.mp h
  obtain ⟨⟨message', rest'⟩, mid₅, hmessage, h⟩ := bind_eq_some.mp h
  rw [← pure_eq_some h, ← readMessage_length (ofOption_eq_some hmessage), (readBlock_eq_some hfragment).2]
  exact len.toNat_lt

private theorem readWords_length {bs : List UInt8} {ws : List UInt16} (h : readWords bs = some ws) :
    bs.length = ws.length * 2 := by
  induction bs using readWords.induct generalizing ws with
  | case1 =>
      cases h
      rfl
  | case2 => cases h
  | case3 hi lo bs ih =>
      rw [readWords, Option.map_eq_some_iff] at h
      obtain ⟨ws', hws, rfl⟩ := h
      rw [List.length_cons, List.length_cons, ih hws, List.length_cons]
      omega

private theorem readExtensions_length {extensions : List UInt8} (h : readExtensions bytes = some (extensions, rest)) :
    bytes.length = extensions.length + 2 := by
  obtain ⟨len, mid, hlen, h⟩ := bind_eq_some.mp h
  obtain ⟨body, mid', hbody, h⟩ := bind_eq_some.mp h
  obtain ⟨u, mid'', -, h⟩ := bind_eq_some.mp h
  rw [← pure_eq_some h, readRest_eq_some hbody]
  exact readU16_length hlen

private theorem readClientHello_length {ch : ClientHelloParams} (h : readClientHello bytes = some (ch, rest)) :
    40 + ch.cipherSuites.length * 2 + ch.extensions.length ≤ bytes.length := by
  obtain ⟨version, mid₁, h₁, h⟩ := bind_eq_some.mp h
  obtain ⟨random, mid₂, h₂, h⟩ := bind_eq_some.mp h
  obtain ⟨sessionIdLen, mid₃, h₃, h⟩ := bind_eq_some.mp h
  obtain ⟨sessionId, mid₄, h₄, h⟩ := bind_eq_some.mp h
  obtain ⟨suitesLen, mid₅, h₅, h⟩ := bind_eq_some.mp h
  obtain ⟨suites, mid₆, h₆, h⟩ := bind_eq_some.mp h
  obtain ⟨compressionLen, mid₇, h₇, h⟩ := bind_eq_some.mp h
  obtain ⟨compression, mid₈, h₈, h⟩ := bind_eq_some.mp h
  obtain ⟨extensions, mid₉, h₉, h⟩ := bind_eq_some.mp h
  obtain ⟨cipherSuites, mid₁₀, hwords, h⟩ := bind_eq_some.mp h
  have hsuites := readWords_length (ofOption_eq_some hwords)
  have hend := readExtensions_length h₉
  rw [← pure_eq_some h, readU16_length h₁, (readBlock_eq_some h₂).1, readByte_eq_some h₃, (readBlock_eq_some h₄).1]
  simp only [List.length_append, List.length_cons]
  rw [readU16_length h₅, (readBlock_eq_some h₆).1, readByte_eq_some h₇, (readBlock_eq_some h₈).1]
  simp only [List.length_append, List.length_cons, (readBlock_eq_some h₂).2]
  omega

private theorem readServerHello_length {sh : ServerHelloParams} (h : readServerHello bytes = some (sh, rest)) :
    40 + sh.extensions.length ≤ bytes.length := by
  obtain ⟨version, mid₁, h₁, h⟩ := bind_eq_some.mp h
  obtain ⟨random, mid₂, h₂, h⟩ := bind_eq_some.mp h
  obtain ⟨sessionIdLen, mid₃, h₃, h⟩ := bind_eq_some.mp h
  obtain ⟨sessionId, mid₄, h₄, h⟩ := bind_eq_some.mp h
  obtain ⟨cipherSuite, mid₅, h₅, h⟩ := bind_eq_some.mp h
  obtain ⟨compression, mid₆, h₆, h⟩ := bind_eq_some.mp h
  obtain ⟨extensions, mid₇, h₇, h⟩ := bind_eq_some.mp h
  have hend := readExtensions_length h₇
  rw [← pure_eq_some h, readU16_length h₁, (readBlock_eq_some h₂).1, readByte_eq_some h₃, (readBlock_eq_some h₄).1]
  simp only [List.length_append, List.length_cons]
  rw [readU16_length h₅, readByte_eq_some h₆]
  simp only [List.length_cons, (readBlock_eq_some h₂).2]
  omega

/-! ## The handshake with explicit parameters -/

variable {ch : ClientHelloParams} {sh : ServerHelloParams} {cert : List UInt8}

private theorem record_ne_nil (htype : UInt8) (payload : List UInt8) : record htype payload ≠ [] := by simp [record]

private theorem readRecords_three {t₁ t₂ t₃ : UInt8} {p₁ p₂ p₃ : List UInt8} (h₁ : p₁.length + 4 < 2 ^ 16)
    (h₂ : p₂.length + 4 < 2 ^ 16)
    (h₃ : p₃.length + 4 < 2 ^ 16) : readRecords (record t₁ p₁ ++ (record t₂ p₂ ++ record t₃ p₃)) =
      some [(t₁, p₁), (t₂, p₂), (t₃, p₃)] := by
  have hfuel : ∃ fuel, (record t₁ p₁ ++ (record t₂ p₂ ++ record t₃ p₃)).length = fuel + 1 + 1 + 1 :=
    ⟨(record t₁ p₁ ++ (record t₂ p₂ ++ record t₃ p₃)).length - 3, by simp [record]⟩
  obtain ⟨fuel, hfuel⟩ := hfuel
  rw [readRecords, hfuel]
  apply readAll_append (record_ne_nil _ _) (reads_record h₁)
  apply readAll_append (record_ne_nil _ _) (reads_record h₂)
  rw [← List.append_nil (record t₃ p₃)]
  apply readAll_append (record_ne_nil _ _) (reads_record h₃)
  cases fuel <;> rfl

/-- A length of a whole `2 ^ 16` is written as zero, and no message fits into the record. -/
private theorem readRecord_full {htype : UInt8} {payload : List UInt8} (h : payload.length + 4 = 2 ^ 16)
    (rest : List UInt8) :
    readRecord (record htype payload ++ rest) = none := by
  rw [record, h]
  rfl

theorem Readable.fits (h : Readable ch sh cert) :
    (clientPayload ch).length + 4 < 2 ^ 16 ∧ (serverPayload sh).length + 4 < 2 ^ 16 ∧ cert.length + 4 < 2 ^ 16 := by
  obtain ⟨clientBody, serverBody, hrecords, hclient, hserver⟩ := h
  have hread := exists_read_of_mem hrecords
  obtain ⟨xs₁, rest₁, hfirst⟩ := hread (0x01, clientBody) (by simp)
  obtain ⟨xs₂, rest₂, hsecond⟩ := hread (0x02, serverBody) (by simp)
  obtain ⟨xs₃, rest₃, hthird⟩ := hread (0x0b, cert) (by simp)
  have hbody := readRecord_length hfirst
  have hclientLength := readClientHello_length hclient
  have hserverLength := readServerHello_length hserver
  refine ⟨?_, ?_, readRecord_length hthird⟩
  · -- the compression method leaves one length open, at which the field is zero
    rw [clientPayload_length]
    by_contra hge
    have hfull : (clientPayload ch).length + 4 = 2 ^ 16 := by
      rw [clientPayload_length]
      dsimp only at hbody
      omega
    obtain ⟨rest, hhead⟩ := exists_read_of_cons hrecords
    rw [handshakeCustomWithCert, clientHelloCustom_eq, readRecord_full hfull] at hhead
    cases hhead
  · rw [serverPayload_length]
    have hbody := readRecord_length hsecond
    dsimp only at hbody
    omega

/-- The handshake is read back exactly if every record fits into its length field: a ClientHello takes 45 bytes
besides suites and extensions, a ServerHello 44 besides extensions and a certificate record 4 besides the
certificate. -/
theorem handshakeCustomWithCert_readable_iff (ch : ClientHelloParams) (sh : ServerHelloParams) (cert : List UInt8) :
    Readable ch sh cert ↔ 45 + 2 * ch.cipherSuites.length + ch.extensions.length < 2 ^ 16 ∧
      44 + sh.extensions.length < 2 ^ 16 ∧ 4 + cert.length < 2 ^ 16 := by
  constructor
  · intro h
    obtain ⟨hclient, hserver, hcert⟩ := h.fits
    rw [clientPayload_length] at hclient
    rw [serverPayload_length] at hserver
    omega
  · rintro ⟨hclient, hserver, hcert⟩
    have hfirst : (clientPayload ch).length + 4 < 2 ^ 16 := by
      rw [clientPayload_length]
      omega
    have hsecond : (serverPayload sh).length + 4 < 2 ^ 16 := by
      rw [serverPayload_length]
      omega
    exact ⟨clientPayload ch, serverPayload sh, readRecords_three hfirst hsecond (by omega),
      readsAll_clientHello (by omega) (by omega), readsAll_serverHello (by omega)⟩

/-- A certificate of 65532 bytes gives a record whose length field is zero. -/
theorem long_certificate_unreadable :
    ¬ Readable ⟨0x0303, [0x1301], []⟩ ⟨0x0303, 0x1301, []⟩ (List.replicate 65532 0) := by
  intro h
  have hcert := h.fits.2.2
  rw [List.length_replicate] at hcert
  omega

/-! ## The handshake of a profile -/

variable {profile : FingerprintProfile}

def certificatePart (profile : FingerprintProfile) : List UInt8 :=
  match profile.certificate with
  | none => defaultCertificate
  | some cert => certificateRecord cert

/-- The ClientHello of the profile, one ServerHello record and one certificate record. -/
def OneShape (profile : FingerprintProfile) : Prop :=
  ∃ payload, handshake profile = clientHello profile ++ record 0x02 payload ++ certificatePart profile

private theorem serverHelloCustom_eq (sh : ServerHelloParams) :
    serverHelloCustom sh = record 0x02 (serverPayload sh) := rfl

private theorem beBytes16_injective : Function.Injective beBytes16 := by
  intro v w h
  have hread := reads_u16 v []
  rw [h, reads_u16 w []] at hread
  simpa using hread.symm

private theorem record_append_length {t : UInt8} {p q xs ys : List UInt8} (h : record t p ++ xs = record t q ++ ys) :
    (p.length + 4) % 2 ^ 16 = (q.length + 4) % 2 ^ 16 := by
  simp only [record, List.append_assoc] at h
  have hfield := (List.append_inj (List.append_cancel_left h) rfl).1
  simpa using congrArg UInt16.toNat (beBytes16_injective hfield)

/-- Without a hello of its own, the profile is answered by a ClientHello that is built and not by the default one. -/
private theorem not_oneShape_of_no_hello (hch : profile.clientHello = none) (hsh : profile.serverHello = none) :
    ¬ OneShape profile := by
  rintro ⟨payload, h⟩
  have hbranch : handshake profile = handshakeCustomWithCert ⟨0x0303, [profile.tlsCipherSuites.head?.getD 0x1301], []⟩
      ⟨0x0303, profile.tlsCipherSuites.head?.getD 0x1301, []⟩ (profile.certificate.getD defaultCertificate) := by
    simp [handshake, hch, hsh]
  have hdefault : clientHello profile = defaultClientHello := by simp [clientHello, hch]
  rw [hbranch, hdefault, handshakeCustomWithCert, clientHelloCustom, record] at h
  -- the versions in the first record differ
  have hversion := congrArg (·[2]?) h
  simp [defaultClientHello] at hversion

private theorem handshake_of_hello (h : profile.clientHello.isSome ∨ profile.serverHello.isSome) :
    ∃ sh, handshake profile =
      clientHello profile ++ (serverHelloCustom sh ++
        certificateRecord (profile.certificate.getD defaultCertificate)) := by
  have hbranch : (profile.clientHello.isNone && profile.serverHello.isNone) = false := by
    rcases h with h | h
    · rw [Option.isNone_eq_false_iff.mpr h, Bool.false_and]
    · rw [Option.isNone_eq_false_iff.mpr h, Bool.and_false]
  refine ⟨profile.serverHello.getD ⟨0x0303, profile.tlsCipherSuites.head?.getD 0x1301, []⟩, ?_⟩
  simp [handshake, hbranch, serverResponseCustom]

/-- Without a certificate the default one, which is a record, is put into a second record. -/
private theorem not_oneShape_of_no_certificate (h : profile.clientHello.isSome ∨ profile.serverHello.isSome)
    (hcert : profile.certificate = none) : ¬ OneShape profile := by
  rintro ⟨payload, hshape⟩
  obtain ⟨sh, hsh⟩ := handshake_of_hello h
  rw [hsh, certificatePart, hcert, List.append_assoc] at hshape
  have htail := List.append_cancel_left hshape
  rw [serverHelloCustom_eq] at htail
  have hfield := record_append_length htail
  have hlength : (serverPayload sh).length + 9 = payload.length := by
    have htotal := congrArg List.length htail
    simp [record, certificateRecord, defaultCertificate, beBytes16, beBytes32] at htotal
    omega
  omega

/-- The handshake of a profile has one shape exactly if the profile has a certificate and a hello. -/
theorem handshake_oneShape_iff (profile : FingerprintProfile) :
    OneShape profile ↔ profile.certificate.isSome ∧ (profile.clientHello.isSome ∨ profile.serverHello.isSome) := by
  constructor
  · intro h
    have hhello : profile.clientHello.isSome ∨ profile.serverHello.isSome := by
      by_contra hnone
      simp only [Bool.not_eq_true, Option.isSome_eq_false_iff, Option.isNone_iff_eq_none, not_or] at hnone
      exact not_oneShape_of_no_hello hnone.1 hnone.2 h
    refine ⟨?_, hhello⟩
    by_contra hnone
    exact not_oneShape_of_no_certificate hhello (by simpa using hnone) h
  · rintro ⟨hcert, hhello⟩
    obtain ⟨cert, hcert⟩ := Option.isSome_iff_exists.mp hcert
    obtain ⟨sh, hsh⟩ := handshake_of_hello hhello
    refine ⟨serverPayload sh, ?_⟩
    rw [hsh, certificatePart, hcert, List.append_assoc]
    rfl

/-- A browser's profile comes without ServerHello and certificate, and with a ClientHello only if one was recorded. -/
theorem browser_profile_not_oneShape : ¬ OneShape ⟨[0x1301, 0x1302, 0x1303], none, none, none⟩ ∧
    ¬ OneShape ⟨[0x1301, 0x1302, 0x1303], some [0x16, 0x03, 0x01, 0x00, 0x00], none, none⟩ :=
  ⟨not_oneShape_of_no_hello rfl rfl, not_oneShape_of_no_certificate (.inl rfl) rfl⟩

end QuicFuscate.Stealth.FakeTls
