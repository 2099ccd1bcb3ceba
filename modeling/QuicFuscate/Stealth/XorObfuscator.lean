import QuicFuscate.Fec.GfTables

/-!
# XOR obfuscation of payloads

A payload is masked with a cyclic key, in chunks of the width of the vector unit and byte by byte
behind them, and the key is replaced by its digest after every packet.
-/

namespace QuicFuscate.Stealth

open Framework Fec

structure CpuFeatures where
  avx512f : Bool
  avx512vbmi : Bool
  avx2 : Bool
  sse2 : Bool
  neon : Bool
  pclmulqdq : Bool
  deriving DecidableEq, Repr

def dispatch (cpu : CpuFeatures) : SimdPolicy :=
  if cpu.avx512f && cpu.avx512vbmi then .avx512
  else if cpu.avx2 then .avx2
  else if cpu.sse2 then .sse2
  else if cpu.pclmulqdq then .pclmulqdq
  else if cpu.neon then .neon
  else .scalar

/-- SHA-256, of which the code uses that a digest has 32 bytes. -/
abbrev Sha256 := List UInt8 → Vector UInt8 32

structure XorObfuscator where
  key : List UInt8
  position : ℕ
  deriving DecidableEq, Repr

/-! ## Masking -/

/-- The key bytes for `chunkSize` payload bytes from `processed` on. -/
def keyPattern (key : List UInt8) (start chunkSize processed : ℕ) : Checked (List UInt8) :=
  loopTo chunkSize (List.replicate chunkSize 0) fun i pattern => do
    writeAt pattern i (← readAt key ((start + processed + i) % key.length))

/-- The loop `while processed + chunk_size <= len`, with the number of bytes it covered. -/
def xorChunks (key : List UInt8) (start chunkSize : ℕ) (payload : List UInt8) :
    Checked (ℕ × List UInt8) :=
  loopTo (payload.length / chunkSize) (0, payload) fun _ (processed, payload) => do
    let keyVec ← keyPattern key start chunkSize processed
    let dataVec ← sliceOf payload processed (processed + chunkSize)
    let payload ← copyAt payload processed (List.zipWith (· ^^^ ·) dataVec keyVec)
    return (processed + chunkSize, payload)

def xorByte (key : List UInt8) (start i : ℕ) (payload : List UInt8) : Checked (List UInt8) := do
  writeAt payload i ((← readAt payload i) ^^^ (← readAt key ((start + i) % key.length)))

def xorVector (key : List UInt8) (start chunkSize : ℕ) (payload : List UInt8) :
    Checked (List UInt8) := do
  let (processed, payload) ← xorChunks key start chunkSize payload
  loopFromTo processed payload.length payload (xorByte key start)

def xorPayload (policy : SimdPolicy) (key : List UInt8) (start : ℕ) (payload : List UInt8) :
    Checked (List UInt8) :=
  match policy with
  | .avx2 | .avx512 => xorVector key start 32 payload
  | .neon => xorVector key start 16 payload
  | _ => loopTo payload.length payload (xorByte key start)

namespace XorObfuscator

def obfuscate (sha256 : Sha256) (cpu : CpuFeatures) (o : XorObfuscator) (payload : List UInt8) :
    Checked (List UInt8 × XorObfuscator) := do
  if o.key.isEmpty then
    return (payload, o)
  let payload ← xorPayload (dispatch cpu) o.key o.position payload
  return (payload, ⟨(sha256 o.key).toList, 0⟩)

def deobfuscate (sha256 : Sha256) (cpu : CpuFeatures) (o : XorObfuscator) (payload : List UInt8) :
    Checked (List UInt8 × XorObfuscator) :=
  o.obfuscate sha256 cpu payload

end XorObfuscator

/-! ## The manager -/

structure StealthManager where
  enableXorObfuscation : Bool
  xorObfuscator : Option XorObfuscator
  deriving DecidableEq, Repr

namespace StealthManager

def processOutgoingPacket (sha256 : Sha256) (cpu : CpuFeatures) (m : StealthManager)
    (payload : List UInt8) : Checked (List UInt8 × StealthManager) :=
  match m.enableXorObfuscation, m.xorObfuscator with
  | true, some o => do
      let (payload, o) ← o.obfuscate sha256 cpu payload
      return (payload, { m with xorObfuscator := some o })
  | _, _ => return (payload, m)

def processIncomingPacket (sha256 : Sha256) (cpu : CpuFeatures) (m : StealthManager)
    (payload : List UInt8) : Checked (List UInt8 × StealthManager) :=
  match m.enableXorObfuscation, m.xorObfuscator with
  | true, some o => do
      let (payload, o) ← o.deobfuscate sha256 cpu payload
      return (payload, { m with xorObfuscator := some o })
  | _, _ => return (payload, m)

def processClientHello (sha256 : Sha256) (cpu : CpuFeatures) (m : StealthManager)
    (payload : List UInt8) : Checked (List UInt8 × StealthManager) :=
  m.processOutgoingPacket sha256 cpu payload

def obfuscatePayload (sha256 : Sha256) (cpu : CpuFeatures) (m : StealthManager)
    (payload : List UInt8) (_contextId : ℕ) : Checked (List UInt8 × StealthManager) :=
  m.processOutgoingPacket sha256 cpu payload

end StealthManager

end QuicFuscate.Stealth
