import Mathlib.Algebra.Group.Nat.Defs
import QuicFuscate.Fec.Decoder
import QuicFuscate.Fec.Decoder16

/-!
# Adaptive error correction

The mode manager chooses one of six modes and a window, and an encoder and a decoder of that
geometry do the work.  After a change the previous pair stays in service for the first half of a
cross-fade.  The loss estimate and the controller are floating-point code; what they decide enters
here as a `Reading`, and the clock, in nanoseconds, with it.
-/

namespace QuicFuscate.Fec

open Framework

inductive FecMode
  | zero | light | normal | medium | strong | extreme
  deriving DecidableEq, Repr

/-! ## Codecs -/

inductive EncoderVariant
  | g8 (e : Encoder)
  | g16 (e : Encoder16)
  deriving DecidableEq, Repr

namespace EncoderVariant

def new (mode : FecMode) (k n : ℕ) : EncoderVariant :=
  if mode = .extreme then .g16 (Encoder16.new k n) else .g8 (Encoder.new k n)

def k : EncoderVariant → ℕ
  | .g8 e => e.k
  | .g16 e => e.k

def n : EncoderVariant → ℕ
  | .g8 e => e.n
  | .g16 e => e.n

def addSourcePacket (v : EncoderVariant) (pkt : Packet) : EncoderVariant :=
  match v with
  | .g8 e => .g8 (e.addSourcePacket pkt)
  | .g16 e => .g16 (e.addSourcePacket pkt)

def generateRepairPacket (F : Gf16Arith) (env : Platform) (v : EncoderVariant) (idx : ℕ) :
    Checked (Option Packet) :=
  match v with
  | .g8 e => e.generateRepairPacket env idx
  | .g16 e => e.generateRepairPacket F env idx

end EncoderVariant

inductive DecoderVariant
  | g8 (d : Decoder)
  | g16 (d : Decoder16)
  deriving DecidableEq, Repr

namespace DecoderVariant

def new (mode : FecMode) (k : ℕ) : DecoderVariant :=
  if mode = .extreme then .g16 (Decoder16.new k) else .g8 (Decoder.new k)

def k : DecoderVariant → ℕ
  | .g8 d => d.k
  | .g16 d => d.k

def isDecoded : DecoderVariant → Bool
  | .g8 d => d.isDecoded
  | .g16 d => d.isDecoded

def addPacket (F : Gf16Arith) (env : Platform) (v : DecoderVariant) (pkt : Packet) :
    Checked (Except String Bool × DecoderVariant) :=
  match v with
  | .g8 d => do
      let (r, d) ← d.addPacket env pkt
      return (r, .g8 d)
  | .g16 d => do
      let (r, d) ← d.addPacket F pkt
      return (r, .g16 d)

def getDecodedPackets (v : DecoderVariant) : List Packet × DecoderVariant :=
  match v with
  | .g8 d => (d.getDecodedPackets.1, .g8 d.getDecodedPackets.2)
  | .g16 d => (d.getDecodedPackets.1, .g16 d.getDecodedPackets.2)

end DecoderVariant

/-! ## Single precision -/

/-- The integer nearest to `m` with 24 significant bits, ties to even. -/
def roundBits (m : ℕ) : ℕ :=
  let e := Nat.log2 m - 23
  let q := m / 2 ^ e
  let r := m % 2 ^ e
  if 2 * r > 2 ^ e ∨ 2 * r = 2 ^ e ∧ q % 2 = 1 then (q + 1) * 2 ^ e else q * 2 ^ e

/-- `x.ceil() as usize` for the number `m / 2^23`. -/
def ceilUsize (m : ℕ) : ℕ := min ((m + (2 ^ 23 - 1)) / 2 ^ 23) (2 ^ 64 - 1)

/-! ## Modes -/

namespace FecMode

def defaultWindows : FecMode → ℕ
  | .zero => 0
  | .light => 16
  | .normal => 64
  | .medium => 128
  | .strong => 512
  | .extreme => 1024

def windowRange : FecMode → ℕ × ℕ
  | .zero => (0, 0)
  | .light => (8, 32)
  | .normal => (32, 128)
  | .medium => (64, 256)
  | .strong => (256, 1024)
  | .extreme => (1024, 4096)

def overheadRatio : FecMode → ℕ
  | .zero => 8388608
  | .light => 8808038
  | .normal => 9646899
  | .medium => 10905190
  | .strong => 12582912
  | .extreme => 16777216

def paramsFor (mode : FecMode) (window : ℕ) : ℕ × ℕ :=
  (window, ceilUsize (roundBits (roundBits window * mode.overheadRatio)))

def nextMode : FecMode → FecMode
  | .zero => .light
  | .light => .normal
  | .normal => .medium
  | .medium => .strong
  | .strong | .extreme => .extreme

def prevMode : FecMode → FecMode
  | .extreme => .strong
  | .strong => .medium
  | .medium => .normal
  | .normal => .light
  | .light | .zero => .zero

end FecMode

/-- How the controller output compares with its dead band. -/
inductive Suggestion
  | more | less | keep
  deriving DecidableEq, Repr

/-- What a call of `update` reads off the loss estimate and the clock: whether the estimate is
above the emergency threshold, the controller output, the scaled window before clamping, and the
times at which the dwell time is checked and a change is noted. -/
structure Reading where
  emergency : Bool
  output : Suggestion
  scaledWindow : FecMode → ℕ → ℕ
  checked : ℕ
  now : ℕ

structure ModeManager where
  currentMode : FecMode
  currentWindow : ℕ
  windowSizes : FecMode → Option ℕ
  lastModeChange : ℕ

namespace ModeManager

def crossFadeLen : ℕ := 32

def minDwellTime : ℕ := 500000000

def windowFor (windowSizes : FecMode → Option ℕ) (mode : FecMode) : ℕ :=
  (windowSizes mode).getD mode.defaultWindows

def initialWindow (m : ModeManager) (mode : FecMode) : ℕ := windowFor m.windowSizes mode

def new (initialMode : FecMode) (windowSizes : FecMode → Option ℕ) (now : ℕ) : ModeManager where
  currentMode := initialMode
  currentWindow := windowFor windowSizes initialMode
  windowSizes := windowSizes
  lastModeChange := now

def clamp (x lo hi : ℕ) : ℕ := if x < lo then lo else if x > hi then hi else x

def newMode (m : ModeManager) (r : Reading) : FecMode :=
  match r.output with
  | .more => m.currentMode.nextMode
  | .less => m.currentMode.prevMode
  | .keep => m.currentMode

def switched (m : ModeManager) (r : Reading) : ModeManager :=
  if m.newMode r ≠ m.currentMode then
    { m with
      currentMode := m.newMode r
      lastModeChange := r.now
      currentWindow := m.initialWindow (m.newMode r) }
  else m

def adjusted (m : ModeManager) (r : Reading) : ModeManager :=
  let s := m.switched r
  let range := s.currentMode.windowRange
  { s with currentWindow := clamp (r.scaledWindow s.currentMode s.currentWindow) range.1 range.2 }

def update (m : ModeManager) (r : Reading) : Option (FecMode × ℕ) × ModeManager :=
  if r.emergency then
    (some (m.currentMode, m.currentWindow),
      { m with
        currentMode := .extreme
        currentWindow := m.initialWindow .extreme
        lastModeChange := r.now })
  else if r.checked - m.lastModeChange < minDwellTime then (none, m)
  else
    let s := m.adjusted r
    if m.currentMode ≠ s.currentMode ∨ m.currentWindow ≠ s.currentWindow then
      (some (m.currentMode, m.currentWindow), s)
    else (none, s)

end ModeManager

/-! ## The adaptive codec -/

structure AdaptiveFec where
  modeMgr : ModeManager
  encoder : EncoderVariant
  decoder : DecoderVariant
  transitionEncoder : Option EncoderVariant
  transitionDecoder : Option DecoderVariant
  transitionLeft : ℕ

/-- Push the repair packets of a full window to the queue. -/
def emitRepairs (F : Gf16Arith) (env : Platform) (encoder : EncoderVariant)
    (outgoingQueue : List Packet) : Checked (List Packet) :=
  loopTo (encoder.n - encoder.k) outgoingQueue fun i queue => do
    match ← encoder.generateRepairPacket F env i with
    | some repairPacket => return queue ++ [repairPacket]
    | none => return queue

/-- Feed a decoder, taking its packets out at the call that completes it. -/
def receiveInto (F : Gf16Arith) (env : Platform) (decoder : DecoderVariant) (pkt : Packet)
    (recovered : List Packet) : Checked (Except String (List Packet) × DecoderVariant) := do
  let wasDecoded := decoder.isDecoded
  match ← decoder.addPacket F env pkt with
  | (.ok isNowDecoded, decoder) =>
      if !wasDecoded && isNowDecoded then
        return (.ok (recovered ++ decoder.getDecodedPackets.1), decoder.getDecodedPackets.2)
      else
        return (.ok recovered, decoder)
  | (.error e, decoder) => return (.error e, decoder)

namespace AdaptiveFec

def new (initialMode : FecMode) (windowSizes : FecMode → Option ℕ) (now : ℕ) : AdaptiveFec :=
  let mgr := ModeManager.new initialMode windowSizes now
  let (k, n) := mgr.currentMode.paramsFor mgr.currentWindow
  { modeMgr := mgr
    encoder := EncoderVariant.new mgr.currentMode k n
    decoder := DecoderVariant.new mgr.currentMode k
    transitionEncoder := none
    transitionDecoder := none
    transitionLeft := 0 }

def isTransitioning (fec : AdaptiveFec) : Bool := fec.transitionLeft > 0

/-- The end of `on_send`: the cross-fade counter, and the half-way point at which the previous
codecs are dropped. -/
def countDown (fec : AdaptiveFec) : AdaptiveFec :=
  if fec.transitionLeft > 0 then
    let fec := { fec with transitionLeft := fec.transitionLeft - 1 }
    if fec.transitionLeft = ModeManager.crossFadeLen / 2 then
      { fec with transitionEncoder := none, transitionDecoder := none }
    else fec
  else fec

/-- Whether the cross-fade is in its first half, in which the previous codecs still work. -/
def isFading (fec : AdaptiveFec) : Bool := fec.transitionLeft > ModeManager.crossFadeLen / 2

def addToTransition (env : Platform) (fec : AdaptiveFec) (pkt : Packet) : Checked (Option EncoderVariant) :=
  match fec.transitionEncoder with
  | some enc => do return some (enc.addSourcePacket (← pkt.cloneForEncoder env))
  | none => return none

def emitTransition (F : Gf16Arith) (env : Platform) (fec : AdaptiveFec)
    (transitionEncoder : Option EncoderVariant) (queue : List Packet) : Checked (List Packet) :=
  match fec.isFading, transitionEncoder with
  | true, some enc => emitRepairs F env enc queue
  | _, _ => return queue

def onSend (F : Gf16Arith) (env : Platform) (fec : AdaptiveFec) (pkt : Packet)
    (outgoingQueue : List Packet) : Checked (List Packet × AdaptiveFec) := do
  let transitionEncoder ← fec.addToTransition env pkt
  let encoder := fec.encoder.addSourcePacket (← pkt.cloneForEncoder env)
  let queue := outgoingQueue ++ [pkt]
  let queue ← fec.emitTransition F env transitionEncoder queue
  let queue ← emitRepairs F env encoder queue
  return (queue, countDown { fec with encoder := encoder, transitionEncoder := transitionEncoder })

def cloneForTransition (env : Platform) (fec : AdaptiveFec) (pkt : Packet) : Checked (Option Packet) :=
  if fec.isFading then do return some (← pkt.cloneForEncoder env) else return none

def receiveTransition (F : Gf16Arith) (env : Platform) (fec : AdaptiveFec) (pktClone : Option Packet)
    (recovered : List Packet) : Checked (Except String (List Packet) × AdaptiveFec) :=
  match fec.transitionDecoder, pktClone with
  | some transDec, some clonePkt => do
      let (result, transDec) ← receiveInto F env transDec clonePkt recovered
      return (result, { fec with transitionDecoder := some transDec })
  | _, _ => return (.ok recovered, fec)

def onReceive (F : Gf16Arith) (env : Platform) (fec : AdaptiveFec) (pkt : Packet) :
    Checked (Except String (List Packet) × AdaptiveFec) := do
  let pktClone ← fec.cloneForTransition env pkt
  let (result, decoder) ← receiveInto F env fec.decoder pkt []
  let fec := { fec with decoder := decoder }
  match result with
  | .error e => return (.error e, fec)
  | .ok recovered => fec.receiveTransition F env pktClone recovered

/-- Go over to the codecs for the mode and window of `mgr`; `prev` is there when a cross-fade should start. -/
def goOver (fec : AdaptiveFec) (prev : Option (FecMode × ℕ)) (mgr : ModeManager) : AdaptiveFec :=
  let (k, n) := mgr.currentMode.paramsFor mgr.currentWindow
  let encoder := EncoderVariant.new mgr.currentMode k n
  let decoder := DecoderVariant.new mgr.currentMode k
  match prev with
  | some _ =>
      { modeMgr := mgr
        encoder := encoder
        decoder := decoder
        transitionEncoder := some fec.encoder
        transitionDecoder := some fec.decoder
        transitionLeft := ModeManager.crossFadeLen }
  | none => { fec with modeMgr := mgr, encoder := encoder, decoder := decoder }

def reportLoss (fec : AdaptiveFec) (r : Reading) : AdaptiveFec :=
  let (prev, mgr) := fec.modeMgr.update r
  fec.goOver prev mgr

end AdaptiveFec

end QuicFuscate.Fec
