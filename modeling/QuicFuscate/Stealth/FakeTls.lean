import Mathlib.Algebra.Ring.Nat
import QuicFuscate.Fec.Packet

/-!
# The forged handshake

A record layer that resembles a TLS handshake: a ClientHello, a ServerHello and a certificate, each in
a handshake record of its own.  Lengths are written into fields of two and three bytes.  Of a
fingerprint profile, only what the handshake is made of is kept.
-/

namespace QuicFuscate.Stealth

open Fec

structure ClientHelloParams where
  tlsVersion : UInt16
  cipherSuites : List UInt16
  extensions : List UInt8
  deriving DecidableEq, Repr

structure ServerHelloParams where
  tlsVersion : UInt16
  cipherSuite : UInt16
  extensions : List UInt8
  deriving DecidableEq, Repr

structure FingerprintProfile where
  tlsCipherSuites : List UInt16
  clientHello : Option (List UInt8)
  serverHello : Option ServerHelloParams
  certificate : Option (List UInt8)
  deriving DecidableEq, Repr

namespace FakeTls

def defaultClientHello : List UInt8 :=
  [0x16, 0x03, 0x01, 0x00, 0x0f, 0x01, 0x00, 0x00, 0x0b,
    0x66, 0x61, 0x6b, 0x65, 0x2d, 0x63, 0x6c, 0x69, 0x65, 0x6e, 0x74]

def defaultCertificate : List UInt8 := [0x16, 0x03, 0x03, 0x00, 0x08, 0x0b, 0x00, 0x00, 0x04, 0x63, 0x65, 0x72, 0x74]

def clientHello (profile : FingerprintProfile) : List UInt8 := profile.clientHello.getD defaultClientHello

def beBytes16 (v : UInt16) : List UInt8 := [(toBeBytes v).1, (toBeBytes v).2]

def beBytes32 (v : UInt32) : List UInt8 :=
  [UInt8.ofNat (v.toNat / 2 ^ 24), UInt8.ofNat (v.toNat / 2 ^ 16), UInt8.ofNat (v.toNat / 2 ^ 8), UInt8.ofNat v.toNat]

/-- A handshake record.  The casts cut the lengths to the width of their fields. -/
def record (htype : UInt8) (payload : List UInt8) : List UInt8 :=
  [0x16, 0x03, 0x03] ++ beBytes16 (UInt16.ofNat (payload.length + 4)) ++ [htype] ++
    (beBytes32 (UInt32.ofNat payload.length)).drop 1 ++ payload

def clientHelloCustom (params : ClientHelloParams) : List UInt8 :=
  record 0x01 (beBytes16 params.tlsVersion ++ List.replicate 32 0 ++ [0] ++
    beBytes16 (UInt16.ofNat (params.cipherSuites.length * 2)) ++ params.cipherSuites.flatMap beBytes16 ++ [1] ++ [0] ++
    beBytes16 (UInt16.ofNat params.extensions.length) ++ params.extensions)

def serverHelloCustom (params : ServerHelloParams) : List UInt8 :=
  record 0x02 (beBytes16 params.tlsVersion ++ List.replicate 32 0 ++ [0] ++ beBytes16 params.cipherSuite ++ [0] ++
    beBytes16 (UInt16.ofNat params.extensions.length) ++ params.extensions)

def certificateRecord (cert : List UInt8) : List UInt8 := record 0x0b cert

def serverResponseCustom (sh : ServerHelloParams) (cert : List UInt8) : List UInt8 :=
  serverHelloCustom sh ++ certificateRecord cert

def handshakeCustomWithCert (ch : ClientHelloParams) (sh : ServerHelloParams) (cert : List UInt8) : List UInt8 :=
  clientHelloCustom ch ++ serverResponseCustom sh cert

def handshake (profile : FingerprintProfile) : List UInt8 :=
  let cert := profile.certificate.getD defaultCertificate
  if profile.clientHello.isNone && profile.serverHello.isNone then
    let cipherSuite := profile.tlsCipherSuites.head?.getD 0x1301
    handshakeCustomWithCert ⟨0x0303, [cipherSuite], []⟩ ⟨0x0303, cipherSuite, []⟩ cert
  else
    let shParams := profile.serverHello.getD ⟨0x0303, profile.tlsCipherSuites.head?.getD 0x1301, []⟩
    clientHello profile ++ serverResponseCustom shParams cert

end FakeTls

end QuicFuscate.Stealth
