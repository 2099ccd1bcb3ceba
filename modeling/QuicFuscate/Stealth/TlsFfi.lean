import QuicFuscate.Framework.OnceCells
import QuicFuscate.Stealth.Profile

/-!
# Hooks into the TLS library

A patched library offers functions that the plain one does not have.  They are looked up by name when the program
runs, and every wrapper keeps what was found in a cell of its own, which its first call initialises.  The wrappers are
called from one thread at a time.  Logging is left out.
-/

namespace QuicFuscate.Stealth

open Framework

inductive Cipher
  | tls13Aes128GcmSha256 | tls13Aes256GcmSha384 | tls13Chacha20Poly1305Sha256
  | ecdheEcdsaWithAes128GcmSha256 | ecdheRsaWithAes128GcmSha256
  | ecdheEcdsaWithAes256GcmSha384 | ecdheRsaWithAes256GcmSha384
  | ecdheEcdsaWithChacha20Poly1305Sha256 | ecdheRsaWithChacha20Poly1305Sha256
  deriving DecidableEq, Repr

structure TlsSettings where
  ciphers : Option (List Cipher)
  clientHello : Option (List UInt8)
  applicationProtos : List String
  transport : TransportParameters
  deriving DecidableEq, Repr

namespace TlsFfi

/-- The functions, each with a cell and a wrapper. -/
inductive Hook
  | setTls | enableSimd | builderNew | builderAdd | builderUse | builderFree | disableGrease | setDeterministic
  deriving DecidableEq, Repr

def Hook.all : List Hook :=
  [.setTls, .enableSimd, .builderNew, .builderAdd, .builderUse, .builderFree, .disableGrease, .setDeterministic]

/-- The functions that a library has. -/
abbrev Library := Hook → Bool

/-- What the wrappers know: a function of the library, or that there is none. -/
abbrev Symbols := OnceCells Hook (Option Hook)

def noSymbols : Symbols := fun _ => .unset

/-- Write what the library has into the cells; without a library there is nothing to do. -/
def loadRealSymbols (library : Option Library) (symbols : Symbols) : Option Symbols :=
  match library with
  | none => some symbols
  | some provides => symbols.setEach provides some Hook.all

/-- The start of a wrapper: the function that it is going to call. -/
def resolve (library : Option Library) (h : Hook) (symbols : Symbols) : Option (Option Hook × Symbols) :=
  symbols.getOrInit h fun symbols => do
    let symbols ← loadRealSymbols library symbols
    return ((symbols.get h).join, symbols)

/-- Inject a ClientHello through a builder.  Without the function that makes one, nothing else is called. -/
def injectBytes (library : Option Library) (hello : List UInt8) (cfg : TlsSettings) (symbols : Symbols) :
    Option (TlsSettings × Symbols) := do
  let (new, symbols) ← resolve library .builderNew symbols
  match new with
  | none => return (cfg, symbols)
  | some _ =>
      let (add, symbols) ← resolve library .builderAdd symbols
      let builder := if add.isSome then hello else []
      let (use, symbols) ← resolve library .builderUse symbols
      let cfg := if use.isSome then { cfg with clientHello := some builder } else cfg
      let (_, symbols) ← resolve library .builderFree symbols
      let (_, symbols) ← resolve library .disableGrease symbols
      let (_, symbols) ← resolve library .setDeterministic symbols
      return (cfg, symbols)

def injectRecord (library : Option Library) (record : Option (List UInt8)) (cfg : TlsSettings) (symbols : Symbols) :
    Option (TlsSettings × Symbols) :=
  match record with
  | some hello => injectBytes library hello cfg symbols
  | none => some (cfg, symbols)

/-- The hooks in `configure_tls` for a browser's handshake: the record of the profile, and then two settings. -/
def applyHooks (library : Option Library) (record : Option (List UInt8)) (cfg : TlsSettings) (symbols : Symbols) :
    Option (TlsSettings × Symbols) := do
  let (cfg, symbols) ← injectRecord library record cfg symbols
  let (_, symbols) ← resolve library .disableGrease symbols
  let (_, symbols) ← resolve library .setDeterministic symbols
  return (cfg, symbols)

/-- The connections of a process, one after another, each with its settings. -/
def applyAll (library : Option Library) :
    List (Option (List UInt8) × TlsSettings) → Symbols → Option (List TlsSettings × Symbols)
  | [], symbols => some ([], symbols)
  | (record, cfg) :: rest, symbols => do
      let (cfg, symbols) ← applyHooks library record cfg symbols
      let (cfgs, symbols) ← applyAll library rest symbols
      return (cfg :: cfgs, symbols)

end TlsFfi

end QuicFuscate.Stealth
