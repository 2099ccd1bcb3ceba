import QuicFuscate.Framework.Stateful
import QuicFuscate.Stealth.TlsFfi
import QuicFuscate.Stealth.XorObfuscator

/-!
# The stealth manager

The manager holds the active profile, the domains for fronting and the obfuscator.  It prepares the
TLS settings of a new connection, and names the host that a connection pretends to go to.  A
background task may exchange the profile at any time; every access to the profile is under a lock
and the index of the next domain is a shared counter, so that a run is a sequence of whole calls.  A
call that does not come back ends the run.  Logging, telemetry and DNS are left out.
-/

namespace QuicFuscate.Stealth

open Framework

/-! ## Domain fronting -/

inductive CdnProvider
  | cloudflare | google | microsoftAzure | akamai | fastly
  deriving DecidableEq, Repr

def CdnProvider.getDomain : CdnProvider → String
  | .cloudflare => "www.cloudflare.com"
  | .google => "www.google.com"
  | .microsoftAzure => "azure.microsoft.com"
  | .akamai => "www.akamai.com"
  | .fastly => "www.fastly.com"

structure DomainFrontingManager where
  domains : List String
  index : ℕ
  deriving DecidableEq, Repr

namespace DomainFrontingManager

def new (domains : List String) : DomainFrontingManager := ⟨domains, 0⟩

def fromProviders (providers : List CdnProvider) : DomainFrontingManager := new (providers.map CdnProvider.getDomain)

/-- The next domain in turn.  The remainder by an empty list aborts, and the counter wraps. -/
def getFrontedDomain (m : DomainFrontingManager) : Checked (String × DomainFrontingManager) := do
  let domain ← readAt m.domains (m.index % m.domains.length)
  return (domain, { m with index := (m.index + 1) % 2 ^ 64 })

end DomainFrontingManager

/-! ## Configuration -/

structure StealthConfig where
  browserProfile : BrowserProfile
  osProfile : OsProfile
  useFakeTls : Bool
  enableDoh : Bool
  dohProvider : String
  enableHttp3Masquerading : Bool
  useQpackHeaders : Bool
  enableDomainFronting : Bool
  frontingDomains : List String
  cdnProviders : List CdnProvider
  enableXorObfuscation : Bool
  deriving DecidableEq, Repr

structure StealthSection where
  browserProfile : Option BrowserProfile
  osProfile : Option OsProfile
  useFakeTls : Option Bool
  enableDoh : Option Bool
  dohProvider : Option String
  enableHttp3Masquerading : Option Bool
  useQpackHeaders : Option Bool
  enableDomainFronting : Option Bool
  frontingDomains : Option (List String)
  enableXorObfuscation : Option Bool
  deriving DecidableEq, Repr

structure StealthFlags where
  profile : BrowserProfile
  os : OsProfile
  disableDoh : Bool
  dohProvider : String
  disableFronting : Bool
  frontDomain : List String
  disableXor : Bool
  disableHttp3 : Bool
  deriving DecidableEq, Repr

namespace StealthConfig

def default : StealthConfig where
  browserProfile := .chrome
  osProfile := .windows
  useFakeTls := false
  enableDoh := true
  dohProvider := "https://cloudflare-dns.com/dns-query"
  enableHttp3Masquerading := true
  useQpackHeaders := true
  enableDomainFronting := true
  frontingDomains := []
  cdnProviders := [.cloudflare, .google, .microsoftAzure, .akamai, .fastly]
  enableXorObfuscation := true

def fromSection (sec : StealthSection) : StealthConfig :=
  { default with
    browserProfile := sec.browserProfile.getD default.browserProfile
    osProfile := sec.osProfile.getD default.osProfile
    useFakeTls := sec.useFakeTls.getD default.useFakeTls
    enableDoh := sec.enableDoh.getD default.enableDoh
    dohProvider := sec.dohProvider.getD default.dohProvider
    enableHttp3Masquerading := sec.enableHttp3Masquerading.getD default.enableHttp3Masquerading
    useQpackHeaders := sec.useQpackHeaders.getD default.useQpackHeaders
    enableDomainFronting := sec.enableDomainFronting.getD default.enableDomainFronting
    frontingDomains := sec.frontingDomains.getD default.frontingDomains
    enableXorObfuscation := sec.enableXorObfuscation.getD default.enableXorObfuscation }

/-- `from_toml`, on a file that has been parsed. -/
def fromToml (stealth : Option StealthSection) : StealthConfig :=
  match stealth with
  | some sec => fromSection sec
  | none => default

def validate (config : StealthConfig) : Except String Unit :=
  if config.enableDoh && config.dohProvider.isEmpty then
    .error "doh_provider must not be empty when DoH is enabled"
  else if config.enableDomainFronting && config.frontingDomains.isEmpty && config.cdnProviders.isEmpty then
    .error "fronting_domains required when domain fronting is enabled"
  else .ok ()

/-- Both the client and the server replace what the command line can say, whatever the file says. -/
def withFlags (config : StealthConfig) (flags : StealthFlags) : StealthConfig :=
  { config with
    browserProfile := flags.profile
    osProfile := flags.os
    enableDoh := !flags.disableDoh
    dohProvider := flags.dohProvider
    enableDomainFronting := !flags.disableFronting
    frontingDomains := flags.frontDomain
    enableXorObfuscation := !flags.disableXor
    enableHttp3Masquerading := !flags.disableHttp3 }

end StealthConfig

/-! ## TLS settings -/

def mapIanaToQuicheCipher (ianaId : UInt16) : Option Cipher :=
  if ianaId = 0x1301 then some .tls13Aes128GcmSha256
  else if ianaId = 0x1302 then some .tls13Aes256GcmSha384
  else if ianaId = 0x1303 then some .tls13Chacha20Poly1305Sha256
  else if ianaId = 0xc02b then some .ecdheEcdsaWithAes128GcmSha256
  else if ianaId = 0xc02f then some .ecdheRsaWithAes128GcmSha256
  else if ianaId = 0xc02c then some .ecdheEcdsaWithAes256GcmSha384
  else if ianaId = 0xc030 then some .ecdheRsaWithAes256GcmSha384
  else if ianaId = 0xcca9 then some .ecdheEcdsaWithChacha20Poly1305Sha256
  else if ianaId = 0xcca8 then some .ecdheRsaWithChacha20Poly1305Sha256
  else none

/-- The library: the lists of ciphers that it takes, and the functions that a patched one adds. -/
structure TlsLibrary where
  takesCiphers : List Cipher → Bool
  functions : Option TlsFfi.Library

inductive CipherSuite
  | aegis128X | aegis128L | aegis256 | morus1280_128 | morus1280_256 | softwareFallback
  deriving DecidableEq, Repr

def CipherSuite.tlsCipher : CipherSuite → UInt16
  | .aegis128X => 0x1302
  | .aegis128L => 0x1301
  | .aegis256 => 0x1303
  | .morus1280_128 => 0x1304
  | .morus1280_256 => 0x1305
  | .softwareFallback => 0x1306

/-! ## The manager -/

abbrev Header := String × String

structure Manager where
  config : StealthConfig
  fingerprint : Fingerprint
  domainFronter : Option DomainFrontingManager
  stealthManager : StealthManager
  deriving DecidableEq, Repr

def Fingerprint.completed (dir : ProfileDirectory) (p : Fingerprint) : Fingerprint :=
  if p.clientHello.isNone then
    { p with clientHello := TlsClientHelloSpoofer.loadClientHello dir p.browser p.os }
  else p

def Http3Masquerade.generateHeaders (profile : Fingerprint) (host path : String) : List Header :=
  let http := profile.generateHttpHeaders
  [(":method", "GET"), (":scheme", "https"), (":authority", host), (":path", path),
    ("user-agent", profile.userAgent)] ++
    ((http.lookup "Accept-Language").map fun v => ("accept-language", v)).toList ++
    ((http.lookup "Accept").map fun v => ("accept", v)).toList ++
    ((http.lookup "Accept-Encoding").map fun v => ("accept-encoding", v)).toList

def FakeHeaders.headerList (optimizeForQuic : Bool) (profile : Fingerprint) (host path : String) : List Header :=
  let headers := Http3Masquerade.generateHeaders profile host path
  if optimizeForQuic then headers.filter fun h => h.1 ≠ "connection" else headers

namespace Manager

/-- A manager with a new session key. -/
def new (dir : ProfileDirectory) (key : List UInt8) (config : StealthConfig) : Manager where
  config := config
  fingerprint := (Fingerprint.new dir config.browserProfile config.osProfile).completed dir
  domainFronter :=
    if config.enableDomainFronting then
      if !config.frontingDomains.isEmpty then some (.new config.frontingDomains)
      else some (.fromProviders config.cdnProviders)
    else none
  stealthManager :=
    ⟨config.enableXorObfuscation, if config.enableXorObfuscation then some ⟨key, 0⟩ else none⟩

/-- The suites of the profile, with a preferred one in front of them unless they have it. -/
def suiteIds (fingerprint : Fingerprint) (preferred : Option UInt16) : List UInt16 :=
  match preferred with
  | some id =>
      if id ∈ fingerprint.tlsCipherSuites then fingerprint.tlsCipherSuites else id :: fingerprint.tlsCipherSuites
  | none => fingerprint.tlsCipherSuites

/-- The profile keeps a record that was found on this occasion. -/
def applyUtlsProfile (dir : ProfileDirectory) (lib : TlsLibrary) (m : Manager) (cfg : TlsSettings)
    (preferred : Option UInt16) (symbols : TlsFfi.Symbols) : Option (TlsSettings × Manager × TlsFfi.Symbols) := do
  let quicheCiphers := (suiteIds m.fingerprint preferred).filterMap mapIanaToQuicheCipher
  let (cfg, fingerprint, symbols) ←
    if quicheCiphers ≠ [] then do
      let cfg := if lib.takesCiphers quicheCiphers then { cfg with ciphers := some quicheCiphers } else cfg
      let fingerprint := m.fingerprint.completed dir
      let (cfg, symbols) ← TlsFfi.injectRecord lib.functions fingerprint.clientHello cfg symbols
      some (cfg, fingerprint, symbols)
    else some (cfg, m.fingerprint, symbols)
  let cfg := { cfg with applicationProtos := ["h3"], transport := fingerprint.transport }
  some (cfg, { m with fingerprint := fingerprint }, symbols)

def setFingerprintProfile (dir : ProfileDirectory) (m : Manager) (profile : Fingerprint) : Manager :=
  { m with fingerprint := profile.completed dir }

def fakeTlsHandshake (m : Manager) : List UInt8 := FakeTls.handshake m.fingerprint.toFingerprintProfile

/-- Forge a handshake, or apply the profile to the settings.  What forging returns is for the caller. -/
def configureTls (dir : ProfileDirectory) (lib : TlsLibrary) (m : Manager) (cfg : TlsSettings) (enableUtls : Bool)
    (preferred : Option UInt16) (symbols : TlsFfi.Symbols) :
    Option ((Option (List UInt8) × TlsSettings) × Manager × TlsFfi.Symbols) :=
  if m.config.useFakeTls && !m.fakeTlsHandshake.isEmpty then some ((some m.fakeTlsHandshake, cfg), m, symbols)
  else if enableUtls then do
    let (cfg, m, symbols) ← m.applyUtlsProfile dir lib cfg preferred symbols
    let (_, symbols) ← TlsFfi.resolve lib.functions .disableGrease symbols
    let (_, symbols) ← TlsFfi.resolve lib.functions .setDeterministic symbols
    some ((none, cfg), m, symbols)
  else some ((none, cfg), m, symbols)

def getConnectionHeaders (m : Manager) (realHost : String) : Checked ((String × String) × Manager) :=
  match m.config.enableDomainFronting, m.domainFronter with
  | true, some fronter => do
      let (fronted, fronter) ← fronter.getFrontedDomain
      return ((fronted, realHost), { m with domainFronter := some fronter })
  | _, _ => return ((realHost, realHost), m)

def getHttp3HeaderList (m : Manager) (host path : String) : Option (List Header) :=
  if m.config.enableHttp3Masquerading then some (FakeHeaders.headerList true m.fingerprint host path) else none

end Manager

/-! ## Runs -/

/-- The task that exchanges the profile: the index of the current one, and what happens when the interval is over. -/
def rotate (dir : ProfileDirectory) (profiles : List Fingerprint) (idx : ℕ) (m : Manager) : Checked (ℕ × Manager) := do
  let idx := (idx + 1) % profiles.length
  let profile ← readAt profiles idx
  return (idx, m.setFingerprintProfile dir profile)

/-- The calls that the tasks of a connection make: set a profile that was built for a browser on a system, prepare the
TLS settings with a preferred suite, ask for the names of a connection or for the headers of a request. -/
inductive StealthCall
  | setProfile (browser : BrowserProfile) (os : OsProfile)
  | configureTls (cfg : TlsSettings) (enableUtls : Bool) (suite : CipherSuite)
  | getConnectionHeaders (realHost : String)
  | getHttp3HeaderList (host path : String)
  deriving DecidableEq, Repr

inductive StealthAnswer
  | done
  | tls (hello : Option (List UInt8)) (cfg : TlsSettings)
  | names (sni host : String)
  | headers (list : Option (List Header))
  deriving DecidableEq, Repr

/-- A manager in its process, which knows some functions of the library. -/
structure Process where
  manager : Manager
  symbols : TlsFfi.Symbols

namespace Process

/-- Nothing has been looked up yet. -/
def start (m : Manager) : Process := ⟨m, TlsFfi.noSymbols⟩

def call (dir : ProfileDirectory) (lib : TlsLibrary) (c : StealthCall) : Stateful Process StealthAnswer where
  run p :=
    match c with
    | .setProfile browser os =>
        let m := p.manager.setFingerprintProfile dir (Fingerprint.new dir browser os)
        some (.ok (.done, { p with manager := m }))
    | .configureTls cfg enableUtls suite => do
        let ((hello, cfg), m, symbols) ←
          p.manager.configureTls dir lib cfg enableUtls (some suite.tlsCipher) p.symbols
        some (.ok (.tls hello cfg, ⟨m, symbols⟩))
    | .getConnectionHeaders realHost => some do
        let ((sni, host), m) ← p.manager.getConnectionHeaders realHost
        return (.names sni host, { p with manager := m })
    | .getHttp3HeaderList host path => some (.ok (.headers (p.manager.getHttp3HeaderList host path), p))

end Process

end QuicFuscate.Stealth
