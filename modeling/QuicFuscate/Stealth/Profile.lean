import QuicFuscate.Stealth.FakeTls

/-!
# Browser profiles

A profile imitates one browser on one system: its user agent, its cipher suites, its transport
parameters and a recorded ClientHello.  The records lie in a directory, in files that are named
after the two.  Names are compared in lower case; no name has a letter that a character outside
ASCII is lowered to.
-/

namespace QuicFuscate.Stealth

inductive BrowserProfile
  | chrome | firefox | safari | opera | brave | edge | vivaldi
  deriving DecidableEq, Repr

inductive OsProfile
  | windows | macOS | linux | iOS | android
  deriving DecidableEq, Repr

/-! ## Names -/

def toLowercase (s : List Char) : List Char := s.map Char.toLower

def BrowserProfile.fromStr (s : List Char) : Option BrowserProfile :=
  let s := toLowercase s
  if s = "chrome".toList then some .chrome
  else if s = "firefox".toList then some .firefox
  else if s = "safari".toList then some .safari
  else if s = "opera".toList then some .opera
  else if s = "brave".toList then some .brave
  else if s = "edge".toList then some .edge
  else if s = "vivaldi".toList then some .vivaldi
  else none

def OsProfile.fromStr (s : List Char) : Option OsProfile :=
  let s := toLowercase s
  if s = "windows".toList then some .windows
  else if s = "macos".toList ∨ s = "mac".toList then some .macOS
  else if s = "linux".toList then some .linux
  else if s = "ios".toList then some .iOS
  else if s = "android".toList then some .android
  else none

/-! ## The directory of records -/

/-- The names in the directory `browser_profiles`, and the record that is read from a file: its contents, if it can
be read and decoded. -/
structure ProfileDirectory where
  entries : List (List Char)
  record : List Char → Option (List UInt8)

namespace TlsClientHelloSpoofer

def browserName : BrowserProfile → List Char
  | .chrome => "chrome".toList
  | .firefox => "firefox".toList
  | .safari => "safari".toList
  | .opera => "opera".toList
  | .brave => "brave".toList
  | .edge => "edge".toList
  | .vivaldi => "vivaldi".toList

def osName : OsProfile → List Char
  | .windows => "windows".toList
  | .macOS => "macos".toList
  | .linux => "linux".toList
  | .iOS => "ios".toList
  | .android => "android".toList

def extension : List Char := ".chlo".toList

def profilePath (browser : BrowserProfile) (os : OsProfile) : List Char :=
  browserName browser ++ '_' :: osName os ++ extension

def loadClientHello (dir : ProfileDirectory) (browser : BrowserProfile) (os : OsProfile) : Option (List UInt8) :=
  dir.record (profilePath browser os)

/-- Strip a suffix as often as it is there, at most `n` times. -/
def stripSuffix (suffix : List Char) : ℕ → List Char → List Char
  | 0, s => s
  | n + 1, s => if suffix.isSuffixOf s then stripSuffix suffix n (s.take (s.length - suffix.length)) else s

/-- `trim_end_matches`; a text has no more suffixes than characters. -/
def trimEndMatches (suffix s : List Char) : List Char := stripSuffix suffix s.length s

/-- The profile that a file name stands for. -/
def profileOf (name : List Char) : Option (BrowserProfile × OsProfile) :=
  if extension.isSuffixOf name then
    match (trimEndMatches extension name).splitOn '_' with
    | [b, o] =>
        match BrowserProfile.fromStr b, OsProfile.fromStr o with
        | some b, some o => some (b, o)
        | _, _ => none
    | _ => none
  else none

def availableProfiles (dir : ProfileDirectory) : List (BrowserProfile × OsProfile) := dir.entries.filterMap profileOf

end TlsClientHelloSpoofer

/-! ## Profiles -/

structure TransportParameters where
  initialMaxData : ℕ
  initialMaxStreamDataBidiLocal : ℕ
  initialMaxStreamDataBidiRemote : ℕ
  initialMaxStreamsBidi : ℕ
  maxIdleTimeout : ℕ
  deriving DecidableEq, Repr

/-- A whole profile: what the forged handshake is made of, and the rest. -/
structure Fingerprint extends FingerprintProfile where
  browser : BrowserProfile
  os : OsProfile
  userAgent : String
  acceptLanguage : String
  transport : TransportParameters
  deriving DecidableEq, Repr

structure BuiltIn where
  userAgent : String
  tlsCipherSuites : List UInt16
  acceptLanguage : String
  transport : TransportParameters
  deriving DecidableEq, Repr

namespace BuiltIn

def chromeSuites : List UInt16 :=
  [0x1301, 0x1302, 0x1303, 0xc02b, 0xc02f, 0xc02c, 0xc030, 0xcca9, 0xcca8, 0xc013, 0xc014]

def firefoxSuites : List UInt16 :=
  [0x1301, 0x1302, 0x1303, 0xcca9, 0xcca8, 0xc02b, 0xc02f, 0xc02c, 0xc030, 0xc013, 0xc014]

def safariSuites : List UInt16 :=
  [0x1301, 0x1302, 0x1303, 0xc02b, 0xc02f, 0xc02c, 0xc030, 0xc009, 0xc013, 0xc00a, 0xc014]

def desktop : TransportParameters := ⟨10000000, 1000000, 1000000, 100, 30000⟩

def mobile : TransportParameters := ⟨5000000, 500000, 500000, 100, 30000⟩

def firefoxDesktop : TransportParameters := ⟨12582912, 1048576, 1048576, 100, 60000⟩

def safariDesktop : TransportParameters := ⟨15728640, 2097152, 2097152, 100, 45000⟩

def chromeWindows : BuiltIn :=
  ⟨"Mozilla/5.0 (Windows NT 10.0; Win64; x64) AppleWebKit/537.36 (KHTML, like Gecko) " ++
          "Chrome/126.0.0.0 Safari/537.36",
    chromeSuites, "en-US,en;q=0.9", desktop⟩

/-- The built-in profile of a browser on a system, if there is one. -/
def find : BrowserProfile → OsProfile → Option BuiltIn
  | .chrome, .windows => some chromeWindows
  | .firefox, .windows =>
      some ⟨"Mozilla/5.0 (Windows NT 10.0; Win64; x64; rv:127.0) Gecko/20100101 Firefox/127.0",
        firefoxSuites, "en-US,en;q=0.5", firefoxDesktop⟩
  | .opera, .windows =>
      some ⟨"Mozilla/5.0 (Windows NT 10.0; Win64; x64) AppleWebKit/537.36 (KHTML, like Gecko) " ++
          "Chrome/126.0.0.0 Safari/537.36 OPR/112.0.0.0",
        chromeSuites, "en-US,en;q=0.9", desktop⟩
  | .brave, .windows =>
      some ⟨"Mozilla/5.0 (Windows NT 10.0; Win64; x64) AppleWebKit/537.36 (KHTML, like Gecko) " ++
          "Chrome/126.0.0.0 Safari/537.36 Brave/1.67.0",
        chromeSuites, "en-US,en;q=0.9", desktop⟩
  | .edge, .windows =>
      some ⟨"Mozilla/5.0 (Windows NT 10.0; Win64; x64) AppleWebKit/537.36 (KHTML, like Gecko) " ++
          "Chrome/126.0.0.0 Safari/537.36 Edg/126.0.0.0",
        chromeSuites, "en-US,en;q=0.9", desktop⟩
  | .edge, .macOS =>
      some ⟨"Mozilla/5.0 (Macintosh; Intel Mac OS X 13_6) AppleWebKit/537.36 (KHTML, like Gecko) " ++
          "Chrome/126.0.0.0 Safari/537.36 Edg/126.0.0.0",
        chromeSuites, "en-US,en;q=0.9", desktop⟩
  | .edge, .linux =>
      some ⟨"Mozilla/5.0 (X11; Linux x86_64) AppleWebKit/537.36 (KHTML, like Gecko) " ++
          "Chrome/126.0.0.0 Safari/537.36 Edg/126.0.0.0",
        chromeSuites, "en-US,en;q=0.9", desktop⟩
  | .vivaldi, .windows =>
      some ⟨"Mozilla/5.0 (Windows NT 10.0; Win64; x64) AppleWebKit/537.36 (KHTML, like Gecko) " ++
          "Chrome/126.0.0.0 Safari/537.36 Vivaldi/6.7.999.31",
        chromeSuites, "en-US,en;q=0.9", desktop⟩
  | .vivaldi, .macOS =>
      some ⟨"Mozilla/5.0 (Macintosh; Intel Mac OS X 13_6) AppleWebKit/537.36 (KHTML, like Gecko) " ++
          "Chrome/126.0.0.0 Safari/537.36 Vivaldi/6.7.999.31",
        chromeSuites, "en-US,en;q=0.9", desktop⟩
  | .vivaldi, .linux =>
      some ⟨"Mozilla/5.0 (X11; Linux x86_64) AppleWebKit/537.36 (KHTML, like Gecko) " ++
          "Chrome/126.0.0.0 Safari/537.36 Vivaldi/6.7.999.31",
        chromeSuites, "en-US,en;q=0.9", desktop⟩
  | .safari, .macOS =>
      some ⟨"Mozilla/5.0 (Macintosh; Intel Mac OS X 10_15_7) AppleWebKit/605.1.15 (KHTML, like Gecko) " ++
          "Version/17.5 Safari/605.1.15",
        safariSuites, "en-US,en;q=0.9", safariDesktop⟩
  | .chrome, .macOS =>
      some ⟨"Mozilla/5.0 (Macintosh; Intel Mac OS X 13_6) AppleWebKit/537.36 (KHTML, like Gecko) " ++
          "Chrome/126.0.0.0 Safari/537.36",
        chromeSuites, "en-US,en;q=0.9", desktop⟩
  | .opera, .macOS =>
      some ⟨"Mozilla/5.0 (Macintosh; Intel Mac OS X 13_6) AppleWebKit/537.36 (KHTML, like Gecko) " ++
          "Chrome/126.0.0.0 Safari/537.36 OPR/112.0.0.0",
        chromeSuites, "en-US,en;q=0.9", desktop⟩
  | .brave, .macOS =>
      some ⟨"Mozilla/5.0 (Macintosh; Intel Mac OS X 13_6) AppleWebKit/537.36 (KHTML, like Gecko) " ++
          "Chrome/126.0.0.0 Safari/537.36 Brave/1.67.0",
        chromeSuites, "en-US,en;q=0.9", desktop⟩
  | .firefox, .macOS =>
      some ⟨"Mozilla/5.0 (Macintosh; Intel Mac OS X 13_6; rv:127.0) Gecko/20100101 Firefox/127.0",
        firefoxSuites, "en-US,en;q=0.5", firefoxDesktop⟩
  | .chrome, .linux =>
      some ⟨"Mozilla/5.0 (X11; Linux x86_64) AppleWebKit/537.36 (KHTML, like Gecko) " ++
          "Chrome/126.0.0.0 Safari/537.36",
        chromeSuites, "en-US,en;q=0.9", desktop⟩
  | .opera, .linux =>
      some ⟨"Mozilla/5.0 (X11; Linux x86_64) AppleWebKit/537.36 (KHTML, like Gecko) " ++
          "Chrome/126.0.0.0 Safari/537.36 OPR/112.0.0.0",
        chromeSuites, "en-US,en;q=0.9", desktop⟩
  | .brave, .linux =>
      some ⟨"Mozilla/5.0 (X11; Linux x86_64) AppleWebKit/537.36 (KHTML, like Gecko) " ++
          "Chrome/126.0.0.0 Safari/537.36 Brave/1.67.0",
        chromeSuites, "en-US,en;q=0.9", desktop⟩
  | .firefox, .linux =>
      some ⟨"Mozilla/5.0 (X11; Ubuntu; Linux x86_64; rv:127.0) Gecko/20100101 Firefox/127.0",
        firefoxSuites, "en-US,en;q=0.5", firefoxDesktop⟩
  | .chrome, .android =>
      some ⟨"Mozilla/5.0 (Linux; Android 14; Pixel 8) AppleWebKit/537.36 (KHTML, like Gecko) " ++
          "Chrome/126.0.0.0 Mobile Safari/537.36",
        chromeSuites, "en-US,en;q=0.9", mobile⟩
  | .firefox, .android =>
      some ⟨"Mozilla/5.0 (Android 14; Mobile; rv:127.0) Gecko/127.0 Firefox/127.0",
        firefoxSuites, "en-US,en;q=0.9", mobile⟩
  | .opera, .android =>
      some ⟨"Mozilla/5.0 (Linux; Android 14; Pixel 8) AppleWebKit/537.36 (KHTML, like Gecko) " ++
          "Chrome/126.0.0.0 Mobile Safari/537.36 OPR/112.0.0.0",
        chromeSuites, "en-US,en;q=0.9", mobile⟩
  | .brave, .android =>
      some ⟨"Mozilla/5.0 (Linux; Android 14; Pixel 8) AppleWebKit/537.36 (KHTML, like Gecko) " ++
          "Chrome/126.0.0.0 Mobile Safari/537.36 Brave/1.67.0",
        chromeSuites, "en-US,en;q=0.9", mobile⟩
  | .edge, .android =>
      some ⟨"Mozilla/5.0 (Linux; Android 14; Pixel 8) AppleWebKit/537.36 (KHTML, like Gecko) " ++
          "Chrome/126.0.0.0 Mobile Safari/537.36 EdgA/126.0.0.0",
        chromeSuites, "en-US,en;q=0.9", mobile⟩
  | .vivaldi, .android =>
      some ⟨"Mozilla/5.0 (Linux; Android 14; Pixel 8) AppleWebKit/537.36 (KHTML, like Gecko) " ++
          "Chrome/126.0.0.0 Mobile Safari/537.36 Vivaldi/6.7.999.31",
        chromeSuites, "en-US,en;q=0.9", mobile⟩
  | .safari, .iOS =>
      some ⟨"Mozilla/5.0 (iPhone; CPU iPhone OS 17_5 like Mac OS X) AppleWebKit/605.1.15 (KHTML, like Gecko) " ++
          "Version/17.5 Mobile/15E148 Safari/604.1",
        safariSuites, "en-US,en;q=0.9", mobile⟩
  | _, _ => none

end BuiltIn

namespace Fingerprint

def ofBuiltIn (browser : BrowserProfile) (os : OsProfile) (b : BuiltIn) : Fingerprint where
  tlsCipherSuites := b.tlsCipherSuites
  clientHello := none
  serverHello := none
  certificate := none
  browser := browser
  os := os
  userAgent := b.userAgent
  acceptLanguage := b.acceptLanguage
  transport := b.transport

/-- A pair without a profile of its own gets the one for Chrome on Windows, with the record of the pair. -/
def new (dir : ProfileDirectory) (browser : BrowserProfile) (os : OsProfile) : Fingerprint :=
  let profile :=
    match BuiltIn.find browser os with
    | some b => ofBuiltIn browser os b
    | none => ofBuiltIn .chrome .windows BuiltIn.chromeWindows
  { profile with clientHello := TlsClientHelloSpoofer.loadClientHello dir browser os }

def generateHttpHeaders (profile : Fingerprint) : List (String × String) :=
  [("User-Agent", profile.userAgent),
    ("Accept", "text/html,application/xhtml+xml,application/xml;q=0.9,image/webp,*/*;q=0.8"),
    ("Accept-Language", profile.acceptLanguage),
    ("Accept-Encoding", "gzip, deflate, br"),
    ("Connection", "keep-alive")]

end Fingerprint

/-- An entry of a profile sequence: a browser, or a browser and a system.  What follows a second `@` is not looked at,
and an entry without a record is dropped. -/
def parseProfileEntry (dir : ProfileDirectory) (entry : List Char) (defaultOs : OsProfile) : Option Fingerprint := do
  let parts := entry.splitOn '@'
  let browser ← BrowserProfile.fromStr (← parts[0]?)
  let os ← match parts[1]? with
    | some osPart => OsProfile.fromStr osPart
    | none => some defaultOs
  let fp := Fingerprint.new dir browser os
  if fp.clientHello.isNone then none else some fp

end QuicFuscate.Stealth
