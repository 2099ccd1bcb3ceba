import Mathlib.Algebra.Ring.Nat
import Mathlib.Data.Nat.ModEq
import QuicFuscate.Stealth.Manager
import QuicFuscate.Stealth.Proofs.Profile
import QuicFuscate.Stealth.Proofs.TlsFfi

/-!
# What a manager shows of itself

Whatever order the tasks call a manager in, its answers depend on three things only: the browser and the system that
were set last, the number of connections that have been named so far, and whether a profile has been applied before.
`View` is this abstract state, and a process with a manager that was made from a configuration file and a command line
refines it; it also stops where the abstract one does, at the first profile that is applied with a library that has the
function looked up first.
-/

namespace QuicFuscate.Stealth

open Framework TlsClientHelloSpoofer

variable {dir : ProfileDirectory} {lib : TlsLibrary}

/-! ## The abstract manager -/

structure View where
  browser : BrowserProfile
  os : OsProfile
  /-- The connections that have been named. -/
  connections : ℕ
  /-- A profile has been applied. -/
  hooked : Bool

namespace View

def shown (v : View) : BrowserProfile × OsProfile × BuiltIn :=
  match BuiltIn.find v.browser v.os with
  | some e => (v.browser, v.os, e)
  | none => (.chrome, .windows, BuiltIn.chromeWindows)

/-- The record that is shown: the one for the pair that was set, or else for the one that is shown. -/
def hello (dir : ProfileDirectory) (v : View) : Option (List UInt8) :=
  (loadClientHello dir v.browser v.os).or (loadClientHello dir v.shown.1 v.shown.2.1)

def ciphers (v : View) : List Cipher := v.shown.2.2.tlsCipherSuites.filterMap mapIanaToQuicheCipher

def settings (dir : ProfileDirectory) (lib : TlsLibrary) (v : View) (cfg : TlsSettings) : TlsSettings where
  ciphers := if lib.takesCiphers v.ciphers then some v.ciphers else cfg.ciphers
  clientHello := (TlsFfi.injected lib.functions (v.hello dir) cfg).clientHello
  applicationProtos := ["h3"]
  transport := v.shown.2.2.transport

/-- Of a configuration file, only whether to forge a handshake counts. -/
def tls (dir : ProfileDirectory) (lib : TlsLibrary) (useFakeTls : Bool) (v : View) (cfg : TlsSettings)
    (enableUtls : Bool) : Option StealthAnswer :=
  if useFakeTls then
    some (.tls (some (FakeTls.handshake ⟨v.shown.2.2.tlsCipherSuites, v.hello dir, none, none⟩)) cfg)
  else if !enableUtls then some (.tls none cfg)
  else if !v.hooked && TlsFfi.has lib.functions (TlsFfi.firstHook (v.hello dir)) then none
  else some (.tls none (v.settings dir lib cfg))

def domains (flags : StealthFlags) : List String :=
  if flags.frontDomain = [] then
    ["www.cloudflare.com", "www.google.com", "azure.microsoft.com", "www.akamai.com", "www.fastly.com"]
  else flags.frontDomain

def sni (flags : StealthFlags) (v : View) (realHost : String) : String :=
  if flags.disableFronting then realHost
  else (domains flags).getD (v.connections % 2 ^ 64 % (domains flags).length) realHost

def requestHeaders (v : View) (host path : String) : List Header :=
  [(":method", "GET"), (":scheme", "https"), (":authority", host), (":path", path),
    ("user-agent", v.shown.2.2.userAgent), ("accept-language", v.shown.2.2.acceptLanguage),
    ("accept", "text/html,application/xhtml+xml,application/xml;q=0.9,image/webp,*/*;q=0.8"),
    ("accept-encoding", "gzip, deflate, br")]

def answer (dir : ProfileDirectory) (lib : TlsLibrary) (useFakeTls : Bool) (flags : StealthFlags) (v : View) :
    StealthCall → Option StealthAnswer
  | .setProfile _ _ => some .done
  | .configureTls cfg enableUtls _ => v.tls dir lib useFakeTls cfg enableUtls
  | .getConnectionHeaders realHost => some (.names (v.sni flags realHost) realHost)
  | .getHttp3HeaderList host path =>
      some (.headers (if flags.disableHttp3 then none else some (v.requestHeaders host path)))

def next (useFakeTls : Bool) (v : View) : StealthCall → View
  | .setProfile browser os => { v with browser := browser, os := os }
  | .configureTls _ enableUtls _ => { v with hooked := v.hooked || !useFakeTls && enableUtls }
  | .getConnectionHeaders _ => { v with connections := v.connections + 1 }
  | .getHttp3HeaderList _ _ => v

def answers (dir : ProfileDirectory) (lib : TlsLibrary) (useFakeTls : Bool) (flags : StealthFlags) :
    View → List StealthCall → Option (List StealthAnswer) :=
  Stateful.answersOf (answer dir lib useFakeTls flags) (next useFakeTls)

end View

/-! ## Profiles -/

def View.fingerprint (dir : ProfileDirectory) (v : View) : Fingerprint :=
  { Fingerprint.ofBuiltIn v.shown.1 v.shown.2.1 v.shown.2.2 with clientHello := v.hello dir }

@[simp] theorem new_clientHello (dir : ProfileDirectory) (b : BrowserProfile) (o : OsProfile) :
    (Fingerprint.new dir b o).clientHello = loadClientHello dir b o := rfl

private theorem completed_new (v : View) : (Fingerprint.new dir v.browser v.os).completed dir = v.fingerprint dir := by
  rw [Fingerprint.new, View.fingerprint, View.hello, View.shown, Fingerprint.completed]
  cases BuiltIn.find v.browser v.os with
  | some e =>
      dsimp only [Fingerprint.ofBuiltIn]
      cases loadClientHello dir v.browser v.os <;> rfl
  | none =>
      dsimp only [Fingerprint.ofBuiltIn]
      cases loadClientHello dir v.browser v.os <;> rfl

private theorem completed_fingerprint (v : View) : (v.fingerprint dir).completed dir = v.fingerprint dir := by
  rw [Fingerprint.completed]
  split
  · rename_i hnone
    have hhello : v.hello dir = none := Option.isNone_iff_eq_none.mp hnone
    have hshown : loadClientHello dir v.shown.1 v.shown.2.1 = none := (Option.or_eq_none_iff.mp hhello).2
    unfold View.fingerprint Fingerprint.ofBuiltIn
    rw [hshown, hhello]
  · rfl

private theorem shown_suites (v : View) :
    ∃ rest, v.shown.2.2.tlsCipherSuites = [0x1301, 0x1302, 0x1303] ++ rest ∧ 0xc02b ∈ rest := by
  obtain ⟨browser, os, n, hooked⟩ := v
  cases browser <;> cases os <;> exact ⟨_, rfl, by decide⟩

/-- A preferred suite is one that every profile offers, or one that the library does not know. -/
private theorem ciphers_suiteIds (v : View) (suite : CipherSuite) :
    (Manager.suiteIds (v.fingerprint dir) (some suite.tlsCipher)).filterMap mapIanaToQuicheCipher = v.ciphers := by
  obtain ⟨rest, hsuites, -⟩ := shown_suites v
  have hids : (v.fingerprint dir).tlsCipherSuites = v.shown.2.2.tlsCipherSuites := rfl
  rw [Manager.suiteIds, hids, View.ciphers]
  split
  · rfl
  · rename_i hnot
    rw [hsuites] at hnot
    have hunknown : mapIanaToQuicheCipher suite.tlsCipher = none := by
      cases suite with
      | aegis128X => exact absurd (by simp [CipherSuite.tlsCipher]) hnot
      | aegis128L => exact absurd (by simp [CipherSuite.tlsCipher]) hnot
      | aegis256 => exact absurd (by simp [CipherSuite.tlsCipher]) hnot
      | morus1280_128 => decide
      | morus1280_256 => decide
      | softwareFallback => decide
    rw [List.filterMap_cons_none hunknown]

private theorem ciphers_ne_nil (v : View) : v.ciphers ≠ [] := by
  obtain ⟨rest, hsuites, -⟩ := shown_suites v
  rw [View.ciphers, hsuites]
  exact List.cons_ne_nil _ _

/-! ## Refinement -/

private theorem handshake_ne_nil (profile : FingerprintProfile) : FakeTls.handshake profile ≠ [] := by
  intro h
  have hlength := congrArg List.length h
  rw [FakeTls.handshake] at hlength
  split at hlength <;>
    simp [FakeTls.handshakeCustomWithCert, FakeTls.serverResponseCustom, FakeTls.serverHelloCustom,
      FakeTls.certificateRecord, FakeTls.record] at hlength

/-- How a manager stands for a view. -/
structure Manager.Shows (dir : ProfileDirectory) (useFakeTls : Bool) (flags : StealthFlags) (m : Manager)
    (v : View) : Prop where
  fake : m.config.useFakeTls = useFakeTls
  fronting : m.config.enableDomainFronting = !flags.disableFronting
  http3 : m.config.enableHttp3Masquerading = !flags.disableHttp3
  fingerprint : m.fingerprint = v.fingerprint dir
  fronter : flags.disableFronting = false → m.domainFronter = some ⟨View.domains flags, v.connections % 2 ^ 64⟩

variable {m m' : Manager} {v : View} {useFakeTls : Bool} {flags : StealthFlags}

private theorem domains_ne_nil (flags : StealthFlags) : View.domains flags ≠ [] := by
  rw [View.domains]
  split
  · exact List.cons_ne_nil _ _
  · assumption

theorem Manager.shows_new (dir : ProfileDirectory) (flags : StealthFlags) (stealth : Option StealthSection)
    (key : List UInt8) :
    Shows dir (stealth.bind StealthSection.useFakeTls |>.getD false) flags
      (new dir key ((StealthConfig.fromToml stealth).withFlags flags)) ⟨flags.profile, flags.os, 0, false⟩ where
  fake := by
    cases stealth with
    | none => rfl
    | some sec => rfl
  fronting := rfl
  http3 := rfl
  fingerprint := completed_new ⟨flags.profile, flags.os, 0, false⟩
  fronter := by
    intro hfronting
    have hproviders : (StealthConfig.fromToml stealth).cdnProviders = StealthConfig.default.cdnProviders := by
      cases stealth <;> rfl
    simp only [new, StealthConfig.withFlags, hfronting, hproviders, View.domains]
    cases flags.frontDomain <;> rfl

/-- Applying a built-in profile, whatever suite is preferred, only sets what is shown and calls the hooks. -/
theorem Manager.Shows.applyUtlsProfile (h : m.Shows dir useFakeTls flags v) (cfg : TlsSettings) (suite : CipherSuite)
    (symbols : TlsFfi.Symbols) :
    m.applyUtlsProfile dir lib cfg (some suite.tlsCipher) symbols =
      (TlsFfi.injectRecord lib.functions (v.hello dir)
        { cfg with ciphers := if lib.takesCiphers v.ciphers then some v.ciphers else cfg.ciphers } symbols).map fun r =>
          ({ r.1 with applicationProtos := ["h3"], transport := v.shown.2.2.transport }, m, r.2) := by
  have hm : { m with fingerprint := v.fingerprint dir } = m := by rw [← h.fingerprint]
  have hhello : (v.fingerprint dir).clientHello = v.hello dir := rfl
  have htransport : (v.fingerprint dir).transport = v.shown.2.2.transport := rfl
  have hcfg : (if lib.takesCiphers v.ciphers = true then { cfg with ciphers := some v.ciphers } else cfg) =
      { cfg with ciphers := if lib.takesCiphers v.ciphers then some v.ciphers else cfg.ciphers } := by
    split <;> rfl
  unfold Manager.applyUtlsProfile
  rw [h.fingerprint, ciphers_suiteIds, if_pos (ciphers_ne_nil v), completed_fingerprint]
  dsimp only
  rw [hhello, hcfg]
  cases TlsFfi.injectRecord lib.functions (v.hello dir)
      { cfg with ciphers := if lib.takesCiphers v.ciphers then some v.ciphers else cfg.ciphers } symbols with
  | none => rfl
  | some r => simp [hm, htransport]

private theorem injected_settings (lib : TlsLibrary) (v : View) (cfg : TlsSettings) :
    TlsFfi.injected lib.functions (v.hello dir)
        { cfg with ciphers := if lib.takesCiphers v.ciphers then some v.ciphers else cfg.ciphers } =
      { cfg with
        ciphers := (v.settings dir lib cfg).ciphers
        clientHello := (v.settings dir lib cfg).clientHello } := by
  unfold TlsFfi.injected View.settings TlsFfi.injected
  cases v.hello dir with
  | none => rfl
  | some hello =>
      dsimp only
      split <;> rfl

/-- The settings are those of a process that only calls the hooks, with what is shown beside them. -/
theorem Manager.Shows.configureTls_hooks (h : m.Shows dir false flags v) (lib : TlsLibrary) (cfg : TlsSettings)
    (suite : CipherSuite) (symbols : TlsFfi.Symbols) :
    m.configureTls dir lib cfg true (some suite.tlsCipher) symbols =
      (TlsFfi.applyHooks lib.functions (v.hello dir)
        { cfg with ciphers := if lib.takesCiphers v.ciphers then some v.ciphers else cfg.ciphers } symbols).map fun r =>
          ((none, { r.1 with applicationProtos := ["h3"], transport := v.shown.2.2.transport }), m, r.2) := by
  rw [Manager.configureTls, h.fake, Bool.false_and, if_neg Bool.false_ne_true, if_pos rfl, h.applyUtlsProfile,
    TlsFfi.applyHooks]
  cases TlsFfi.injectRecord lib.functions (v.hello dir)
      { cfg with ciphers := if lib.takesCiphers v.ciphers then some v.ciphers else cfg.ciphers } symbols with
  | none => rfl
  | some r =>
      dsimp only [Option.map_some, Option.bind_eq_bind, Option.bind_some]
      cases TlsFfi.resolve lib.functions .disableGrease r.2 with
      | none => rfl
      | some r₁ =>
          dsimp only [Option.bind_some]
          cases TlsFfi.resolve lib.functions .setDeterministic r₁.2 with
          | none => rfl
          | some r₂ => rfl

theorem Manager.Shows.configureTls_forged (h : m.Shows dir true flags v) (lib : TlsLibrary) (cfg : TlsSettings)
    (enableUtls : Bool) (preferred : Option UInt16) (symbols : TlsFfi.Symbols) :
    m.configureTls dir lib cfg enableUtls preferred symbols =
      some ((some (FakeTls.handshake ⟨v.shown.2.2.tlsCipherSuites, v.hello dir, none, none⟩), cfg), m, symbols) := by
  have hforged : m.fakeTlsHandshake = FakeTls.handshake ⟨v.shown.2.2.tlsCipherSuites, v.hello dir, none, none⟩ := by
    rw [fakeTlsHandshake, h.fingerprint]
    rfl
  have hsome : m.fakeTlsHandshake.isEmpty = false := by
    rw [hforged, List.isEmpty_eq_false_iff]
    exact handshake_ne_nil _
  rw [Manager.configureTls, h.fake, hsome, ← hforged]
  rfl

theorem Manager.Shows.getConnectionHeaders (h : m.Shows dir useFakeTls flags v) (realHost : String) :
    ∃ m', m.getConnectionHeaders realHost = .ok ((v.sni flags realHost, realHost), m') ∧
      m'.Shows dir useFakeTls flags { v with connections := v.connections + 1 } := by
  rw [Manager.getConnectionHeaders, h.fronting, View.sni]
  cases hdisable : flags.disableFronting with
  | true =>
      refine ⟨m, rfl, ⟨h.fake, h.fronting, h.http3, h.fingerprint, fun hnot => ?_⟩⟩
      rw [hdisable] at hnot
      cases hnot
  | false =>
      have hlt : v.connections % 2 ^ 64 % (View.domains flags).length < (View.domains flags).length :=
        Nat.mod_lt _ (List.length_pos_iff.mpr (domains_ne_nil flags))
      have hfront : DomainFrontingManager.getFrontedDomain ⟨View.domains flags, v.connections % 2 ^ 64⟩ =
          .ok ((View.domains flags).getD (v.connections % 2 ^ 64 % (View.domains flags).length) realHost,
            ⟨View.domains flags, (v.connections % 2 ^ 64 + 1) % 2 ^ 64⟩) := by
        unfold DomainFrontingManager.getFrontedDomain
        dsimp only
        rw [readAt_getD hlt realHost]
        rfl
      rw [h.fronter hdisable]
      simp only [Bool.not_false, hfront, ok_bind]
      refine ⟨_, rfl, ⟨h.fake, h.fronting, h.http3, h.fingerprint, fun _ => ?_⟩⟩
      dsimp only
      rw [Nat.mod_add_mod]

theorem headerList_eq (p : Fingerprint) (host path : String) :
    FakeHeaders.headerList true p host path =
      [(":method", "GET"), (":scheme", "https"), (":authority", host), (":path", path), ("user-agent", p.userAgent),
        ("accept-language", p.acceptLanguage),
        ("accept", "text/html,application/xhtml+xml,application/xml;q=0.9,image/webp,*/*;q=0.8"),
        ("accept-encoding", "gzip, deflate, br")] := by
  rw [FakeHeaders.headerList, if_pos rfl]
  simp [Http3Masquerade.generateHeaders, Fingerprint.generateHttpHeaders, List.lookup_cons]

theorem Manager.Shows.getHttp3HeaderList (h : m.Shows dir useFakeTls flags v) (host path : String) :
    m.getHttp3HeaderList host path = if flags.disableHttp3 then none else some (v.requestHeaders host path) := by
  rw [Manager.getHttp3HeaderList, h.http3, h.fingerprint]
  cases flags.disableHttp3 with
  | true => rfl
  | false =>
      rw [Bool.not_false, if_pos rfl, if_neg Bool.false_ne_true, headerList_eq]
      rfl

/-- How a process stands for a view: its manager does, and the functions of the library are known once a profile has
been applied. -/
structure Process.Shows (dir : ProfileDirectory) (lib : TlsLibrary) (useFakeTls : Bool) (flags : StealthFlags)
    (p : Process) (v : View) : Prop where
  manager : p.manager.Shows dir useFakeTls flags v
  fresh : v.hooked = false → p.symbols = TlsFfi.noSymbols
  loaded : v.hooked = true → TlsFfi.Loaded lib.functions p.symbols

variable {p : Process}

theorem Manager.Shows.hooked (h : m.Shows dir useFakeTls flags v) (hooked : Bool) :
    m.Shows dir useFakeTls flags { v with hooked := hooked } :=
  ⟨h.fake, h.fronting, h.http3, h.fingerprint, h.fronter⟩

theorem Process.Shows.applyHooks (h : p.Shows dir lib useFakeTls flags v) (record : Option (List UInt8))
    (cfg : TlsSettings) :
    (!v.hooked && TlsFfi.has lib.functions (TlsFfi.firstHook record)) = true ∧
        TlsFfi.applyHooks lib.functions record cfg p.symbols = none ∨
      (!v.hooked && TlsFfi.has lib.functions (TlsFfi.firstHook record)) = false ∧ ∃ symbols,
        TlsFfi.applyHooks lib.functions record cfg p.symbols =
          some (TlsFfi.injected lib.functions record cfg, symbols) ∧
        TlsFfi.Loaded lib.functions symbols := by
  cases hhooked : v.hooked with
  | true => exact .inr ⟨rfl, (h.loaded hhooked).applyHooks record cfg⟩
  | false =>
      obtain ⟨hstuck, hreturns⟩ := TlsFfi.applyHooks_first lib.functions record cfg
      rw [h.fresh hhooked]
      cases hhas : TlsFfi.has lib.functions (TlsFfi.firstHook record) with
      | true => exact .inl ⟨rfl, hstuck hhas⟩
      | false => exact .inr ⟨rfl, hreturns hhas⟩

theorem Process.Shows.configureTls (h : p.Shows dir lib useFakeTls flags v) (cfg : TlsSettings) (enableUtls : Bool)
    (suite : CipherSuite) :
    (call dir lib (.configureTls cfg enableUtls suite)).Follows p (v.tls dir lib useFakeTls cfg enableUtls) fun p' =>
      p'.Shows dir lib useFakeTls flags { v with hooked := v.hooked || !useFakeTls && enableUtls } := by
  cases useFakeTls with
  | true =>
      have hrun := h.manager.configureTls_forged lib cfg enableUtls (some suite.tlsCipher) p.symbols
      refine ⟨p, ?_, ?_⟩
      · dsimp only [call]
        rw [hrun]
        rfl
      · simpa using h
  | false =>
      cases enableUtls with
      | false =>
          refine ⟨p, ?_, ?_⟩
          · dsimp only [call]
            rw [Manager.configureTls, h.manager.fake]
            rfl
          · simpa using h
      | true =>
          have hrun := h.manager.configureTls_hooks lib cfg suite p.symbols
          rw [View.tls, if_neg Bool.false_ne_true, Bool.not_true, if_neg Bool.false_ne_true]
          rcases h.applyHooks (v.hello dir)
            { cfg with ciphers := if lib.takesCiphers v.ciphers then some v.ciphers else cfg.ciphers } with
            ⟨hfirst, hnone⟩ | ⟨hlater, symbols, hsome, hloaded⟩
          · rw [if_pos hfirst]
            dsimp only [call, Stateful.Follows]
            rw [hrun, hnone]
            rfl
          · rw [if_neg (by rw [hlater]; exact Bool.false_ne_true)]
            refine ⟨⟨p.manager, symbols⟩, ?_, ⟨h.manager.hooked _, fun hfresh => ?_, fun _ => hloaded⟩⟩
            · dsimp only [call]
              rw [hrun, hsome, injected_settings]
              rfl
            · simp at hfresh

theorem Process.Shows.call (h : p.Shows dir lib useFakeTls flags v) (c : StealthCall) :
    (Process.call dir lib c).Follows p (v.answer dir lib useFakeTls flags c) fun p' =>
      p'.Shows dir lib useFakeTls flags (v.next useFakeTls c) := by
  obtain ⟨hmanager, hfresh, hloaded⟩ := h
  cases c with
  | setProfile browser os =>
      refine ⟨_, rfl, ⟨⟨hmanager.fake, hmanager.fronting, hmanager.http3, ?_, hmanager.fronter⟩, hfresh, hloaded⟩⟩
      exact completed_new ⟨browser, os, v.connections, v.hooked⟩
  | configureTls cfg enableUtls suite =>
      exact Process.Shows.configureTls ⟨hmanager, hfresh, hloaded⟩ cfg enableUtls suite
  | getConnectionHeaders realHost =>
      obtain ⟨m', hrun, hshows⟩ := hmanager.getConnectionHeaders realHost
      refine ⟨{ p with manager := m' }, ?_, ⟨hshows, hfresh, hloaded⟩⟩
      dsimp only [Process.call]
      rw [hrun]
      rfl
  | getHttp3HeaderList host path =>
      refine ⟨p, ?_, ⟨hmanager, hfresh, hloaded⟩⟩
      dsimp only [Process.call]
      rw [hmanager.getHttp3HeaderList]

theorem Process.Shows.run (h : p.Shows dir lib useFakeTls flags v) (calls : List StealthCall) :
    (Stateful.runEach (Process.call dir lib) calls).Follows p (v.answers dir lib useFakeTls flags calls) fun p' =>
      p'.Shows dir lib useFakeTls flags (calls.foldl (View.next useFakeTls) v) :=
  Stateful.runEach_follows (Process.Shows dir lib useFakeTls flags) (fun _ _ c h => Process.Shows.call h c) h calls

theorem Process.shows_start (dir : ProfileDirectory) (lib : TlsLibrary) (flags : StealthFlags)
    (stealth : Option StealthSection) (key : List UInt8) :
    (start (.new dir key ((StealthConfig.fromToml stealth).withFlags flags))).Shows dir lib
      (stealth.bind StealthSection.useFakeTls |>.getD false) flags ⟨flags.profile, flags.os, 0, false⟩ :=
  ⟨Manager.shows_new dir flags stealth key, fun _ => rfl, fun h => absurd h Bool.false_ne_true⟩

private theorem map_range_getD_mod {α : Type} {xs : List α} (hxs : xs ≠ []) (d : α) (n : ℕ) :
    (List.range n).map (fun j => xs.getD (j % xs.length) d) =
      (List.replicate (n / xs.length) xs).flatten ++ xs.take (n % xs.length) := by
  have hpos : 0 < xs.length := List.length_pos_iff.mpr hxs
  induction n with
  | zero => simp
  | succ n ih =>
      have hlt := Nat.mod_lt n hpos
      have hdiv := Nat.mod_add_div n xs.length
      have hnext : xs.take (n % xs.length) ++ [xs.getD (n % xs.length) d] = xs.take (n % xs.length + 1) := by
        rw [List.getD_eq_getElem _ _ hlt, List.take_append_getElem]
      rw [List.range_succ, List.map_append, ih, List.map_singleton, List.append_assoc, hnext]
      rcases Nat.lt_or_eq_of_le (Nat.succ_le_of_lt hlt) with hless | hlast
      · obtain ⟨hq, hr⟩ := (Nat.div_mod_unique (a := n + 1) (d := n / xs.length) (c := n % xs.length + 1) hpos).mpr
          ⟨by omega, hless⟩
        rw [hq, hr]
      · obtain ⟨hq, hr⟩ := (Nat.div_mod_unique (a := n + 1) (d := n / xs.length + 1) (c := 0) hpos).mpr
          ⟨by rw [Nat.mul_add]; omega, hpos⟩
        rw [hq, hr, List.replicate_succ', List.flatten_append, List.flatten_singleton, List.take_zero, List.append_nil,
          List.take_of_length_le (by omega)]

def namedConnections (calls : List StealthCall) : ℕ :=
  calls.countP fun c => match c with
    | .getConnectionHeaders _ => true
    | _ => false

def shownNames (answers : List StealthAnswer) : List String :=
  answers.filterMap fun a => match a with
    | .names sni _ => some sni
    | _ => none

theorem View.sni_eq (hfronting : flags.disableFronting = false) (v : View) (realHost : String) :
    v.sni flags realHost = (domains flags).getD (v.connections % 2 ^ 64 % (domains flags).length) "" := by
  have hlt : v.connections % 2 ^ 64 % (domains flags).length < (domains flags).length :=
    Nat.mod_lt _ (List.length_pos_iff.mpr (domains_ne_nil flags))
  rw [View.sni, hfronting, if_neg Bool.false_ne_true, List.getD_eq_getElem _ _ hlt, List.getD_eq_getElem _ _ hlt]

private theorem shownNames_tls {v : View} {cfg : TlsSettings} {enableUtls : Bool} {a : StealthAnswer}
    (h : v.tls dir lib useFakeTls cfg enableUtls = some a) (rest : List StealthAnswer) :
    shownNames (a :: rest) = shownNames rest := by
  have htls : ∃ hello cfg', a = .tls hello cfg' := by
    rw [View.tls] at h
    split at h
    · exact ⟨_, _, (Option.some.inj h).symm⟩
    · split at h
      · exact ⟨_, _, (Option.some.inj h).symm⟩
      · split at h
        · cases h
        · exact ⟨_, _, (Option.some.inj h).symm⟩
  obtain ⟨hello, cfg', rfl⟩ := htls
  rfl

private theorem shownNames_answers (hfronting : flags.disableFronting = false) {calls : List StealthCall} {v : View}
    {answers : List StealthAnswer} (h : v.answers dir lib useFakeTls flags calls = some answers) :
    shownNames answers = (List.range (namedConnections calls)).map fun j =>
      (View.domains flags).getD ((v.connections + j) % 2 ^ 64 % (View.domains flags).length) "" := by
  induction calls generalizing v answers with
  | nil =>
      cases h
      rfl
  | cons c calls ih =>
      rw [View.answers, Stateful.answersOf, Option.bind_eq_bind, Option.bind_eq_some_iff] at h
      obtain ⟨a, hanswer, h⟩ := h
      obtain ⟨rest, hrest, h⟩ := Option.bind_eq_some_iff.mp h
      cases h
      have hnames := ih hrest
      cases c with
      | getConnectionHeaders realHost =>
          cases hanswer
          rw [namedConnections, List.countP_cons_of_pos rfl, List.range_succ_eq_map, List.map_cons, List.map_map,
            ← namedConnections]
          refine congrArg₂ List.cons (View.sni_eq hfronting v realHost) (hnames.trans ?_)
          apply List.map_congr_left
          intro j _
          have hshift : v.connections + 1 + j = v.connections + (j + 1) := by omega
          simp only [View.next, Function.comp_apply, hshift]
      | setProfile browser os =>
          cases hanswer
          exact hnames
      | configureTls cfg enableUtls suite => exact (shownNames_tls hanswer rest).trans hnames
      | getHttp3HeaderList host path =>
          cases hanswer
          exact hnames

/-- With fronting, the connections of a run show the domains in turn: a domain is shown as often as
it is in the list for every full turn, and at most as often again in the turn that has begun.  The
counter must not have wrapped. -/
theorem Process.fronted_evenly (dir : ProfileDirectory) (lib : TlsLibrary) (stealth : Option StealthSection)
    {flags : StealthFlags} (hfronting : flags.disableFronting = false) (key : List UInt8) {calls : List StealthCall}
    (hcount : namedConnections calls ≤ 2 ^ 64) {answers : List StealthAnswer}
    (hrun : (Stateful.runEach (call dir lib) calls).run
      (start (.new dir key ((StealthConfig.fromToml stealth).withFlags flags))) = some (.ok (answers, p)))
    (domain : String) :
    let turns := namedConnections calls / (View.domains flags).length
    turns * (View.domains flags).count domain ≤ (shownNames answers).count domain ∧
      (shownNames answers).count domain ≤ (turns + 1) * (View.domains flags).count domain := by
  intro turns
  have hspec := ((shows_start dir lib flags stealth key).run calls).result_eq
  rw [Stateful.result, hrun] at hspec
  obtain ⟨answers', hanswers, heq⟩ := Option.map_eq_some_iff.mp hspec.symm
  obtain rfl : answers' = answers := Except.ok.inj heq
  have hnames : shownNames answers' =
      (List.replicate turns (View.domains flags)).flatten ++
        (View.domains flags).take (namedConnections calls % (View.domains flags).length) := by
    rw [shownNames_answers hfronting hanswers, ← map_range_getD_mod (domains_ne_nil flags) ""]
    apply List.map_congr_left
    intro j hj
    have hlt : j < 2 ^ 64 := (List.mem_range.mp hj).trans_le hcount
    dsimp only
    rw [Nat.zero_add, Nat.mod_eq_of_lt hlt]
  have hfull : (List.replicate turns (View.domains flags)).flatten.count domain =
      turns * (View.domains flags).count domain := by
    rw [List.count_flatten, List.map_replicate, List.sum_replicate_nat]
  have hpart : ((View.domains flags).take (namedConnections calls % (View.domains flags).length)).count domain ≤
      (View.domains flags).count domain := (List.take_sublist _ _).count_le domain
  rw [hnames, List.count_append, hfull, Nat.add_mul, Nat.one_mul]
  omega

def twoDomains : StealthFlags := ⟨.chrome, .windows, true, "", false, ["a.example", "b.example"], false, false⟩

/-- A profile is applied between the connections, with a library that has no functions of its own. -/
def threeConnections : List StealthCall :=
  [.getConnectionHeaders "h", .configureTls ⟨none, none, [], BuiltIn.desktop⟩ true .aegis128L,
    .getConnectionHeaders "h", .getConnectionHeaders "h"]

theorem Process.fronted_evenly_two_domains : ∃ answers p,
    (Stateful.runEach (call ⟨[], fun _ => none⟩ ⟨fun _ => true, none⟩) threeConnections).run
      (start (.new ⟨[], fun _ => none⟩ [] ((StealthConfig.fromToml none).withFlags twoDomains))) =
        some (.ok (answers, p)) ∧
    1 * 1 ≤ (shownNames answers).count "b.example" ∧ (shownNames answers).count "b.example" ≤ (1 + 1) * 1 := by
  obtain ⟨p, hrun, -⟩ :=
    (shows_start ⟨[], fun _ => none⟩ ⟨fun _ => true, none⟩ twoDomains none []).run threeConnections
  exact ⟨_, p, hrun,
    fronted_evenly ⟨[], fun _ => none⟩ ⟨fun _ => true, none⟩ none rfl [] (by decide) hrun "b.example"⟩

/-! ## One browser -/

namespace Fingerprint

/-- All parts of a profile belong to the browser and the system that it names. -/
def Harmonized (dir : ProfileDirectory) (p : Fingerprint) : Prop :=
  ∃ e, BuiltIn.find p.browser p.os = some e ∧
    p = { ofBuiltIn p.browser p.os e with clientHello := loadClientHello dir p.browser p.os }

end Fingerprint

/-- A pair whose record does not contradict the profile that is shown for it. -/
def Fits (dir : ProfileDirectory) (browser : BrowserProfile) (os : OsProfile) : Prop :=
  (BuiltIn.find browser os).isSome = true ∨ loadClientHello dir browser os = none ∨
    loadClientHello dir browser os = loadClientHello dir .chrome .windows

private theorem harmonized_iff_fits (v : View) : (v.fingerprint dir).Harmonized dir ↔ Fits dir v.browser v.os := by
  have hshown : BuiltIn.find v.shown.1 v.shown.2.1 = some v.shown.2.2 := by
    rw [View.shown]
    cases h : BuiltIn.find v.browser v.os with
    | some e => exact h
    | none => rfl
  have hrecord : (v.fingerprint dir).Harmonized dir ↔ v.hello dir = loadClientHello dir v.shown.1 v.shown.2.1 := by
    constructor
    · rintro ⟨e, -, h⟩
      exact congrArg (fun p => p.clientHello) h
    · intro h
      refine ⟨v.shown.2.2, hshown, ?_⟩
      rw [View.fingerprint, h]
      rfl
  rw [hrecord, View.hello, View.shown, Fits]
  cases BuiltIn.find v.browser v.os with
  | some e => simp
  | none => cases loadClientHello dir v.browser v.os <;> simp [eq_comm]

/-! ## Rotation -/

/-- An entry of a sequence: a browser for the default system, or a browser and a system, and then possibly more. -/
def EntryNames (entry : List Char) (defaultOs : OsProfile) (b : BrowserProfile) (o : OsProfile) : Prop :=
  ∃ browser, toLowercase browser = browserName b ∧
    ((entry = browser ∧ o = defaultOs) ∨
      ∃ os tail, o.IsName (toLowercase os) ∧ (tail = [] ∨ tail.head? = some '@') ∧ entry = browser ++ '@' :: os ++ tail)

private theorem entryNames_of_splitOn {entry browser : List Char} {rest : List (List Char)} {defaultOs o : OsProfile}
    {b : BrowserProfile} (hsplit : entry.splitOn '@' = browser :: rest) (hb : BrowserProfile.fromStr browser = some b)
    (ho : (rest[0]?.map OsProfile.fromStr).getD (some defaultOs) = some o) : EntryNames entry defaultOs b o := by
  have hentry : ['@'].intercalate (entry.splitOn '@') = entry := List.intercalate_splitOn '@'
  rw [hsplit] at hentry
  refine ⟨browser, browserFromStr_eq_some.mp hb, ?_⟩
  cases rest with
  | nil =>
      refine .inl ⟨?_, (Option.some.inj ho).symm⟩
      rw [← hentry, List.intercalate_singleton]
  | cons os rest =>
      refine .inr ⟨os, if rest = [] then [] else '@' :: ['@'].intercalate rest, osFromStr_eq_some.mp ho, ?_, ?_⟩
      · split
        · exact .inl rfl
        · exact .inr rfl
      · rw [← hentry, List.intercalate_cons_cons]
        cases rest with
        | nil => simp
        | cons more rest => simp [List.intercalate_cons_cons]

private theorem parseProfileEntry_eq_some {entry : List Char} {defaultOs : OsProfile} {p : Fingerprint}
    (h : parseProfileEntry dir entry defaultOs = some p) :
    ∃ b o, EntryNames entry defaultOs b o ∧ (loadClientHello dir b o).isSome = true ∧ p = Fingerprint.new dir b o := by
  obtain ⟨browser, rest, hsplit⟩ := List.exists_cons_of_ne_nil (List.splitOn_ne_nil '@' entry)
  -- An entry without a record is dropped.
  have hrecord : ∀ {b o}, (if (Fingerprint.new dir b o).clientHello.isNone = true then none
      else some (Fingerprint.new dir b o)) = some p →
        (loadClientHello dir b o).isSome = true ∧ p = Fingerprint.new dir b o := by
    intro b o h
    split at h
    · cases h
    · rename_i hsome
      rw [new_clientHello, Bool.not_eq_true, Option.isNone_eq_false_iff] at hsome
      exact ⟨hsome, (Option.some.inj h).symm⟩
  rw [parseProfileEntry, hsplit] at h
  simp only [List.getElem?_cons_zero, List.getElem?_cons_succ, Option.bind_eq_bind, Option.bind_some,
    Option.bind_eq_some_iff] at h
  obtain ⟨b, hb, h⟩ := h
  cases hrest : rest[0]? with
  | none =>
      rw [hrest] at h
      exact ⟨b, defaultOs, entryNames_of_splitOn hsplit hb (by rw [hrest]; rfl), hrecord h⟩
  | some os =>
      rw [hrest] at h
      dsimp only at h
      obtain ⟨o, ho, h⟩ := Option.bind_eq_some_iff.mp h
      exact ⟨b, o, entryNames_of_splitOn hsplit hb (by rw [hrest]; exact ho), hrecord h⟩

/-- A task that rotates through the entries of a sequence shows them in turn, each with its own
record.  What it shows is one browser unless the entry has no profile of its own and its record is
not that of the profile in its place. -/
theorem rotation_harmonized (dir : ProfileDirectory) (entries : List (List Char)) (defaultOs : OsProfile) (m : Manager)
    (hsome : entries.filterMap (fun entry => parseProfileEntry dir entry defaultOs) ≠ []) (n : ℕ) :
    let profiles := entries.filterMap fun entry => parseProfileEntry dir entry defaultOs
    ∃ m' entry b o,
      loopTo (n + 1) (0, m) (fun _ s => rotate dir profiles s.1 s.2) = .ok ((n + 1) % profiles.length, m') ∧
      profiles[(n + 1) % profiles.length]? = some m'.fingerprint ∧ entry ∈ entries ∧ EntryNames entry defaultOs b o ∧
      m'.fingerprint = Fingerprint.new dir b o ∧ m'.fingerprint.clientHello = loadClientHello dir b o ∧
      (m'.fingerprint.Harmonized dir ↔
        (BuiltIn.find b o).isSome = true ∨ loadClientHello dir b o = loadClientHello dir .chrome .windows) := by
  intro profiles
  have hpos : 0 < profiles.length := List.length_pos_iff.mpr hsome
  have hcomplete : ∀ p ∈ profiles, p.completed dir = p := by
    intro p hp
    obtain ⟨entry, -, hparse⟩ := List.mem_filterMap.mp hp
    obtain ⟨b, o, -, hrecord, rfl⟩ := parseProfileEntry_eq_some hparse
    rw [Fingerprint.completed, new_clientHello, if_neg]
    rwa [Bool.not_eq_true, Option.isNone_eq_false_iff]
  have hturn : ∀ (idx : ℕ) (m : Manager), ∃ p, profiles[(idx + 1) % profiles.length]? = some p ∧
      rotate dir profiles idx m = .ok ((idx + 1) % profiles.length, { m with fingerprint := p }) := by
    intro idx m
    have hlt := Nat.mod_lt (idx + 1) hpos
    refine ⟨_, List.getElem?_eq_getElem hlt, ?_⟩
    rw [rotate, readAt_of_lt hlt, ok_bind, Manager.setFingerprintProfile, hcomplete _ (List.getElem_mem hlt)]
    rfl
  obtain ⟨⟨idx, m'⟩, hloop, hidx, hshown⟩ := loopTo_ok (n := n + 1) (s := ((0 : ℕ), m))
    (f := fun _ s => rotate dir profiles s.1 s.2)
    (fun i s => s.1 = i % profiles.length ∧ (0 < i → profiles[i % profiles.length]? = some s.2.fingerprint))
    ⟨(Nat.zero_mod _).symm, fun h => absurd h (Nat.lt_irrefl 0)⟩ (by
      rintro i ⟨idx, m₁⟩ - ⟨rfl, -⟩
      obtain ⟨p, hp, hrotate⟩ := hturn (i % profiles.length) m₁
      rw [Nat.mod_add_mod] at hp hrotate
      exact ⟨_, hrotate, rfl, fun _ => hp⟩)
  have hfound := hshown (Nat.succ_pos n)
  obtain ⟨entry, hentry, hparse⟩ := List.mem_filterMap.mp (List.mem_of_getElem? hfound)
  obtain ⟨b, o, hnames, hrecord, hnew⟩ := parseProfileEntry_eq_some hparse
  refine ⟨m', entry, b, o, ?_, hfound, hentry, hnames, hnew, by rw [hnew]; rfl, ?_⟩
  · rw [hloop]
    exact congrArg (fun idx => Except.ok (idx, m')) hidx
  · have hview : m'.fingerprint = View.fingerprint dir ⟨b, o, 0, false⟩ := by
      rw [← completed_new ⟨b, o, 0, false⟩, ← hcomplete _ (List.mem_of_getElem? hfound), hnew]
    rw [hview, harmonized_iff_fits, Fits]
    constructor
    · rintro (h | h | h)
      · exact .inl h
      · dsimp only at h
        rw [h] at hrecord
        cases hrecord
      · exact .inr h
    · exact fun h => h.imp id .inr

def twoRecords : ProfileDirectory where
  entries := [profilePath .chrome .windows, profilePath .safari .windows]
  record name :=
    if name = profilePath .chrome .windows then some [1]
    else if name = profilePath .safari .windows then some [2] else none

theorem rotation_harmonized_two_records :
    let profiles := ["chrome".toList, "Safari@WINDOWS".toList].filterMap fun entry =>
      parseProfileEntry twoRecords entry .windows
    ∃ m', loopTo 3 (0, Manager.new twoRecords [] .default) (fun _ s => rotate twoRecords profiles s.1 s.2) =
      .ok (1, m') ∧
      m'.fingerprint.browser = .chrome ∧ m'.fingerprint.clientHello = some [2] ∧
        ¬ m'.fingerprint.Harmonized twoRecords := by
  intro profiles
  obtain ⟨m', entry, b, o, hrun, hfound, -, -, -, -, -⟩ := rotation_harmonized twoRecords
    ["chrome".toList, "Safari@WINDOWS".toList] .windows (.new twoRecords [] .default) (by decide) 2
  have hprofile : m'.fingerprint = Fingerprint.new twoRecords .safari .windows := by
    refine Option.some.inj (hfound.symm.trans ?_)
    decide
  have htwo : profiles.length = 2 := by decide
  refine ⟨m', ?_, ?_, ?_, ?_⟩
  · rw [htwo] at hrun
    exact hrun
  · rw [hprofile]
    rfl
  · rw [hprofile]
    decide
  · rw [hprofile]
    rintro ⟨e, -, h⟩
    have hhello : loadClientHello twoRecords .safari .windows = loadClientHello twoRecords .chrome .windows :=
      congrArg (fun p => p.clientHello) h
    exact absurd hhello (by decide)

end QuicFuscate.Stealth
