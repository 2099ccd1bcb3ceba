import QuicFuscate.Core.Proofs.Loop
import QuicFuscate.Stealth.Proofs.Manager

/-!
# The request of the client

A client sends one request in its life: the first one that the HTTP/3 layer takes.  It names the host of the
connection, not the domain in front of it, and its pseudo-headers come first.
-/

namespace QuicFuscate.Core

open Framework Fec Stealth QuicFuscateConnection

structure Http3Answers.AllOk (answers : Http3Answers) : Prop where
  config : answers.config = .ok ()
  transport : answers.transport = .ok ()
  request : answers.request = .ok ()

namespace Client

variable {host : Host} {path : String} {c c' : Client} {it : ClientIteration} {pass : ClientPass}

/-- The headers of a request: plain, or followed by those of a browser. -/
def IsRequest (hostHeader path : String) (headers : List Header) : Prop :=
  headers = plainHeaders hostHeader path ∨ ∃ p : Fingerprint, headers = plainHeaders hostHeader path ++
    [("user-agent", p.userAgent), ("accept-language", p.acceptLanguage),
      ("accept", "text/html,application/xhtml+xml,application/xml;q=0.9,image/webp,*/*;q=0.8"),
      ("accept-encoding", "gzip, deflate, br")]

private theorem isRequest_headers (manager : Manager) (hostHeader path : String) :
    IsRequest hostHeader path ((manager.getHttp3HeaderList hostHeader path).getD (plainHeaders hostHeader path)) := by
  rw [Manager.getHttp3HeaderList]
  split
  · refine .inr ⟨manager.fingerprint, ?_⟩
    rw [Option.getD_some, headerList_eq]
    rfl
  · exact .inl rfl

private theorem sendHttp3Request_cases (c : Client) (answers : Http3Answers) (manager : Manager) (path : String) :
    ((c.sendHttp3Request answers manager path).2.hostHeader = c.hostHeader ∧
      (c.sendHttp3Request answers manager path).2.requestSent = c.requestSent) ∧
    ((∃ e, (c.sendHttp3Request answers manager path).1 = .error e ∧ ¬ answers.AllOk) ∨
      ∃ headers, (c.sendHttp3Request answers manager path).1 = .ok headers ∧ answers.request = .ok () ∧
        IsRequest c.hostHeader path headers) := by
  rw [sendHttp3Request]
  cases hinit : c.initHttp3 answers with
  | error e =>
      refine ⟨⟨rfl, rfl⟩, .inl ⟨e, rfl, fun hall => ?_⟩⟩
      rw [initHttp3, hall.config, hall.transport] at hinit
      split at hinit <;> cases hinit
  | ok c₁ =>
      obtain rfl := initHttp3_eq_ok hinit
      refine ⟨⟨rfl, rfl⟩, ?_⟩
      cases hrequest : answers.request with
      | error e =>
          refine .inl ⟨e, by dsimp only [Except.map], fun hall => ?_⟩
          rw [hall.request] at hrequest
          cases hrequest
      | ok u => exact .inr ⟨_, rfl, rfl, isRequest_headers manager c.hostHeader path⟩

private theorem request_cases (c : Client) (it : ClientIteration) (path : String) :
    (c.request it path).2.hostHeader = c.hostHeader ∧
      (((c.request it path).1 = none ∧ (c.request it path).2.requestSent = c.requestSent ∧
          (c.requestSent = false → it.established = true → ¬ it.http3.AllOk)) ∨
        ∃ headers, (c.request it path).1 = some headers ∧ c.requestSent = false ∧
          (c.request it path).2.requestSent = true ∧ it.established = true ∧ it.http3.request = .ok () ∧
          IsRequest c.hostHeader path headers) := by
  rw [request]
  split
  · rename_i hdue
    rw [Bool.and_eq_true, Bool.not_eq_true'] at hdue
    obtain ⟨⟨hhost, hsent⟩, hcases⟩ := c.sendHttp3Request_cases it.http3 it.manager path
    split <;> rename_i heq <;> rw [heq] at hhost hsent hcases <;> refine ⟨hhost, ?_⟩
    · rename_i headers c₁
      rcases hcases with ⟨e, herror, -⟩ | ⟨headers', hok, hrequest, hshape⟩
      · cases herror
      · cases hok
        exact .inr ⟨headers, rfl, hdue.2, rfl, hdue.1, hrequest, hshape⟩
    · rcases hcases with ⟨e, -, hnot⟩ | ⟨headers', hok, -⟩
      · exact .inl ⟨rfl, hsent, fun _ _ => hnot⟩
      · cases hok
  · rename_i hdue
    refine ⟨rfl, .inl ⟨rfl, rfl, fun hsent hest => ?_⟩⟩
    rw [hest, hsent] at hdue
    exact absurd rfl hdue

private theorem receive_same {read : SocketRead} {delivered : List (List UInt8)}
    (h : c.receive host read = .ok (delivered, c')) :
    c'.hostHeader = c.hostHeader ∧ c'.requestSent = c.requestSent := by
  cases read with
  | data input =>
      rw [receive, bind_eq_ok] at h
      obtain ⟨⟨call, conn⟩, -, h⟩ := h
      cases h
      exact ⟨rfl, rfl⟩
  | wouldBlock =>
      cases h
      exact ⟨rfl, rfl⟩
  | failed =>
      cases h
      exact ⟨rfl, rfl⟩

private theorem step_request (hstep : c.step host path it = .ok (pass, c')) :
    c'.hostHeader = c.hostHeader ∧
      ((pass.request = none ∧ c'.requestSent = c.requestSent ∧
          (c.requestSent = false → it.read ≠ .failed → it.established = true → ¬ it.http3.AllOk)) ∨
        ∃ headers, pass.request = some headers ∧ c.requestSent = false ∧ c'.requestSent = true ∧
          it.established = true ∧ it.http3.request = .ok () ∧ IsRequest c.hostHeader path headers) := by
  rcases step_eq_ok hstep with ⟨hfailed, rfl, rfl⟩ | ⟨c₁, conn, out, hreceive, hrequest, -, rfl⟩
  · exact ⟨rfl, .inl ⟨rfl, rfl, fun _ hread => absurd hfailed hread⟩⟩
  · obtain ⟨hhost, hsent⟩ := receive_same hreceive
    obtain ⟨hhost', hcases⟩ := c₁.request_cases it path
    rw [hrequest]
    refine ⟨hhost'.trans hhost, ?_⟩
    rcases hcases with ⟨hnone, hkept, hnot⟩ | ⟨headers, hsome, hunsent, hdone, hest, hok, hshape⟩
    · exact .inl ⟨hnone, hkept.trans hsent, fun hfalse _ => hnot (hsent.trans hfalse)⟩
    · exact .inr ⟨headers, hsome, hsent.symm.trans hunsent, hdone, hest, hok, hhost ▸ hshape⟩

private theorem run_request_sent {its : List ClientIteration} {passes : List ClientPass} (hsent : c.requestSent = true)
    (hrun : runAll (Client.step host path) c its = .ok (passes, c')) : passes.filterMap ClientPass.request = [] := by
  induction its generalizing c passes with
  | nil =>
      cases hrun
      rfl
  | cons it its ih =>
      obtain ⟨pass, c₁, passes', hstep, hrest, rfl⟩ := runAll_cons_eq_ok.mp hrun
      rcases (step_request hstep).2 with ⟨hnone, hkept, -⟩ | ⟨headers, -, hunsent, -⟩
      · rw [List.filterMap_cons_none hnone]
        exact ih (hkept.trans hsent) hrest
      · rw [hsent] at hunsent
        cases hunsent

/-- In every run the client sends at most one request.  It is for the host of the connection, its pseudo-headers come
first, and it is missing only if every iteration on an established connection met a refusal. -/
theorem run_requests (host : Host) (path : String) {c c' : Client} (hunsent : c.requestSent = false)
    {its : List ClientIteration} {passes : List ClientPass}
    (hrun : runAll (Client.step host path) c its = .ok (passes, c')) :
    (passes.filterMap ClientPass.request = [] ∧
      ∀ it ∈ its, it.read ≠ .failed → it.established = true → ¬ it.http3.AllOk) ∨
    ∃ headers, passes.filterMap ClientPass.request = [headers] ∧ IsRequest c.hostHeader path headers ∧
      ∃ it ∈ its, it.established = true ∧ it.http3.request = .ok () := by
  induction its generalizing c passes with
  | nil =>
      cases hrun
      exact .inl ⟨rfl, fun it hit => absurd hit List.not_mem_nil⟩
  | cons it its ih =>
      obtain ⟨pass, c₁, passes', hstep, hrest, rfl⟩ := runAll_cons_eq_ok.mp hrun
      obtain ⟨hhost, hcases⟩ := step_request hstep
      rcases hcases with ⟨hnone, hkept, hnot⟩ | ⟨headers, hsome, -, hdone, hest, hok, hshape⟩
      · rw [List.filterMap_cons_none hnone]
        rcases ih (hkept.trans hunsent) hrest with ⟨hempty, hall⟩ | ⟨headers, hone, hshape, it', hit', hest, hok⟩
        · refine .inl ⟨hempty, fun it' hit' => ?_⟩
          rcases List.mem_cons.mp hit' with rfl | hit'
          · exact hnot hunsent
          · exact hall it' hit'
        · exact .inr ⟨headers, hone, hhost ▸ hshape, it', List.mem_cons_of_mem _ hit', hest, hok⟩
      · rw [List.filterMap_cons_some hsome, run_request_sent hdone hrest]
        exact .inr ⟨headers, rfl, hshape, it, List.mem_cons_self, hest, hok⟩

def establishedWith (request : Except Http3Error Unit) : ClientIteration :=
  ⟨.wouldBlock, true, ⟨.ok (), .ok (), request⟩, .new ⟨[], fun _ => none⟩ [] .default,
    ⟨[⟨.error .done, .ok ()⟩], ⟨false, .keep, fun _ w => w, 0, 0⟩, false⟩, false⟩

def waitingClient : Client := ⟨plainConnection false, "example.com", false, false, List.replicate 8 0⟩

theorem run_requests_second_try : ∃ passes c' headers,
    runAll (Client.step smallHost "/") waitingClient
        [establishedWith (.error .done), establishedWith (.ok ()), establishedWith (.ok ())] =
      .ok (passes, c') ∧
    passes.filterMap ClientPass.request = [headers] ∧ IsRequest "example.com" "/" headers := by
  obtain ⟨⟨passes, c'⟩, hrun, hone⟩ := exists_ok_of_any
    (x := runAll (Client.step smallHost "/") waitingClient
      [establishedWith (.error .done), establishedWith (.ok ()), establishedWith (.ok ())])
    (p := fun r => (r.1.filterMap ClientPass.request).length = 1) (by decide +kernel)
  rcases run_requests smallHost "/" (c := waitingClient) rfl hrun with ⟨hempty, -⟩ | ⟨headers, hrequests, hshape, -⟩
  · rw [hempty] at hone
    cases hone
  · exact ⟨passes, c', headers, hrun, hrequests, hshape⟩

end Client

end QuicFuscate.Core
