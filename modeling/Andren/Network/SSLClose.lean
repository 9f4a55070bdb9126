import Andren.Base.SSLSocketIo
import Andren.Base.Socket
import Andren.Machine.Loop

/-!
# Closing a stream that uses SSL

`real_close` calls `shutdown` until it returns 1 or a negative number. But `shutdown`
gives up the SSL object in its first call, and returns 0 ever after. So the loop is
left after its first pass or never: `real_close` closes the socket just when the first
`SSL_shutdown`, if there is one, does not return 0 (`real_close_closes_iff`).
-/

namespace Andren.Network

open Base Machines

abbrev ShutdownResult := { ret : Int // ret ≤ 1 }

structure SSLStreamPrivate where
  m_sock : Socket
  m_sslio : SSLSocketIo
  m_usedSSL : Bool
  m_sslshutdown : Bool

inductive CloseCall
  | ssl (call : SSLCall)
  | close (fd : Int)

namespace SSLStreamPrivate

def closeSocket (data : SSLStreamPrivate) : SSLStreamPrivate × List CloseCall :=
  ({ data with m_sock := ⟨data.m_sock.m_fd, data.m_sock.stands.released⟩ }, [.close data.m_sock.m_fd])

/-- A pass of the loop, with the calls so far. `results` are what the calls of
`SSL_shutdown` return in turn. -/
def shutdownBody (results : Nat → ShutdownResult) (x : SSLSocketIo × List SSLCall) :
    (SSLSocketIo × List SSLCall) ⊕ (SSLSocketIo × List SSLCall) :=
  let (ret, m_sslio, calls) := x.1.shutdown (results x.2.length)
  if ret = 1 ∨ ret < 0 then .inr (m_sslio, x.2 ++ calls) else .inl (m_sslio, x.2 ++ calls)

def realClose (results : Nat → ShutdownResult) (data : SSLStreamPrivate) (fuel : Nat) :
    Option (SSLStreamPrivate × List CloseCall) :=
  if !data.m_usedSSL then some data.closeSocket
  else if data.m_sslshutdown || !data.m_sslio.valid then some data.closeSocket
  else (loop (shutdownBody results) fuel (data.m_sslio, [])).map fun (m_sslio, calls) =>
    let (data, closed) := closeSocket { data with m_sslio, m_sslshutdown := true }
    (data, calls.map .ssl ++ closed)

/-- `real_close` returns, and the last it does is to close the socket. -/
def Closes (results : Nat → ShutdownResult) (data : SSLStreamPrivate) : Prop :=
  ∃ data' calls, Returns (data.realClose results) (data', calls ++ [.close data.m_sock.m_fd])

def ShutdownPending (results : Nat → ShutdownResult) (data : SSLStreamPrivate) : Prop :=
  data.m_usedSSL = true ∧ data.m_sslshutdown = false ∧ data.m_sslio.valid = true ∧ (results 0).1 = 0

end SSLStreamPrivate

section

variable {results : Nat → ShutdownResult} {data : SSLStreamPrivate}

open SSLStreamPrivate

-- ---------------------------------------------------------------------------
-- The loop
-- ---------------------------------------------------------------------------

theorem shutdown_valid {x : SSLSocketIo} (hvalid : x.valid = true) (ret : Int) :
    (x.shutdown ret).1 = ret ∧ (x.shutdown ret).2.1.valid = false := by
  rcases x with ⟨⟨_ | p⟩, endType⟩
  · cases hvalid
  · exact ⟨rfl, rfl⟩

theorem shutdown_invalid {x : SSLSocketIo} (hvalid : x.valid = false) (ret : Int) :
    x.shutdown ret = (0, x, []) := by
  rcases x with ⟨⟨_ | p⟩, endType⟩
  · rfl
  · cases hvalid

theorem shutdownBody_invalid {x : SSLSocketIo × List SSLCall} (hvalid : x.1.valid = false) :
    shutdownBody results x = .inl x := by
  rw [shutdownBody, shutdown_invalid hvalid]
  exact congrArg Sum.inl (congrArg (x.1, ·) (List.append_nil _))

theorem loop_shutdownBody {x : SSLSocketIo} (hvalid : x.valid = true) (hret : (results 0).1 ≠ 0) :
    Returns (loop (shutdownBody results) · (x, [])) (x.shutdown (results 0).1).2 := by
  have hle := (results 0).2
  have hleave : (results 0).1 = 1 ∨ (results 0).1 < 0 := by omega
  refine ⟨1, ?_⟩
  simp only [loop, shutdownBody, List.length_nil, (shutdown_valid hvalid _).1, if_pos hleave, List.nil_append]

/-- After a result of 0 the loop goes on without an SSL object. -/
theorem loop_shutdownBody_diverges {x : SSLSocketIo} (hvalid : x.valid = true) (hret : (results 0).1 = 0)
    (r : SSLSocketIo × List SSLCall) : ¬Returns (loop (shutdownBody results) · (x, [])) r := by
  refine loop_diverges _ (I := fun y => y = (x, []) ∨ y.1.valid = false) ?_ (.inl rfl) r
  rintro y (rfl | hinvalid)
  · obtain ⟨hfirst, hempty⟩ := shutdown_valid hvalid (results 0).1
    refine ⟨_, ?_, .inr hempty⟩
    have hstay : ¬((x.shutdown (results 0).1).1 = 1 ∨ (x.shutdown (results 0).1).1 < 0) := by
      rw [hfirst, hret]
      decide
    exact if_neg hstay
  · exact ⟨y, shutdownBody_invalid hinvalid, .inr hinvalid⟩

-- ---------------------------------------------------------------------------
-- Closing
-- ---------------------------------------------------------------------------

theorem closes_without_loop (h : ∀ fuel, data.realClose results fuel = some data.closeSocket) :
    data.Closes results :=
  ⟨data.closeSocket.1, [], 0, h 0⟩

theorem realClose_loop (hused : data.m_usedSSL = true) (hshutdown : data.m_sslshutdown = false)
    (hvalid : data.m_sslio.valid = true) (fuel : Nat) :
    data.realClose results fuel = (loop (shutdownBody results) fuel (data.m_sslio, [])).map fun r =>
      ((closeSocket { data with m_sslio := r.1, m_sslshutdown := true }).1,
        r.2.map .ssl ++ [.close data.m_sock.m_fd]) := by
  simp only [realClose, hused, hshutdown, hvalid, Bool.not_true, Bool.or_false, Bool.false_eq_true, if_false]
  rfl

end

/-- Whatever the state of the stream and the results of `SSL_shutdown`. -/
theorem real_close_closes_iff (results : Nat → ShutdownResult) (data : SSLStreamPrivate) :
    data.Closes results ↔ ¬data.ShutdownPending results := by
  cases hused : data.m_usedSSL
  case false =>
    refine iff_of_true (closes_without_loop fun fuel => ?_) fun h => nomatch hused.symm.trans h.1
    rw [SSLStreamPrivate.realClose, hused]
    rfl
  cases hshutdown : data.m_sslshutdown || !data.m_sslio.valid
  case true =>
    refine iff_of_true (closes_without_loop fun fuel => ?_) fun h => ?_
    · rw [SSLStreamPrivate.realClose, hused, hshutdown]
      rfl
    · rw [h.2.1, h.2.2.1] at hshutdown
      cases hshutdown
  case false =>
    obtain ⟨hshutdown, hvalid⟩ := Bool.or_eq_false_iff.mp hshutdown
    rw [Bool.not_eq_false'] at hvalid
    constructor
    · rintro ⟨data', calls, fuel, hreturns⟩ ⟨-, -, -, hret⟩
      rw [realClose_loop hused hshutdown hvalid] at hreturns
      obtain ⟨r, hr, -⟩ := Option.map_eq_some_iff.mp hreturns
      exact loop_shutdownBody_diverges hvalid hret r ⟨fuel, hr⟩
    · intro hpending
      obtain ⟨fuel, hr⟩ := loop_shutdownBody hvalid fun hret => hpending ⟨hused, hshutdown, hvalid, hret⟩
      exact ⟨_, _, fuel, (realClose_loop hused hshutdown hvalid fuel).trans (congrArg (Option.map _) hr)⟩

/-- The first call of `SSL_shutdown` returns 0, as it does when the peer has not yet
sent that it shuts down too. -/
theorem real_close_hangs : ∃ (results : Nat → ShutdownResult) (data : SSLStreamPrivate),
    results = (fun n => if n = 0 then ⟨0, by decide⟩ else ⟨1, by decide⟩) ∧
      data = ⟨⟨5, .live 0⟩, ⟨⟨some (8, 0)⟩, 1⟩, true, false⟩ ∧ ¬data.Closes results := by
  refine ⟨_, _, rfl, rfl, ?_⟩
  rintro ⟨data', calls, fuel, hreturns⟩
  rw [realClose_loop rfl rfl rfl] at hreturns
  obtain ⟨r, hr, -⟩ := Option.map_eq_some_iff.mp hreturns
  exact loop_shutdownBody_diverges rfl rfl r ⟨fuel, hr⟩

end Andren.Network
