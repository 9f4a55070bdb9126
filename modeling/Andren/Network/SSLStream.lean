import Andren.Network.SockStream

/-!
# Streams that may use SSL

`SSLStream` reads as `SockStream` does until it is switched to SSL. Its
callback tells a close from an error of SSL, which `tryRead` never returns.
-/

namespace Andren.Network

open Machines

structure SSLStream where
  m_usedSSL : Bool
  m_sslshutdown : Bool
  m_sslio : Bool

/-- What one event reads: the results of `recv`, or the result of
`m_sslio.read()`, with `errno` and the error code of SSL afterwards. -/
structure SSLInput where
  recvs : List RecvResult
  sslRead : Int × List UInt8
  errno : Int
  errcode : Nat

namespace SSLStream

def SSL_ERROR_WANT_READ : Nat := 2

def SSL_ERROR_WANT_WRITE : Nat := 3

def SSL_ERROR_SYSCALL : Nat := 5

def SSL_ERROR_ZERO_RETURN : Nat := 6

def realRead (data : SSLStream) (input : SSLInput) : Option (Int × List UInt8 × List RecvResult) :=
  if !data.m_usedSSL then tryRead [] input.recvs
  else if data.m_sslshutdown || !data.m_sslio then some (-2, [], input.recvs)
  else some (input.sslRead.1, input.sslRead.2, input.recvs)

def outcome (input : SSLInput) (key : Int) (value : List UInt8) : Outcome :=
  if key = 0 then .close
  else if key < 0 then
    if input.errno = EAGAIN
      ∨ (input.errcode = SSL_ERROR_SYSCALL ∧ input.errcode = 0)
      ∨ input.errcode = SSL_ERROR_WANT_WRITE
      ∨ input.errcode = SSL_ERROR_WANT_READ
      ∨ input.errcode = SSL_ERROR_ZERO_RETURN then .ignore
    else .close
  else .read key value

def drain (data : SSLStream) (input : SSLInput) : Option (List RecvResult × Outcome) :=
  match data.realRead input with
  | some (key, value, []) => some (input.recvs, outcome input key value)
  | _ => none

end SSLStream

def sslStream (data : SSLStream) : Machine Stream (StreamAct SSLInput) StreamEv :=
  stream data.drain

/-- Without SSL a stream drains its socket as a `SockStream` does. -/
theorem sslStream_drains {data : SSLStream} (hssl : data.m_usedSSL = false) : Drains data.drain := by
  intro input recvs out h
  unfold SSLStream.drain SSLStream.realRead at h
  rw [hssl] at h
  split at h
  · rename_i key value hread
    cases h
    unfold SSLStream.outcome
    rcases tryRead_eq hread with ⟨hno, rfl, rfl⟩ | ⟨hdis, rfl, rfl⟩
    · split
      · rename_i hkey
        refine .inr ⟨rfl, .inl ?_⟩
        simpa using hkey
      · split
        · omega
        · exact .inl ⟨hno, _, rfl⟩
    · exact .inr ⟨rfl, .inr hdis⟩
  · cases h

/-- In every run of either class all bytes are delivered before the close just
when no event found data and the end of the connection together. -/
theorem streams_deliver_before_close (data : SSLStream) (hssl : data.m_usedSSL = false) :
    (∀ tr s, sockStream.Run tr s → (delivered tr = receivedBytes tr ↔ Lossless tr)) ∧
      ∀ tr s, (sslStream data).Run tr s → (delivered tr = receivedBytes tr ↔ Lossless tr) :=
  ⟨fun _ _ => stream_delivered_iff sockStream_drains,
    fun _ _ => stream_delivered_iff (sslStream_drains hssl)⟩

theorem streams_deliver_before_close_run :
    (∃ tr s, sockStream.Run tr s ∧
      drains tr = [[.data ⟨[1, 2], by decide⟩, .data ⟨[3], by decide⟩, .error 11], [.zero]] ∧
      delivered tr = receivedBytes tr) ∧
    ∃ tr s, (sslStream ⟨false, false, false⟩).Run tr s ∧
      drains tr = [[.data ⟨[1, 2], by decide⟩, .data ⟨[3], by decide⟩, .error 11], [.zero]] ∧
      delivered tr = receivedBytes tr := by
  have hr : (sockStream.replay sockStream.init
      [.ready 1 [.data ⟨[1, 2], by decide⟩, .data ⟨[3], by decide⟩, .error 11], .ready 4 [],
        .ready 17 [.zero]]).isSome := rfl
  have hr' : ((sslStream ⟨false, false, false⟩).replay (sslStream ⟨false, false, false⟩).init
      [.ready 1 ⟨[.data ⟨[1, 2], by decide⟩, .data ⟨[3], by decide⟩, .error 11], (0, []), 11, 0⟩,
        .ready 17 ⟨[.zero], (0, []), 0, 0⟩]).isSome := rfl
  have hrun := Machine.steps_of_replay (Option.some_get hr).symm
  have hrun' := Machine.steps_of_replay (Option.some_get hr').symm
  have hless {tr} (h : drains tr =
      [[.data ⟨[1, 2], by decide⟩, .data ⟨[3], by decide⟩, .error 11], [.zero]]) : Lossless tr := by
    unfold Lossless
    rw [h]
    rintro recvs (_ | ⟨_, _ | ⟨_, hmem⟩⟩) ⟨hbytes, hdis⟩
    · cases hdis
    · exact hbytes rfl
    · cases hmem
  obtain ⟨hsock, hssl⟩ := streams_deliver_before_close ⟨false, false, false⟩ rfl
  exact ⟨⟨_, _, hrun, rfl, (hsock _ _ hrun).mpr (hless rfl)⟩,
    ⟨_, _, hrun', rfl, (hssl _ _ hrun').mpr (hless rfl)⟩⟩

/-- Data and the close in the same event: the data is lost in both classes. -/
theorem streams_lose_last_bytes :
    (∃ tr s, sockStream.Run tr s ∧ receivedBytes tr = [104, 105] ∧ delivered tr ≠ receivedBytes tr) ∧
      ∃ tr s, (sslStream ⟨false, false, false⟩).Run tr s ∧ receivedBytes tr = [104, 105] ∧
        delivered tr ≠ receivedBytes tr := by
  have hr : (sockStream.replay sockStream.init
      [.ready 1 [.data ⟨[104, 105], by decide⟩, .zero]]).isSome := rfl
  have hr' : ((sslStream ⟨false, false, false⟩).replay (sslStream ⟨false, false, false⟩).init
      [.ready 1 ⟨[.data ⟨[104, 105], by decide⟩, .zero], (0, []), 0, 0⟩]).isSome := rfl
  exact ⟨⟨_, _, Machine.steps_of_replay (Option.some_get hr).symm, rfl, nofun⟩,
    ⟨_, _, Machine.steps_of_replay (Option.some_get hr').symm, rfl, nofun⟩⟩

end Andren.Network
