import Andren.Base.Socket
import Andren.Machine.Trace
import Andren.Network.TaskDistributor

/-!
# Sending and closing

`asend` and `aclose` of a stream may be called from any thread. Each adds a task
to the IO worker's queue; that of `asend` tests the socket again before it
sends. The tasks of `aclose` close the descriptor and leave the number in the
socket, so that it passes every later test.

The tasks run in the order they were accepted. As long as no task of `asend` is
accepted after one of `aclose`, nothing is sent after the close
(`stream_silent_after_close`).
-/

namespace Andren.Network

open Machines Base

/-- `SSLStream` is one without SSL here. -/
inductive StreamKind
  | sockStream
  | dataGram
  | sslStream

inductive SendCall
  | send
  | sendto
  deriving DecidableEq

/-- What the task of `asend` calls. `SSLStream::real_write` is `send` without SSL. -/
def StreamKind.sendCall : StreamKind → SendCall
  | .sockStream | .sslStream => .send
  | .dataGram => .sendto

inductive StreamTask
  | asend (msg : List UInt8)
  | aclose
  deriving DecidableEq

inductive IoTask
  | stream (t : StreamTask)
  | other (n : Nat)

structure AsyncStream (size : Nat) where
  ev : TaskDistributor size IoTask
  m_sock : Socket

/-- `attached` tells whether the poller and its event loop are still there. -/
inductive AsyncAct
  | asend (c : Caller) (msg : List UInt8) (attached : Bool)
  | aclose (c : Caller) (attached : Bool)
  | exec (a : DistAct IoTask)

inductive AsyncEv
  | refused (c : Caller)
  | accepted (c : Caller) (t : StreamTask)
  | sent (call : SendCall) (fd : Int) (msg : List UInt8)
  | closed (fd : Int)
  /-- `DataGram` posts `EPOLLIN` for the number that it has closed. -/
  | notified (fd : Int)
  deriving DecidableEq

namespace AsyncStream

variable {size : Nat}

def runTask (kind : StreamKind) (s : AsyncStream size) : StreamTask → AsyncStream size × List AsyncEv
  | .asend msg => (s, if s.m_sock.valid then [.sent kind.sendCall s.m_sock.m_fd msg] else [])
  | .aclose =>
    ({ s with m_sock := ⟨s.m_sock.m_fd, s.m_sock.stands.released⟩ },
      .closed s.m_sock.m_fd :: match kind with
        | .dataGram => [.notified s.m_sock.m_fd]
        | .sockStream | .sslStream => [])

def note (kind : StreamKind) (s : AsyncStream size) : DistEv size IoTask → AsyncStream size × List AsyncEv
  | .refused c => (s, [.refused c])
  | .accepted c _ (.stream t) => (s, [.accepted c t])
  | .executed _ (.stream t) => s.runTask kind t
  | _ => (s, [])

def noteAll (kind : StreamKind) (s : AsyncStream size) :
    List (DistEv size IoTask) → AsyncStream size × List AsyncEv
  | [] => (s, [])
  | e :: des =>
    let (s, es) := s.note kind e
    let (s, es') := s.noteAll kind des
    (s, es ++ es')

def run (kind : StreamKind) (s : AsyncStream size) (a : DistAct IoTask) :
    Option (AsyncStream size × List AsyncEv) := do
  let (ev, des) ← (taskDistributor size IoTask).step s.ev a
  pure (noteAll kind { s with ev := ev } des)

def call (kind : StreamKind) (s : AsyncStream size) (c : Caller) (t : StreamTask) (goes : Bool) :
    Option (AsyncStream size × List AsyncEv) :=
  if goes then s.run kind (.addTaskOf c (some (.stream t)) .io 0)
  else if s.ev.canCall c then some (s, [.refused c]) else none

def allows (s : AsyncStream size) : DistAct IoTask → Bool
  | .addTask _ t _ | .addTaskOf _ t _ _ | .addTaskASAP _ t _ => match t with
    | some (.stream _) => false
    | _ => true
  | .start => s.ev.m_tpool.isNone
  | .worker _ | .pushBack _ | .shutdown | .control => true

end AsyncStream

/-- A stream with the socket `m_sock`, and any number of threads that call it. -/
def asyncStream (kind : StreamKind) (size : Nat) (m_sock : Socket) :
    Machine (AsyncStream size) AsyncAct AsyncEv where
  init := ⟨.new size IoTask, m_sock⟩
  step s
    | .asend c msg attached => s.call kind c (.asend msg) (s.m_sock.valid && attached)
    | .aclose c attached => s.call kind c .aclose attached
    | .exec a => if s.allows a then s.run kind a else none

def AsyncEv.sends : AsyncEv → Bool
  | .sent .. => true
  | _ => false

def AsyncEv.closes : AsyncEv → Bool
  | .closed _ => true
  | _ => false

/-- No `send` or `sendto` comes after a close. -/
def SilentAfterClose (tr : List AsyncEv) : Prop :=
  Always (fun t e => e.sends = true → ∀ e' ∈ t, e'.closes = false) tr

def AsyncEv.acceptsClose : AsyncEv → Bool
  | .accepted _ .aclose => true
  | _ => false

def asyncStreamClosing (kind : StreamKind) (size : Nat) (m_sock : Socket) :
    Machine (AsyncStream size × Bool) AsyncAct AsyncEv :=
  (asyncStream kind size m_sock).watch false fun closing _ es => closing || es.any AsyncEv.acceptsClose

/-- No task of `asend` is accepted after one of `aclose`. -/
def AsyncStream.inTime (s : AsyncStream size × Bool) : AsyncAct → Bool
  | .exec (.pushBack c) => !(s.2 && match s.1.ev.calls c with
    | some (_, .stream (.asend _)) => true
    | _ => false)
  | _ => true

-- ---------------------------------------------------------------------------
-- What waits
-- ---------------------------------------------------------------------------

def IoTask.stream? : IoTask → Option StreamTask
  | .stream t => some t
  | .other _ => none

def StreamTask.isSend : StreamTask → Bool
  | .asend _ => true
  | .aclose => false

section

variable {kind : StreamKind} {size : Nat}

def AsyncStream.pending (s : AsyncStream size) : List StreamTask :=
  (s.ev.waiting (queueIndex size 0)).filterMap IoTask.stream?

structure Silence (tr : List AsyncEv) (pending : List StreamTask) (closing : Bool) : Prop where
  silent : SilentAfterClose tr
  closed : (∃ e ∈ tr, e.closes = true) → ∀ t ∈ pending, t.isSend = false
  order : pending.Pairwise fun t t' => t.isSend = false → t'.isSend = false
  early : closing = false → (∀ e ∈ tr, e.closes = false) ∧ ∀ t ∈ pending, t.isSend = true

theorem Silence.quiet (h : Silence tr pending closing)
    (hes : ∀ e ∈ es, e.sends = false ∧ e.closes = false) : Silence (tr ++ es) pending closing := by
  refine ⟨?_, ?_, h.order, fun hclosing => ⟨?_, (h.early hclosing).2⟩⟩
  · refine always_append.mpr ⟨h.silent, alwaysFrom_of_forall fun e he _ hsends => ?_⟩
    rw [(hes e he).1] at hsends
    cases hsends
  · rintro ⟨e, he, hcloses⟩
    rcases List.mem_append.mp he with he | he
    · exact h.closed ⟨e, he, hcloses⟩
    · rw [(hes e he).2] at hcloses
      cases hcloses
  · intro e he
    rcases List.mem_append.mp he with he | he
    · exact (h.early hclosing).1 e he
    · exact (hes e he).2

theorem Silence.accepted (h : Silence tr pending closing) (htime : t.isSend = true → closing = false) :
    Silence (tr ++ [.accepted c t]) (pending ++ [t]) (closing || AsyncEv.acceptsClose (.accepted c t)) := by
  have hquiet : Silence (tr ++ [.accepted c t]) pending closing :=
    h.quiet (by simp [AsyncEv.sends, AsyncEv.closes])
  refine ⟨hquiet.silent, ?_, ?_, ?_⟩
  · intro hclosed t' ht'
    rcases List.mem_append.mp ht' with ht' | ht'
    · exact hquiet.closed hclosed t' ht'
    · rw [List.mem_singleton.mp ht']
      by_contra hsend
      obtain ⟨e, he, hcloses⟩ := hclosed
      rw [(hquiet.early (htime (by simpa using hsend))).1 e he] at hcloses
      cases hcloses
  · refine List.pairwise_append.mpr ⟨h.order, List.pairwise_singleton _ _, ?_⟩
    intro t' ht' t'' ht'' hclose
    rw [List.mem_singleton.mp ht'']
    by_contra hsend
    rw [(h.early (htime (by simpa using hsend))).2 t' ht'] at hclose
    cases hclose
  · intro hclosing
    obtain ⟨hclosing, haccepts⟩ := Bool.or_eq_false_iff.mp hclosing
    refine ⟨(hquiet.early hclosing).1, ?_⟩
    intro t' ht'
    rcases List.mem_append.mp ht' with ht' | ht'
    · exact (h.early hclosing).2 t' ht'
    · rw [List.mem_singleton.mp ht']
      cases t with
      | asend => rfl
      | aclose => cases haccepts

theorem Silence.asend (h : Silence tr (.asend msg :: pending) closing)
    (hes : ∀ e ∈ es, e.closes = false) : Silence (tr ++ es) pending closing := by
  have hopen : ∀ e ∈ tr, e.closes = false := by
    intro e he
    by_contra hcloses
    have hsend := h.closed ⟨e, he, by simpa using hcloses⟩ _ (.head _)
    cases hsend
  have hnone : ∀ e ∈ tr ++ es, e.closes = false := fun e he =>
    (List.mem_append.mp he).elim (hopen e) (hes e)
  refine ⟨?_, ?_, h.order.of_cons, ?_⟩
  · intro t e t' heq _ e' he'
    exact hnone e' (heq ▸ List.mem_append_left _ he')
  · rintro ⟨e, he, hcloses⟩
    rw [hnone e he] at hcloses
    cases hcloses
  · exact fun hclosing => ⟨hnone, fun t ht => (h.early hclosing).2 t (.tail _ ht)⟩

theorem Silence.aclose (h : Silence tr (.aclose :: pending) closing) (hes : ∀ e ∈ es, e.sends = false) :
    Silence (tr ++ es) pending closing := by
  refine ⟨?_, ?_, h.order.of_cons, ?_⟩
  · refine always_append.mpr ⟨h.silent, alwaysFrom_of_forall fun e he _ hsends => ?_⟩
    rw [hes e he] at hsends
    cases hsends
  · exact fun _ t ht => (List.pairwise_cons.mp h.order).1 t ht rfl
  · intro hclosing
    cases (h.early hclosing).2 .aclose (.head _)

-- ---------------------------------------------------------------------------
-- The stream under the distributor
-- ---------------------------------------------------------------------------

structure AsyncOk (tr : List AsyncEv) (s : AsyncStream size) (closing : Bool) : Prop where
  ev : Carries (fun t => t.stream? ≠ none) (queueIndex size 0) s.ev
  silence : Silence tr s.pending closing

theorem stream_run_eq {s : AsyncStream size} (hs : s.run kind a = some (s', es)) : ∃ ev des,
    (taskDistributor size IoTask).step s.ev a = some (ev, des) ∧
      AsyncStream.noteAll kind { s with ev := ev } des = (s', es) := by
  simp only [AsyncStream.run, Option.bind_eq_bind, Option.bind_eq_some_iff] at hs
  obtain ⟨⟨ev, des⟩, hstep, hs⟩ := hs
  exact ⟨ev, des, hstep, Option.some.inj hs⟩

theorem note_other (kind : StreamKind) (s : AsyncStream size) {e : DistEv size IoTask}
    (he : ∀ t, e.task? = some t → t.stream? = none) :
    s.note kind e = (s, match e with | .refused c => [.refused c] | _ => []) := by
  cases e with
  | refused c => rfl
  | accepted c i t | executed k t | inplace k t =>
    cases t with
    | other n => rfl
    | stream t => cases he _ rfl

theorem noteAll_other (kind : StreamKind) (s : AsyncStream size) {des : List (DistEv size IoTask)}
    (hdes : ∀ e ∈ des, ∀ t, e.task? = some t → t.stream? = none) :
    (s.noteAll kind des).1 = s ∧ ∀ e ∈ (s.noteAll kind des).2, ∃ c, e = .refused c := by
  induction des with
  | nil => exact ⟨rfl, nofun⟩
  | cons e des ih =>
    have hnote := note_other kind s (hdes e (.head _))
    obtain ⟨hsame, hrefused⟩ := ih fun e' he' => hdes e' (.tail _ he')
    simp only [AsyncStream.noteAll, hnote]
    refine ⟨hsame, fun e' he' => ?_⟩
    rcases List.mem_append.mp he' with he' | he'
    · cases e with
      | refused c => exact ⟨c, List.mem_singleton.mp he'⟩
      | _ => cases he'
    · exact hrefused e' he'

theorem stream?_eq {t : IoTask} (h : t.stream? = some r) : t = .stream r := by
  cases t with
  | stream t => exact congrArg _ (Option.some.inj h)
  | other n => cases h

theorem accepts_none {es : List AsyncEv} (hes : ∀ e ∈ es, e.acceptsClose = false) :
    (closing || es.any AsyncEv.acceptsClose) = closing := by
  rw [List.any_eq_false.mpr fun e he => by simp [hes e he], Bool.or_false]

theorem AsyncOk.run {s s' : AsyncStream size} (h : AsyncOk tr s closing) (hstart : StartOnce s.ev a)
    (hbegins : ∀ c j t, Begins c j t a → t.stream? ≠ none → j = queueIndex size 0)
    (hinplace : ∀ c t index, a = .addTaskASAP c (some t) index → t.stream? = none)
    (htime : ∀ c, a = .pushBack c → AsyncStream.inTime (s, closing) (.exec (.pushBack c)) = true)
    (hs : s.run kind a = some (s', es)) : AsyncOk (tr ++ es) s' (closing || es.any AsyncEv.acceptsClose) := by
  obtain ⟨ev, des, hstep, hnote⟩ := stream_run_eq hs
  have hev := h.ev.step hstart hstep hbegins fun c t index ha ht => (ht (hinplace c t index ha)).elim
  have hserved := h.ev.served hstart hstep hinplace
  cases hserved with
  | @accepted t r c hf hcall hpending =>
    obtain rfl := stream?_eq hf
    simp only [AsyncStream.noteAll, AsyncStream.note, List.append_nil, Prod.mk.injEq] at hnote
    obtain ⟨rfl, rfl⟩ := hnote
    refine ⟨hev, ?_⟩
    rw [List.any_cons, List.any_nil, Bool.or_false, AsyncStream.pending, hpending]
    refine h.silence.accepted fun hsend => ?_
    have htime := htime c (pushBack_of_accepted hstep)
    rw [AsyncStream.inTime, hcall] at htime
    cases r with
    | asend msg => simpa using htime
    | aclose => cases hsend
  | @executed t r hf hpending =>
    obtain rfl := stream?_eq hf
    have hsilence := h.silence
    rw [AsyncStream.pending, hpending] at hsilence
    simp only [AsyncStream.noteAll, AsyncStream.note, List.append_nil, Prod.mk.injEq] at hnote
    obtain ⟨rfl, rfl⟩ := hnote
    cases r with
    | asend msg =>
      rw [AsyncStream.runTask]
      refine ⟨hev, ?_⟩
      split
      · rw [accepts_none (by simp [AsyncEv.acceptsClose])]
        exact hsilence.asend (by simp [AsyncEv.closes])
      · rw [accepts_none fun e he => absurd he List.not_mem_nil]
        exact hsilence.asend fun e he => absurd he List.not_mem_nil
    | aclose =>
      simp only [AsyncStream.runTask]
      refine ⟨hev, ?_⟩
      cases kind <;> rw [accepts_none (by simp [AsyncEv.acceptsClose])] <;>
        exact hsilence.aclose (by simp [AsyncEv.sends])
  | other hother hpending =>
    obtain ⟨hsame, hrefused⟩ := noteAll_other kind { s with ev := ev } hother
    rw [hnote] at hsame hrefused
    replace hsame : s' = { s with ev := ev } := hsame
    have hquiet : ∀ e ∈ es, e.acceptsClose = false ∧ e.sends = false ∧ e.closes = false := by
      intro e he
      obtain ⟨c, rfl⟩ := hrefused e he
      exact ⟨rfl, rfl, rfl⟩
    rw [accepts_none fun e he => (hquiet e he).1, hsame]
    refine ⟨hev, ?_⟩
    rw [AsyncStream.pending, hpending]
    exact h.silence.quiet fun e he => (hquiet e he).2

theorem AsyncOk.call {s s' : AsyncStream size} (h : AsyncOk tr s closing)
    (hs : s.call kind c t goes = some (s', es)) :
    AsyncOk (tr ++ es) s' (closing || es.any AsyncEv.acceptsClose) := by
  unfold AsyncStream.call at hs
  split at hs
  · refine h.run (a := .addTaskOf c (some (.stream t)) .io 0) trivial ?_ nofun nofun hs
    intro c' j t' hbegins _
    cases hbegins with
    | addTaskOf hj => exact hj
  · obtain ⟨-, hs⟩ := Option.ite_none_right_eq_some.mp hs
    cases hs
    rw [accepts_none (by simp [AsyncEv.acceptsClose])]
    exact ⟨h.ev, h.silence.quiet (by simp [AsyncEv.sends, AsyncEv.closes])⟩

theorem stream_allows {s : AsyncStream size} (hallow : s.allows a = true) :
    StartOnce s.ev a ∧ (∀ c (j : Fin (mSize size)) t, Begins c j t a → t.stream? = none) ∧
      ∀ c t index, a = .addTaskASAP c (some t) index → t.stream? = none := by
  have hother : ∀ {t : IoTask}, (match some t with | some (.stream _) => false | _ => true) = true →
      t.stream? = none := by
    intro t ht
    cases t with
    | other n => rfl
    | stream t => cases ht
  refine ⟨?_, ?_, ?_⟩
  · cases a with
    | start => exact Option.isNone_iff_eq_none.mp hallow
    | _ => trivial
  · intro c j t hbegins
    cases hbegins <;> exact hother hallow
  · rintro c t index rfl
    exact hother hallow

theorem asyncStream_step {s s' : AsyncStream size} (h : AsyncOk tr s closing)
    (htime : AsyncStream.inTime (s, closing) a = true)
    (hs : (asyncStream kind size m_sock).step s a = some (s', es)) :
    AsyncOk (tr ++ es) s' (closing || es.any AsyncEv.acceptsClose) := by
  cases a with
  | asend c msg attached => exact h.call hs
  | aclose c attached => exact h.call hs
  | exec a =>
    obtain ⟨hallow, hs⟩ := Option.ite_none_right_eq_some.mp hs
    obtain ⟨hstart, hbegins, hinplace⟩ := stream_allows hallow
    refine h.run hstart (fun c j t hb ht => (ht (hbegins c j t hb)).elim) hinplace ?_ hs
    rintro c rfl
    exact htime

end

/-- In every interleaving of `asend` and `aclose`, the stream sends nothing after
a task of `aclose` has run, when no task of `asend` comes too late. -/
theorem stream_silent_after_close (kind : StreamKind) (size : Nat) (m_sock : Socket) (tr : List AsyncEv)
    (s : AsyncStream size × Bool)
    (h : (asyncStreamClosing kind size m_sock).RunIf (fun s a => AsyncStream.inTime s a = true) tr s) :
    SilentAfterClose tr := by
  have hok : AsyncOk tr s.1 s.2 := by
    refine h.invariant (I := fun tr s => AsyncOk tr s.1 s.2) ?_ ?_
    · refine ⟨carries_new _ _, always_nil, ?_, List.Pairwise.nil, fun _ => ⟨nofun, ?_⟩⟩
      · exact fun _ t ht => absurd ht List.not_mem_nil
      · exact fun t ht => absurd ht List.not_mem_nil
    · rintro tr ⟨s, closing⟩ a ⟨s', closing'⟩ es _ hok htime hs
      obtain ⟨hstep, rfl⟩ := Machine.step_of_watch hs
      exact asyncStream_step hok htime hstep
  exact hok.silence.silent

def ioWorker (n : Nat) : List AsyncAct := List.replicate n (.exec (.worker 0))

theorem stream_silent_after_close_run : ∃ tr s,
    (asyncStreamClosing .dataGram 1 ⟨5, .live 0⟩).RunIf (fun s a => AsyncStream.inTime s a = true) tr s ∧
      tr = [.accepted (.external 0) (.asend [72]), .sent .sendto 5 [72], .accepted (.worker 0) (.asend [73]),
        .accepted (.external 1) .aclose, .sent .sendto 5 [73], .closed 5, .notified 5] ∧
      SilentAfterClose tr := by
  have hr : (((asyncStreamClosing .dataGram 1 ⟨5, .live 0⟩).only fun s a => AsyncStream.inTime s a = true).replay
      (asyncStreamClosing .dataGram 1 ⟨5, .live 0⟩).init
      ([.exec .start, .exec .control, .exec .control, .asend (.external 0) [72] true,
        .aclose (.external 1) true, .exec (.pushBack (.external 0))] ++ ioWorker 6 ++
        [.asend (.worker 0) [73] true, .exec (.pushBack (.worker 0)), .exec (.pushBack (.external 1))] ++
        ioWorker 10)).isSome := rfl
  have hrun := Machine.steps_of_replay_only (Option.some_get hr).symm
  exact ⟨_, _, hrun, rfl, stream_silent_after_close _ _ _ _ _ hrun⟩

/-- A send that is accepted after a close is carried out after it. -/
theorem stream_sends_after_close : ∃ tr s, (asyncStream .sockStream 1 ⟨5, .live 0⟩).Run tr s ∧
    tr = [.accepted (.external 0) .aclose, .accepted (.external 1) (.asend [72]), .closed 5,
      .sent .send 5 [72]] ∧ ¬SilentAfterClose tr := by
  have hr : ((asyncStream .sockStream 1 ⟨5, .live 0⟩).replay (asyncStream .sockStream 1 ⟨5, .live 0⟩).init
      ([.exec .start, .exec .control, .exec .control, .aclose (.external 0) true,
        .exec (.pushBack (.external 0)), .asend (.external 1) [72] true, .exec (.pushBack (.external 1))] ++
        ioWorker 8)).isSome := rfl
  refine ⟨_, _, Machine.steps_of_replay (Option.some_get hr).symm, rfl, fun hsilent => ?_⟩
  have hclosed := hsilent [.accepted (.external 0) .aclose, .accepted (.external 1) (.asend [72]), .closed 5]
    (.sent .send 5 [72]) [] rfl rfl (.closed 5) (by simp)
  cases hclosed

end Andren.Network
