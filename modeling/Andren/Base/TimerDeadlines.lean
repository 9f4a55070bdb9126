import Andren.Base.FourWayHeap
import Andren.Base.TimerManger
import Mathlib.Algebra.Ring.Nat

/-!
# Timers and the clock

Over a heap in order, `check` splits the timers at the clock: what it returns is
due and sorted, what it leaves is not due (`check_splits`).

A deadline is the interval plus the clock, in 64 bits. As long as the sum does
not wrap, no check returns a timer before its deadline
(`timerManger_never_early`); a sum that wraps is due at once.
-/

namespace Andren.Base

open Machines

def MinHeapTy.ops {KTy VTy : Type} (heap : MinHeapTy KTy VTy) : QueueOps heap.Heap (KVPair KTy VTy) where
  new := heap.new
  push h p := heap.push h p.m_key p.m_val
  least := heap.minPair
  extract := heap.extractMinPair
  clear _ := heap.new

instance bitVecIsStrictWeakOrder : IsStrictWeakOrder (BitVec 64) (· < ·) where
  irrefl _ := BitVec.lt_irrefl _
  trans _ _ _ := BitVec.lt_trans
  incomp_trans a b c hab hbc := by
    simp only [BitVec.not_lt] at *
    exact ⟨BitVec.le_trans hbc.1 hab.1, BitVec.le_trans hab.2 hbc.2⟩

def timerHeaps : List (MinHeapTy (BitVec 64) Timer) := [binaryHeap (BitVec 64) Timer, fourWayHeap (BitVec 64) Timer]

theorem timerHeaps_lawful {heap : MinHeapTy (BitVec 64) Timer} (h : heap ∈ timerHeaps) :
    ∃ ok, Lawful heap.ops ByKey ok heap.pairs := by
  obtain rfl | h := List.mem_cons.mp h
  · exact ⟨_, binaryHeap_lawful⟩
  · obtain rfl := List.mem_singleton.mp h
    exact ⟨_, fourWayHeap_lawful⟩

-- ---------------------------------------------------------------------------
-- What a check returns
-- ---------------------------------------------------------------------------

section

variable {heap : MinHeapTy (BitVec 64) Timer} {ok : heap.Heap → Prop} {m m' : heap.Heap} {crrt : BitVec 64}

def Due (crrt : BitVec 64) (p : TimerPair) : Prop := p.m_key ≤ crrt

instance (p : TimerPair) : Decidable (Due crrt p) := inferInstanceAs (Decidable (_ ≤ _))

structure Taken (m : heap.Heap) (crrt : BitVec 64) (waitList : List TimerPair) : Prop where
  due : ∀ p ∈ waitList, Due crrt p
  sorted : waitList.Pairwise fun a b => a.m_key ≤ b.m_key
  before : ∀ p ∈ waitList, ∀ q ∈ heap.pairs m, p.m_key ≤ q.m_key

theorem taken_nil (m : heap.Heap) (crrt : BitVec 64) : Taken m crrt [] := ⟨nofun, .nil, nofun⟩

theorem Taken.extract (h : Lawful heap.ops ByKey ok heap.pairs) (hok : ok m) (htaken : Taken m crrt waitList)
    (hmin : heap.minPair m = some p) (hdue : p.m_key ≤ crrt) (hextract : heap.extractMinPair m = (m', some p'))
    (hperm : (heap.pairs m).Perm (p' :: heap.pairs m')) : ok m' ∧ Taken m' crrt (waitList ++ [p']) := by
  have hleast : Least ByKey (heap.pairs m) (heap.extractMinPair m).2 := h.extract_least hok
  have hok' : ok (heap.extractMinPair m).1 := h.extract_ok hok
  have hp : Least ByKey (heap.pairs m) (heap.minPair m) := h.least hok
  rw [hextract] at hleast hok'
  rw [hmin] at hp
  have hfirst : ∀ q ∈ heap.pairs m, p'.m_key ≤ q.m_key := fun q hq => BitVec.not_lt.mp (hleast.2 q hq)
  refine ⟨hok', ?_, ?_, ?_⟩
  · intro q hq
    rcases List.mem_append.mp hq with hq | hq
    · exact htaken.due q hq
    · obtain rfl := List.mem_singleton.mp hq
      exact BitVec.le_trans (hfirst p hp.1) hdue
  · refine List.pairwise_append.mpr ⟨htaken.sorted, List.pairwise_singleton _ _, ?_⟩
    intro a ha b hb
    obtain rfl := List.mem_singleton.mp hb
    exact htaken.before a ha b hleast.1
  · intro a ha q hq
    have hq' : q ∈ heap.pairs m := hperm.mem_iff.mpr (.tail _ hq)
    rcases List.mem_append.mp ha with ha | ha
    · exact htaken.before a ha q hq'
    · obtain rfl := List.mem_singleton.mp ha
      exact hfirst q hq'

theorem checkLoop_taken (h : Lawful heap.ops ByKey ok heap.pairs) (hok : ok m) (htaken : Taken m crrt waitList)
    (hrun : TimerManger.checkLoop crrt fuel m waitList = some (m', waitList')) :
    ok m' ∧ Taken m' crrt waitList' := by
  induction fuel generalizing m waitList with
  | zero =>
    cases hrun
    exact ⟨hok, htaken⟩
  | succ fuel ih =>
    rw [TimerManger.checkLoop] at hrun
    split at hrun
    · rename_i hsize
      simp only [Option.bind_eq_bind, Option.bind_eq_some_iff] at hrun
      obtain ⟨p, hmin, hrun⟩ := hrun
      split at hrun
      · rename_i hdue
        obtain ⟨m₁, p₁, hextract, hperm⟩ := heap.extract_some m hsize
        rw [hextract] at hrun
        obtain ⟨hok₁, htaken₁⟩ := htaken.extract h hok hmin hdue hextract hperm
        exact ih hok₁ htaken₁ hrun
      · cases hrun
        exact ⟨hok, htaken⟩
    · cases hrun
      exact ⟨hok, htaken⟩

/-- More fuel than pairs changes nothing: the loop ends by its own test. -/
theorem checkLoop_fuel (hfuel : heap.size m ≤ fuel) (waitList : List TimerPair) :
    TimerManger.checkLoop crrt (fuel + 1) m waitList = TimerManger.checkLoop crrt fuel m waitList := by
  induction fuel generalizing m waitList with
  | zero => simp [TimerManger.checkLoop, Nat.le_zero.mp hfuel]
  | succ fuel ih =>
    rw [TimerManger.checkLoop, TimerManger.checkLoop]
    split
    · rename_i hsize
      obtain ⟨m₁, p₁, hextract, hperm⟩ := heap.extract_some m hsize
      rw [hextract]
      have hlength := hperm.length_eq
      rw [List.length_cons, ← heap.size_eq, ← heap.size_eq] at hlength
      simp only [ih (m := m₁) (Nat.le_of_succ_le_succ (Nat.le_trans (Nat.le_of_eq hlength.symm) hfuel))]
    · rfl

theorem not_due_of_least (h : Lawful heap.ops ByKey ok heap.pairs) (hok : ok m)
    (hdone : 0 < heap.size m → ∃ p, heap.minPair m = some p ∧ ¬p.m_key ≤ crrt) :
    ∀ q ∈ heap.pairs m, ¬Due crrt q := by
  intro q hq hdue
  have hsize : 0 < heap.size m := by
    rw [heap.size_eq]
    exact List.length_pos_of_mem hq
  obtain ⟨p, hmin, hlate⟩ := hdone hsize
  have hleast : Least ByKey (heap.pairs m) (heap.minPair m) := h.least hok
  rw [hmin] at hleast
  exact hlate (BitVec.le_trans (BitVec.not_lt.mp (hleast.2 q hq)) hdue)

theorem checkLoop_splits (h : Lawful heap.ops ByKey ok heap.pairs) (hok : ok m) (hfuel : heap.size m ≤ fuel) :
    ∃ m' waitList, TimerManger.checkLoop crrt fuel m [] = some (m', waitList) ∧ ok m' ∧
      waitList.Perm ((heap.pairs m).filter fun p => Due crrt p) ∧
      waitList.Pairwise (fun a b => a.m_key ≤ b.m_key) ∧
      (heap.pairs m').Perm ((heap.pairs m).filter fun p => ¬Due crrt p) := by
  obtain ⟨m', waitList, hrun, hdone⟩ := checkLoop_done crrt [] hfuel
  obtain ⟨hok', htaken⟩ := checkLoop_taken h hok (taken_nil m crrt) hrun
  have hleft := not_due_of_least h hok' hdone
  have hperm := checkLoop_perm hrun
  rw [List.append_nil] at hperm
  refine ⟨m', waitList, hrun, hok', ?_, htaken.sorted, ?_⟩
  · refine .trans ?_ (hperm.filter _)
    rw [List.filter_append, List.filter_eq_nil_iff.mpr fun q hq => by simpa using hleft q hq, List.nil_append,
      List.filter_eq_self.mpr fun q hq => by simpa using htaken.due q hq]
  · refine .trans ?_ (hperm.filter _)
    rw [List.filter_append, List.filter_eq_self.mpr fun q hq => by simpa using hleft q hq,
      List.filter_eq_nil_iff.mpr fun q hq => by simpa using htaken.due q hq, List.append_nil]

theorem check_splits (h : Lawful heap.ops ByKey ok heap.pairs) (hok : ok m) (crrt : BitVec 64) :
    ∃ m' waitList, TimerManger.check m crrt = some (m', waitList) ∧ ok m' ∧
      waitList.Perm ((heap.pairs m).filter fun p => Due crrt p) ∧
      waitList.Pairwise (fun a b => a.m_key ≤ b.m_key) ∧
      (heap.pairs m').Perm ((heap.pairs m).filter fun p => ¬Due crrt p) :=
  checkLoop_splits h hok (Nat.le_refl _)

theorem checkLoop_eq_check (hfuel : heap.size m ≤ fuel) :
    TimerManger.checkLoop crrt fuel m [] = TimerManger.check m crrt := by
  induction fuel, hfuel using Nat.le_induction with
  | base => rfl
  | succ fuel hfuel ih => rw [checkLoop_fuel hfuel, ih]

end

/-- Over either heap, after any pushes and extractions and at any clock: `check`
returns the pairs whose deadline is at most the clock, each once and in the
order of their deadlines, and leaves the others; its loop ends by its own test,
however much fuel it is given. -/
theorem timerManger_check_splits (heap : MinHeapTy (BitVec 64) Timer) (hheap : heap ∈ timerHeaps)
    (tr : List (QueueEv TimerPair)) (h : heap.Heap) (hrun : (queue heap.ops).Run tr h) (t : BitVec 64) :
    ∃ h' waitList, TimerManger.check h t = some (h', waitList) ∧
      (∀ fuel, heap.size h ≤ fuel → TimerManger.checkLoop t fuel h [] = some (h', waitList)) ∧
      waitList.Perm ((heap.pairs h).filter fun p => p.m_key ≤ t) ∧
      waitList.Pairwise (fun a b => a.m_key ≤ b.m_key) ∧
      (heap.pairs h').Perm ((heap.pairs h).filter fun p => t < p.m_key) ∧
      Stored tr (heap.pairs h) := by
  obtain ⟨ok, hlawful⟩ := timerHeaps_lawful hheap
  obtain ⟨hok, hstored, -⟩ := hlawful.run hrun
  obtain ⟨h', waitList, hcheck, -, hdue, hsorted, hleft⟩ := check_splits hlawful hok t
  refine ⟨h', waitList, hcheck, fun fuel hfuel => (checkLoop_eq_check hfuel).trans hcheck, hdue, hsorted, ?_,
    hstored⟩
  simpa only [Due, BitVec.not_le] using hleft

theorem timerManger_check_splits_run : ∃ tr h, (queue (fourWayHeap (BitVec 64) Timer).ops).Run tr h ∧
    (((fourWayHeap (BitVec 64) Timer).pairs h).filter fun p => p.m_key ≤ 5).length = 2 ∧
    ∃ h' waitList, @TimerManger.check (fourWayHeap (BitVec 64) Timer) h 5 = some (h', waitList) ∧
      waitList.Pairwise fun a b => a.m_key ≤ b.m_key := by
  have hr : ((queue (fourWayHeap (BitVec 64) Timer).ops).replay (fourWayHeap (BitVec 64) Timer).ops.new
      [.push ⟨9, ⟨9, some 0⟩⟩, .push ⟨5, ⟨5, some 1⟩⟩, .push ⟨3, ⟨2, some 2⟩⟩, .push ⟨1, ⟨1, some 3⟩⟩,
        .extract]).isSome := rfl
  have hrun := Machine.steps_of_replay (Option.some_get hr).symm
  obtain ⟨h', waitList, hcheck, -, -, hsorted, -⟩ :=
    timerManger_check_splits (fourWayHeap (BitVec 64) Timer) (.tail _ (.head _)) _ _ hrun 5
  exact ⟨_, _, hrun, by decide, h', waitList, hcheck, hsorted⟩

-- ---------------------------------------------------------------------------
-- Deadlines
-- ---------------------------------------------------------------------------

def timerPair (msec clock : BitVec 64) (task : TimerTask) : TimerPair := ⟨msec + clock, ⟨msec, task⟩⟩

theorem timerPair_inj (h : timerPair msec clock task = timerPair msec' clock' task') :
    msec = msec' ∧ clock = clock' ∧ task = task' := by
  simp only [timerPair, KVPair.mk.injEq] at h
  obtain ⟨hkey, rfl, rfl⟩ := h
  exact ⟨rfl, (BitVec.add_right_inj msec).mp hkey, rfl⟩

inductive TimerLog
  | queued (msec clock : BitVec 64) (task : TimerTask)
  | checked (clock : BitVec 64) (pairs : List TimerPair)
  deriving DecidableEq

def TimerManger.log {heap : MinHeapTy (BitVec 64) Timer} (s : TimerManger heap) :
    TimerAct → TimerManger heap → List TimerLog
  | .createTask msec empty clock, _ => [.queued msec clock (if empty then none else some s.created)]
  | .check clock, s' => [.checked clock (s'.returned.drop s.returned.length)]
  | .taskReturns true clock, _ => s.executing.head?.toList.map fun p => .queued p.m_val.m_key clock (taskOf p)
  | _, _ => []

def timerLog (heap : MinHeapTy (BitVec 64) Timer) : Machine (TimerManger heap) TimerAct TimerLog :=
  (timerManger heap).relabel TimerManger.log

/-- A check returns only timers that were queued, and none whose deadline, the
interval plus the clock as a number, is later than its clock. -/
def NotEarly (past : List TimerLog) : TimerLog → Prop
  | .queued .. => True
  | .checked now pairs => ∀ p ∈ pairs,
    (∃ msec clock task, .queued msec clock task ∈ past ∧ p = timerPair msec clock task) ∧
      ∀ msec clock task, .queued msec clock task ∈ past → p = timerPair msec clock task →
        msec.toNat + clock.toNat ≤ now.toNat

/-- The deadline of a timer that is queued fits into 64 bits. -/
def NoWrap {heap : MinHeapTy (BitVec 64) Timer} (s : TimerManger heap) : TimerAct → Prop
  | .createTask msec _ clock => msec.toNat + clock.toNat < 2 ^ 64
  | .taskReturns true clock => ∀ p ∈ s.executing.head?, p.m_val.m_key.toNat + clock.toNat < 2 ^ 64
  | _ => True

section

variable {heap : MinHeapTy (BitVec 64) Timer} {ok : heap.Heap → Prop}

structure Deadlines (ok : heap.Heap → Prop) (tr : List TimerLog) (m : heap.Heap) : Prop where
  ok : ok m
  queued : ∀ p ∈ heap.pairs m, ∃ msec clock task,
    .queued msec clock task ∈ tr ∧ p = timerPair msec clock task ∧ msec.toNat + clock.toNat < 2 ^ 64

variable {tr : List TimerLog} {m m' : heap.Heap}

theorem Deadlines.push (h : Deadlines ok tr m) (hlawful : Lawful heap.ops ByKey ok heap.pairs)
    (hwrap : msec.toNat + clock.toNat < 2 ^ 64) :
    Deadlines ok (tr ++ [.queued msec clock task]) (TimerManger.createTask m msec task clock) := by
  refine ⟨hlawful.push_ok (x := timerPair msec clock task) h.ok, ?_⟩
  intro p hp
  rcases List.mem_cons.mp ((heap.pairs_push m _ _).mem_iff.mp hp) with rfl | hp
  · exact ⟨msec, clock, task, by simp, rfl, hwrap⟩
  · obtain ⟨msec', clock', task', hmem, heq⟩ := h.queued p hp
    exact ⟨msec', clock', task', List.mem_append_left _ hmem, heq⟩

theorem Deadlines.check (h : Deadlines ok tr m) (hlawful : Lawful heap.ops ByKey ok heap.pairs)
    (hcheck : TimerManger.check m now = some (m', waitList)) :
    Deadlines ok (tr ++ [.checked now waitList]) m' ∧ NotEarly tr (.checked now waitList) := by
  obtain ⟨hok, htaken⟩ := checkLoop_taken hlawful h.ok (taken_nil m now) hcheck
  have hperm := checkLoop_perm hcheck
  rw [List.append_nil] at hperm
  refine ⟨⟨hok, fun p hp => ?_⟩, fun p hp => ?_⟩
  · obtain ⟨msec, clock, task, hmem, heq⟩ := h.queued p (hperm.mem_iff.mp (List.mem_append_left _ hp))
    exact ⟨msec, clock, task, List.mem_append_left _ hmem, heq⟩
  · obtain ⟨msec, clock, task, hmem, rfl, hwrap⟩ := h.queued p (hperm.mem_iff.mp (List.mem_append_right _ hp))
    refine ⟨⟨msec, clock, task, hmem, rfl⟩, ?_⟩
    rintro msec' clock' task' - heq
    obtain ⟨rfl, rfl, rfl⟩ := timerPair_inj heq
    have hdue : msec + clock ≤ now := htaken.due _ hp
    rw [BitVec.le_def, BitVec.toNat_add_of_lt hwrap] at hdue
    exact hdue

theorem Deadlines.quiet (h : Deadlines ok tr m) (hes : es = []) :
    Deadlines ok (tr ++ es) m ∧ AlwaysFrom NotEarly tr es := by
  rw [hes, List.append_nil]
  exact ⟨h, trivial⟩

theorem timerManger_deadlines {s s' : TimerManger heap} (hlawful : Lawful heap.ops ByKey ok heap.pairs)
    (h : Deadlines ok tr s.m_minHeap) (hwrap : NoWrap s a)
    (hs : (timerManger heap).step s a = some (s', es)) :
    Deadlines ok (tr ++ s.log a s') s'.m_minHeap ∧ AlwaysFrom NotEarly tr (s.log a s') := by
  cases timerManger_step hs with
  | createdEmpty | created => exact ⟨h.push hlawful hwrap, trivial, trivial⟩
  | check hcheck =>
    simp only [TimerManger.log, List.drop_left]
    obtain ⟨hdeadlines, hnot⟩ := h.check hlawful hcheck
    exact ⟨hdeadlines, hnot, trivial⟩
  | threw | began | ranFalse | taskThrows => exact h.quiet rfl
  | ranTrue hexec =>
    simp only [TimerManger.log, NoWrap, hexec, List.head?_cons] at hwrap ⊢
    exact ⟨h.push hlawful (hwrap _ rfl), trivial, trivial⟩

theorem timerLog_deadlines {s : TimerManger heap} (hlawful : Lawful heap.ops ByKey ok heap.pairs)
    (h : (timerLog heap).RunIf NoWrap tr s) : Deadlines ok tr s.m_minHeap ∧ Always NotEarly tr := by
  refine h.invariant (I := fun tr s => Deadlines ok tr s.m_minHeap ∧ Always NotEarly tr) ?_ ?_
  · refine ⟨⟨hlawful.new_ok, fun p hp => ?_⟩, always_nil⟩
    rw [show (timerLog heap).init.m_minHeap = heap.new from rfl, heap.pairs_new] at hp
    cases hp
  · rintro tr s a s' es - ⟨hinv, halways⟩ hwrap hs
    obtain ⟨⟨es', hstep⟩, rfl⟩ := Machine.step_of_relabel hs
    obtain ⟨hinv', hnot⟩ := timerManger_deadlines hlawful hinv hwrap hstep
    exact ⟨hinv', always_append.mpr ⟨halways, hnot⟩⟩

theorem due_of_wrap {msec clock : BitVec 64} (hwrap : 2 ^ 64 ≤ msec.toNat + clock.toNat) (task : TimerTask) :
    Due clock (timerPair msec clock task) := by
  simp only [Due, timerPair, BitVec.le_def, BitVec.toNat_add]
  have hmsec := msec.isLt
  have hclock := clock.isLt
  omega

theorem mem_of_queued {s s' : TimerManger heap} (hs : (timerManger heap).step s a = some (s', es))
    (hlog : s.log a s' = [.queued msec clock task]) :
    s'.m_minHeap = TimerManger.createTask s.m_minHeap msec task clock := by
  cases timerManger_step hs with
  | createdEmpty | created =>
    cases hlog
    rfl
  | ranTrue hexec =>
    simp only [TimerManger.log, hexec, List.head?_cons] at hlog
    cases hlog
    rfl
  | check | threw | began | ranFalse | taskThrows => cases hlog

/-- What the condition leaves out: a timer whose deadline wraps is returned by a
check at the same clock. -/
theorem timerManger_early_of_wrap {s s' : TimerManger heap} (hheap : heap ∈ timerHeaps)
    (h : (timerLog heap).RunIf NoWrap tr s) (hs : (timerManger heap).step s a = some (s', es))
    (hlog : s.log a s' = [.queued msec clock task]) (hwrap : 2 ^ 64 ≤ msec.toNat + clock.toNat) :
    ∃ m pairs, TimerManger.check s'.m_minHeap clock = some (m, pairs) ∧ timerPair msec clock task ∈ pairs ∧
      clock.toNat < msec.toNat + clock.toNat := by
  obtain ⟨ok, hlawful⟩ := timerHeaps_lawful hheap
  have hheap' := mem_of_queued hs hlog
  have hok : ok s'.m_minHeap := by
    rw [hheap']
    exact hlawful.push_ok (x := timerPair msec clock task) (timerLog_deadlines hlawful h).1.ok
  obtain ⟨m, pairs, hcheck, -, hdue, -, -⟩ := check_splits hlawful hok clock
  refine ⟨m, pairs, hcheck, hdue.mem_iff.mpr (List.mem_filter.mpr ⟨?_, ?_⟩), ?_⟩
  · rw [hheap']
    exact (heap.pairs_push _ _ _).mem_iff.mpr (.head _)
  · exact decide_eq_true (due_of_wrap hwrap task)
  · have := clock.isLt
    omega

end

/-- Over either heap, in every run in which no interval plus clock exceeds 64
bits where a timer is queued: no check returns a timer before its deadline. -/
theorem timerManger_never_early (heap : MinHeapTy (BitVec 64) Timer) (hheap : heap ∈ timerHeaps)
    (tr : List TimerLog) (s : TimerManger heap) (h : (timerLog heap).RunIf NoWrap tr s) : Always NotEarly tr := by
  obtain ⟨ok, hlawful⟩ := timerHeaps_lawful hheap
  exact (timerLog_deadlines hlawful h).2

instance {heap : MinHeapTy (BitVec 64) Timer} : (s : TimerManger heap) → (a : TimerAct) → Decidable (NoWrap s a)
  | _, .createTask msec _ clock => inferInstanceAs (Decidable (msec.toNat + clock.toNat < 2 ^ 64))
  | s, .taskReturns true clock =>
    inferInstanceAs (Decidable (∀ p ∈ s.executing.head?, p.m_val.m_key.toNat + clock.toNat < 2 ^ 64))
  | _, .taskReturns false _ | _, .check _ | _, .proxyExec _ | _, .taskThrows => .isTrue trivial

theorem timerManger_never_early_run : ∃ tr s, (timerLog (fourWayHeap (BitVec 64) Timer)).RunIf NoWrap tr s ∧
    tr = [.queued 0xfffffffffffffffc 3 (some 0), .queued 2 3 (some 1), .checked 4 [],
      .checked 5 [timerPair 2 3 (some 1)], .queued 2 6 (some 1), .checked 9 [timerPair 2 6 (some 1)]] ∧
    Always NotEarly tr := by
  have hr : (((timerLog (fourWayHeap (BitVec 64) Timer)).only NoWrap).replay (TimerManger.new _)
      [.createTask 0xfffffffffffffffc false 3, .createTask 2 false 3, .check 4, .check 5, .proxyExec 0,
        .taskReturns true 6, .check 9]).isSome := rfl
  have hrun := Machine.steps_of_replay_only (Option.some_get hr).symm
  exact ⟨_, _, hrun, rfl, timerManger_never_early _ (.tail _ (.head _)) _ _ hrun⟩

theorem timerManger_fires_early : ∃ tr s, (timerLog (binaryHeap (BitVec 64) Timer)).Run tr s ∧
    tr = [.queued 0xffffffffffffffff 1 (some 0), .checked 1 [timerPair 0xffffffffffffffff 1 (some 0)]] ∧
    ¬Always NotEarly tr := by
  have hr : ((timerLog (binaryHeap (BitVec 64) Timer)).replay (TimerManger.new _)
      [.createTask 0xffffffffffffffff false 1, .check 1]).isSome := rfl
  refine ⟨_, _, Machine.steps_of_replay (Option.some_get hr).symm, rfl, fun halways => ?_⟩
  have hnot := (halways [.queued 0xffffffffffffffff 1 (some 0)] _ [] rfl _ (.head _)).2
  exact absurd (hnot _ _ _ (.head _) rfl) (by decide)

end Andren.Base
