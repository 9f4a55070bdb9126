import Andren.Machine.Handles

/-!
# Shared memory objects

A `SharedMem` owns the mapping at `m_pdata`, and an owner also the name of the
shared memory: it unmaps the one and removes the other when it is destroyed or
assigned to. An address is in use again once it is unmapped.

`close` leaves its fields set when a system call fails, and nobody sees them:
the object is assigned to or ends. As long as `munmap` does not fail, each
mapping is unmapped once, by the last object that it was moved to
(`sharedMem_linear`).
-/

namespace Andren.Base

open Machines

structure SharedMem where
  m_pdata : Nat
  m_path : String
  m_owner : Bool
  stands : Standing
  deriving DecidableEq

structure MemSystem where
  kernel : HandleTable Nat
  objects : List SharedMem

inductive ShmOpen
  | opened
  /-- It failed with `ENOENT`. -/
  | absent
  | failed

/-- What the system calls of a constructor return. `mmap` gives the address. -/
structure ShmCalls where
  shm_open : ShmOpen
  /-- The second `shm_open`, with `O_CREAT`. -/
  created : Bool
  ftruncate : Bool
  mmap : Option Nat

inductive MemAct
  /-- `SharedMem()`. -/
  | empty
  /-- `SharedMem(path, owner)`. -/
  | construct (path : String) (owner : Bool) (calls : ShmCalls)
  | moveConstruct (i : Nat)
  | moveAssign (i j : Nat) (munmap shm_unlink : Bool)
  | destroy (i : Nat) (munmap shm_unlink : Bool)

inductive MemEv
  | mmap (addr k : Nat) (path : String) (owner : Bool)
  /-- The mapping `hit` is undone. -/
  | munmap (addr : Nat) (hit : Option Nat)
  /-- `shm_unlink`, by an object with the mapping `stands`, and whether it succeeds. -/
  | unlink (path : String) (stands : Standing) (ok : Bool)
  deriving DecidableEq

namespace SharedMem

def new : SharedMem := ⟨0, "", false, .nothing⟩

def valid (x : SharedMem) : Bool := x.m_pdata != 0

def reference (x : SharedMem) : Nat := x.m_pdata

def owns (x : SharedMem) : List (Nat × Nat) := x.stands.owns x.m_pdata

/-- The address of the constructor's mapping. `ftruncate` and `mmap` fail on the
descriptor of a failed `shm_open`. -/
def mapped (owner : Bool) (calls : ShmCalls) : Option Nat :=
  match owner, calls.shm_open with
  | true, .opened => if calls.ftruncate then calls.mmap else none
  | true, .absent => if calls.created && calls.ftruncate then calls.mmap else none
  | false, .opened => calls.mmap
  | false, .absent => none
  | _, .failed => none

def close (kernel : HandleTable Nat) (x : SharedMem) (munmap shm_unlink : Bool) :
    HandleTable Nat × SharedMem × List MemEv :=
  if x.m_pdata = 0 then (kernel, x, [])
  else if !munmap then (kernel, x, [])
  else
    let unmapped := MemEv.munmap x.m_pdata (kernel.inUse x.m_pdata)
    let kernel := kernel.release x.m_pdata
    if !x.m_owner then (kernel, { x with m_pdata := 0, m_owner := false, stands := .nothing }, [unmapped])
    else if !shm_unlink then
      (kernel, { x with stands := x.stands.released }, [unmapped, .unlink x.m_path x.stands false])
    else
      (kernel, { x with m_pdata := 0, m_owner := false, stands := .nothing },
        [unmapped, .unlink x.m_path x.stands true])

end SharedMem

/-- The kernel does not give out the address 0. -/
def sharedMems : Machine MemSystem MemAct MemEv where
  init := ⟨.empty, []⟩
  step s
    | .empty => some ({ s with objects := s.objects ++ [.new] }, [])
    | .construct path owner calls =>
      match SharedMem.mapped owner calls with
      | none => some ({ s with objects := s.objects ++ [.new] }, [])
      | some addr => if addr = 0 then none else do
        let (kernel, k) ← s.kernel.give addr
        pure (⟨kernel, s.objects ++ [⟨addr, path, owner, .live k⟩]⟩, [.mmap addr k path owner])
    | .moveConstruct i => do
      let x ← s.objects[i]?
      pure ({ s with objects := s.objects.set i .new ++ [x] }, [])
    | .moveAssign i j munmap shm_unlink => do
      let x ← s.objects[i]?
      let (kernel, x, es) := x.close s.kernel munmap shm_unlink
      let objects := s.objects.set i x
      let y ← objects[j]?
      pure (⟨kernel, (objects.set i y).set j .new⟩, es)
    | .destroy i munmap shm_unlink => do
      let x ← s.objects[i]?
      let (kernel, _, es) := x.close s.kernel munmap shm_unlink
      pure (⟨kernel, s.objects.eraseIdx i⟩, es)

def MemAct.munmapOk : MemAct → Bool
  | .moveAssign _ _ munmap _ | .destroy _ munmap _ => munmap
  | _ => true

def MemAct.movedFrom : MemAct → Option Nat
  | .moveConstruct i => some i
  | .moveAssign _ j _ _ => some j
  | _ => none

-- ---------------------------------------------------------------------------
-- The life of a mapping
-- ---------------------------------------------------------------------------

def MemEv.mapping : MemEv → Option Nat
  | .mmap _ k _ _ => some k
  | .munmap _ hit => hit
  | .unlink _ stands _ => stands.resource

def life (tr : List MemEv) (k : Nat) : List MemEv := tr.filter fun e => e.mapping = some k

def Undone (tr : List MemEv) (k : Nat) : Prop :=
  ∃ addr path owner ok, life tr k =
    .mmap addr k path owner :: .munmap addr (some k) :: if owner then [.unlink path (.live k) ok] else []

def InUse (tr : List MemEv) (x : SharedMem) (k : Nat) : Prop :=
  x.stands = .live k ∧ life tr k = [.mmap x.m_pdata k x.m_path x.m_owner]

structure LinearOwnership (tr : List MemEv) (s : MemSystem) : Prop where
  mappings : ∀ k < s.kernel.made, (∃ x, s.objects.filter (·.stands = .live k) = [x] ∧ InUse tr x k) ∨
    s.objects.filter (·.stands = .live k) = [] ∧ Undone tr k
  calls : ∀ e ∈ tr, ∃ k < s.kernel.made, e.mapping = some k
  reference : ∀ x ∈ s.objects, x.valid = true →
    ∃ k, s.kernel.inUse x.reference = some k ∧ InUse tr x k

-- ---------------------------------------------------------------------------
-- What the operations keep
-- ---------------------------------------------------------------------------

def MemEv.unmaps : MemEv → List Nat
  | .munmap _ hit => hit.toList
  | _ => []

/-- Between two operations, and without the object that one of them has closed. -/
structure MemInv (tr : List MemEv) (kernel : HandleTable Nat) (xs : List SharedMem) : Prop where
  ledger : Ledger kernel (tr.flatMap MemEv.unmaps) (xs.flatMap SharedMem.owns)
  objects : ∀ x ∈ xs, (x.stands = .nothing ∧ x.m_pdata = 0) ∨ ∃ k, x.m_pdata ≠ 0 ∧ InUse tr x k
  gone : ∀ k ∈ tr.flatMap MemEv.unmaps, Undone tr k
  calls : ∀ e ∈ tr, ∃ k < kernel.made, e.mapping = some k

section

variable {tr es : List MemEv} {kernel kernel' : HandleTable Nat} {xs : List SharedMem} {x : SharedMem}

theorem life_none (h : ∀ e ∈ tr, e.mapping ≠ some k) : life tr k = [] :=
  List.filter_eq_nil_iff.mpr (by simpa using h)

theorem life_concat : life (tr ++ es) k = life tr k ++ life es k := List.filter_append ..

theorem life_append (h : ∀ e ∈ es, e.mapping ≠ some k) : life (tr ++ es) k = life tr k := by
  rw [life_concat, life_none h, List.append_nil]

theorem InUse.append (hx : InUse tr x k) (h : ∀ e ∈ es, e.mapping ≠ some k) : InUse (tr ++ es) x k :=
  ⟨hx.1, (life_append h).trans hx.2⟩

theorem Undone.append (hk : Undone tr k) (h : ∀ e ∈ es, e.mapping ≠ some k) : Undone (tr ++ es) k := by
  obtain ⟨addr, path, owner, ok, hlife⟩ := hk
  exact ⟨addr, path, owner, ok, (life_append h).trans hlife⟩

theorem MemInv.move (h : MemInv tr kernel xs)
    (hperm : (xs'.flatMap SharedMem.owns).Perm (xs.flatMap SharedMem.owns))
    (hfrom : ∀ x ∈ xs', x ∈ xs ∨ x = .new) : MemInv tr kernel xs' := by
  refine ⟨h.ledger.perm hperm, ?_, h.gone, h.calls⟩
  intro x hx
  rcases hfrom x hx with hx | rfl
  · exact h.objects x hx
  · exact .inl ⟨rfl, rfl⟩

theorem MemInv.map (h : MemInv tr kernel xs) (hgive : kernel.give addr = some (kernel', k)) (haddr : addr ≠ 0) :
    MemInv (tr ++ [.mmap addr k path owner]) kernel' (xs ++ [⟨addr, path, owner, .live k⟩]) := by
  obtain ⟨hk, hmade⟩ := HandleTable.give_made hgive
  have hother : ∀ k' < kernel.made, ∀ e ∈ [MemEv.mmap addr k path owner], e.mapping ≠ some k' := by
    rintro k' hk' e (_ | ⟨_, ⟨⟩⟩) heq
    exact absurd (Option.some.inj heq) (by omega)
  have hlife : ∀ e ∈ tr, e.mapping ≠ some k := by
    intro e he heq
    obtain ⟨k', hk', hmapping⟩ := h.calls e he
    exact absurd (Option.some.inj (hmapping.symm.trans heq)) (by omega)
  refine ⟨?_, ?_, ?_, ?_⟩
  · rw [List.flatMap_append, List.flatMap_append]
    refine (h.ledger.step (.give hgive ?_))
    exact List.perm_append_singleton _ _
  · intro x hx
    rcases List.mem_append.mp hx with hx | hx
    · obtain hnothing | ⟨k', hpdata, huse⟩ := h.objects x hx
      · exact .inl hnothing
      · have howns : (x.m_pdata, k') ∈ x.owns := by
          rw [SharedMem.owns, huse.1]
          exact .head _
        refine .inr ⟨k', hpdata, huse.append (hother k' ?_)⟩
        exact h.ledger.held_lt (List.mem_flatMap_of_mem hx howns)
    · rw [List.mem_singleton.mp hx]
      refine .inr ⟨k, haddr, rfl, ?_⟩
      rw [life_concat, life_none hlife]
      simp [life, MemEv.mapping]
  · intro k' hk'
    rw [List.flatMap_append, List.flatMap_singleton] at hk'
    rw [show MemEv.unmaps (.mmap addr k path owner) = [] from rfl, List.append_nil] at hk'
    exact (h.gone k' hk').append (hother k' (h.ledger.gone_lt hk'))
  · intro e he
    rcases List.mem_append.mp he with he | he
    · obtain ⟨k', hk', hmapping⟩ := h.calls e he
      exact ⟨k', by omega, hmapping⟩
    · rw [List.mem_singleton.mp he]
      exact ⟨k, by omega, rfl⟩

def closeCalls (x : SharedMem) (k : Nat) (ok : Bool) : List MemEv :=
  .munmap x.m_pdata (some k) :: if x.m_owner then [.unlink x.m_path (.live k) ok] else []

theorem close_eq (hx : x.stands = .live k) (hpdata : x.m_pdata ≠ 0) (hlive : kernel.inUse x.m_pdata = some k)
    (hclose : x.close kernel true ok = (kernel', x', es)) :
    kernel' = kernel.release x.m_pdata ∧ es = closeCalls x k ok := by
  unfold SharedMem.close at hclose
  rw [if_neg hpdata, hlive, hx] at hclose
  cases howner : x.m_owner <;> rw [howner] at hclose <;> cases ok <;> cases hclose <;> simp [closeCalls, howner]

theorem closeCalls_mapping (he : e ∈ closeCalls x k ok) : e.mapping = some k := by
  unfold closeCalls at he
  split at he <;> aesop

theorem closeCalls_unmaps : (closeCalls x k ok).flatMap MemEv.unmaps = [k] := by
  unfold closeCalls
  split <;> rfl

theorem closeCalls_life : life (closeCalls x k ok) k = closeCalls x k ok :=
  List.filter_eq_self.mpr fun _ he => by simp [closeCalls_mapping he]

theorem MemInv.close (h : MemInv tr kernel xs) (hx : xs[i]? = some x)
    (hclose : x.close kernel true ok = (kernel', x', es)) : MemInv (tr ++ es) kernel' (xs.eraseIdx i) := by
  have hmem := List.mem_of_getElem? hx
  have hrest := flatMap_eraseIdx SharedMem.owns hx
  obtain ⟨hnothing, hpdata⟩ | ⟨k, hpdata, huse⟩ := h.objects x hmem
  · rw [SharedMem.close, if_pos hpdata] at hclose
    cases hclose
    rw [SharedMem.owns, hnothing] at hrest
    rw [List.append_nil]
    exact h.move hrest.symm fun y hy => .inl (List.mem_of_mem_eraseIdx hy)
  · rw [SharedMem.owns, huse.1] at hrest
    have hledger := h.ledger.perm hrest.symm
    obtain ⟨rfl, rfl⟩ := close_eq huse.1 hpdata (hledger.live _ (.head _)) hclose
    have hreleased := hledger.release
    have hother : ∀ k' ≠ k, ∀ e ∈ closeCalls x k ok, e.mapping ≠ some k' := by
      intro k' hne e he heq
      exact hne (Option.some.inj (heq.symm.trans (closeCalls_mapping he)))
    refine ⟨?_, ?_, ?_, ?_⟩
    · rw [List.flatMap_append, closeCalls_unmaps]
      exact hreleased
    · intro y hy
      obtain hnothing | ⟨k', hpdata', huse'⟩ := h.objects y (List.mem_of_mem_eraseIdx hy)
      · exact .inl hnothing
      · have howns : (y.m_pdata, k') ∈ y.owns := by
          rw [SharedMem.owns, huse'.1]
          exact .head _
        refine .inr ⟨k', hpdata', huse'.append (hother k' ?_)⟩
        rintro rfl
        exact hreleased.not_gone (List.mem_flatMap_of_mem hy howns) (by simp)
    · intro k' hk'
      rw [List.flatMap_append, closeCalls_unmaps] at hk'
      rcases List.mem_append.mp hk' with hgone | hk'
      · refine (h.gone k' hgone).append (hother k' ?_)
        rintro rfl
        exact hledger.not_gone (.head _) hgone
      · rw [List.mem_singleton.mp hk']
        refine ⟨x.m_pdata, x.m_path, x.m_owner, ok, ?_⟩
        rw [life_concat, huse.2, closeCalls_life]
        rfl
    · intro e he
      rcases List.mem_append.mp he with he | he
      · exact h.calls e he
      · exact ⟨k, hledger.held_lt (.head _), closeCalls_mapping he⟩

theorem mem_moveAssign (hy : (xs.set i x')[j]? = some y)
    (hmem : w ∈ ((xs.set i x').set i y).set j .new) : w ∈ xs.eraseIdx i ∨ w = .new := by
  obtain ⟨m, hm⟩ := List.mem_iff_getElem?.mp hmem
  rw [List.getElem?_set] at hm
  split at hm
  · split at hm <;> cases hm
    exact .inr rfl
  · rename_i hj
    refine .inl ?_
    rw [List.getElem?_set] at hm
    split at hm
    · rename_i hi
      split at hm <;> cases hm
      rw [List.getElem?_set_ne (by omega)] at hy
      exact List.mem_eraseIdx_iff_getElem?.mpr ⟨j, by omega, hy⟩
    · rename_i hi
      rw [List.getElem?_set_ne hi] at hm
      exact List.mem_eraseIdx_iff_getElem?.mpr ⟨m, by omega, hm⟩

theorem sharedMems_step (h : MemInv tr s.kernel s.objects) (hok : a.munmapOk = true)
    (hs : sharedMems.step s a = some (s', es)) : MemInv (tr ++ es) s'.kernel s'.objects := by
  have hnew : MemInv (tr ++ []) s.kernel (s.objects ++ [.new]) := by
    rw [List.append_nil]
    refine h.move ?_ fun x hx => ?_
    · rw [List.flatMap_append]
      exact .of_eq (List.append_nil _)
    · rcases List.mem_append.mp hx with hx | hx
      · exact .inl hx
      · exact .inr (List.mem_singleton.mp hx)
  cases a with
  | empty =>
    cases hs
    exact hnew
  | construct path owner calls =>
    simp only [sharedMems, Option.bind_eq_bind] at hs
    split at hs
    · cases hs
      exact hnew
    · obtain ⟨haddr, hs⟩ := Option.ite_none_left_eq_some.mp hs
      obtain ⟨⟨kernel, k⟩, hgive, hs⟩ := Option.bind_eq_some_iff.mp hs
      cases hs
      exact h.map hgive haddr
  | moveConstruct i =>
    obtain ⟨x, hx, hs⟩ := Option.bind_eq_some_iff.mp hs
    cases hs
    rw [List.append_nil]
    refine h.move ?_ fun y hy => ?_
    · rw [List.flatMap_append, List.flatMap_singleton]
      exact List.perm_append_comm.trans (flatMap_take SharedMem.owns hx rfl).symm
    · rcases List.mem_append.mp hy with hy | hy
      · exact List.mem_or_eq_of_mem_set hy
      · exact .inl (List.mem_singleton.mp hy ▸ List.mem_of_getElem? hx)
  | moveAssign i j munmap shm_unlink =>
    obtain ⟨x, hx, hs⟩ := Option.bind_eq_some_iff.mp hs
    obtain ⟨y, hy, hs⟩ := Option.bind_eq_some_iff.mp hs
    cases hs
    rw [show munmap = true from hok] at hy ⊢
    have hclosed := h.close hx (rfl : x.close s.kernel true shm_unlink = (_, _, _))
    have hset : (s.objects.set i (x.close s.kernel true shm_unlink).2.1)[i]? =
        some (x.close s.kernel true shm_unlink).2.1 :=
      List.getElem?_set_self (List.getElem?_eq_some_iff.mp hx).1
    refine hclosed.move ?_ fun w hw => mem_moveAssign hy hw
    have hmove := flatMap_move SharedMem.owns hset hy (z := .new) rfl
    exact (List.perm_append_left_iff _).mp (hmove.trans (flatMap_set SharedMem.owns hx _))
  | destroy i munmap shm_unlink =>
    obtain ⟨x, hx, hs⟩ := Option.bind_eq_some_iff.mp hs
    cases hs
    rw [show munmap = true from hok]
    exact h.close hx rfl

-- ---------------------------------------------------------------------------
-- Runs
-- ---------------------------------------------------------------------------

theorem sharedMems_inv (h : sharedMems.RunIf (fun _ a => a.munmapOk = true) tr s) :
    MemInv tr s.kernel s.objects := by
  refine h.invariant (I := fun tr s => MemInv tr s.kernel s.objects) ?_ ?_
  · exact ⟨ledger_empty, nofun, nofun, nofun⟩
  · intro tr s a s' es _ hinv hok hs
    exact sharedMems_step hinv hok hs

theorem owns_count (xs : List SharedMem) (k : Nat) :
    ((xs.flatMap SharedMem.owns).map Prod.snd).count k = (xs.filter (·.stands = .live k)).length := by
  induction xs with
  | nil => rfl
  | cons x xs ih =>
    rw [List.flatMap_cons, List.map_append, List.count_append, ih, List.filter_cons]
    rw [SharedMem.owns]
    cases hstands : x.stands with
    | nothing | stale k' => simp [Standing.owns]
    | live k' =>
      by_cases hk : k' = k <;> simp [Standing.owns, hk]
      omega

theorem MemInv.linear {s : MemSystem} (h : MemInv tr s.kernel s.objects) : LinearOwnership tr s := by
  have huse : ∀ x ∈ s.objects, ∀ k, x.stands = .live k → InUse tr x k := by
    intro x hx k hstands
    obtain ⟨hnothing, -⟩ | ⟨k', -, hinUse⟩ := h.objects x hx
    · rw [hstands] at hnothing
      cases hnothing
    · have heq := hstands.symm.trans hinUse.1
      cases heq
      exact hinUse
  refine ⟨?_, h.calls, ?_⟩
  · intro k hk
    have hcount := h.ledger.count k
    rw [if_pos hk, owns_count] at hcount
    by_cases hgone : k ∈ tr.flatMap MemEv.unmaps
    · have hpos := List.count_pos_iff.mpr hgone
      exact .inr ⟨List.length_eq_zero_iff.mp (by omega), h.gone k hgone⟩
    · rw [List.count_eq_zero.mpr hgone, Nat.zero_add] at hcount
      obtain ⟨x, hx⟩ := List.length_eq_one_iff.mp hcount
      have hmem : x ∈ s.objects.filter (·.stands = .live k) := hx ▸ .head _
      obtain ⟨hmem, hstands⟩ := List.mem_filter.mp hmem
      exact .inl ⟨x, hx, huse x hmem k (of_decide_eq_true hstands)⟩
  · intro x hx hvalid
    obtain ⟨-, hpdata⟩ | ⟨k, hpdata, hinUse⟩ := h.objects x hx
    · rw [SharedMem.valid, hpdata] at hvalid
      cases hvalid
    · have howns : (x.m_pdata, k) ∈ x.owns := by
        rw [SharedMem.owns, hinUse.1]
        exact .head _
      exact ⟨k, h.ledger.live _ (List.mem_flatMap_of_mem hx howns), hinUse⟩

theorem moved_from {s : MemSystem} (hs : sharedMems.step s a = some (s', es)) (hfrom : a.movedFrom = some j) :
    s'.objects[j]? = some .new := by
  cases a with
  | empty | construct | destroy => cases hfrom
  | moveConstruct i =>
    cases hfrom
    obtain ⟨x, hx, hs⟩ := Option.bind_eq_some_iff.mp hs
    cases hs
    have hlt := (List.getElem?_eq_some_iff.mp hx).1
    rw [List.getElem?_append_left (by simpa using hlt)]
    exact List.getElem?_set_self hlt
  | moveAssign i =>
    cases hfrom
    obtain ⟨x, hx, hs⟩ := Option.bind_eq_some_iff.mp hs
    obtain ⟨y, hy, hs⟩ := Option.bind_eq_some_iff.mp hs
    cases hs
    have hlt := (List.getElem?_eq_some_iff.mp hy).1
    exact List.getElem?_set_self (by simpa using hlt)

/-- Each mapping has one object, or had its `munmap` and, if an owner made it,
its `shm_unlink`; and an object moved from is as one newly made. -/
theorem sharedMem_linear (h : sharedMems.RunIf (fun _ a => a.munmapOk = true) tr s) :
    LinearOwnership tr s ∧ ∀ a s' es j, sharedMems.step s a = some (s', es) → a.movedFrom = some j →
      s'.objects[j]? = some .new :=
  ⟨(sharedMems_inv h).linear, fun _ _ _ _ hs hfrom => moved_from hs hfrom⟩

theorem sharedMem_linear_moved : ∃ tr s, sharedMems.RunIf (fun _ a => a.munmapOk = true) tr s ∧
    tr = [.mmap 4096 0 "/m" true, .munmap 4096 (some 0), .unlink "/m" (.live 0) false, .mmap 4096 1 "/m" true,
      .munmap 4096 (some 1), .unlink "/m" (.live 1) true] ∧ LinearOwnership tr s := by
  have hr : ((sharedMems.only fun _ a => a.munmapOk = true).replay ⟨.empty, []⟩
      [.construct "/m" true ⟨.absent, true, true, some 4096⟩, .moveConstruct 0, .moveAssign 1 1 true false,
        .construct "/m" true ⟨.opened, true, true, some 4096⟩, .moveAssign 0 2 true true,
        .destroy 0 true true]).isSome := rfl
  have hrun := Machine.steps_of_replay_only (Option.some_get hr).symm
  exact ⟨_, _, hrun, rfl, (sharedMem_linear hrun).1⟩

end

end Andren.Base
