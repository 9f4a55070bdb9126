import Andren.Machine.Basic
import Mathlib.Data.List.Nodup

/-!
# Notice handlers of a connection

`setNoticeReceiver` and `setNoticeProcessor` copy a function to the heap and give libpq a
callback with its address. The callback calls the function and deletes it, and libpq keeps
the address. `notices_survive` says that a second notice finds a deleted function.
-/

namespace Andren.Base

open Machines

inductive NoticeHook
  | receiver
  | processor
  deriving DecidableEq

/-- `installed` is the function whose address libpq has for a hook. `functions` tells of
each function made so far whether it is one that can be called. -/
structure PgConn where
  installed : NoticeHook → Option Nat
  functions : List Bool
  deleted : List Nat
  /-- The calls in progress, the innermost first. -/
  running : List Nat

inductive PgAct
  | setNoticeReceiver (func : Bool)
  | setNoticeProcessor (func : Bool)
  /-- libpq calls the callback of a hook, from inside a call as well. -/
  | notice (hook : NoticeHook)
  /-- The innermost function returns. -/
  | ret

inductive PgEv
  /-- A notice comes to a function; `func` tells whether it can be called. -/
  | delivered (k : Nat) (func : Bool)
  | called (k : Nat)
  | deleted (k : Nat)
  /-- A function is tested, called or deleted after it was deleted. -/
  | stale (k : Nat)
  deriving DecidableEq

namespace PgConn

def setNotice (c : PgConn) (hook : NoticeHook) (func : Bool) : PgConn :=
  { c with
    installed := Function.update c.installed hook (some c.functions.length)
    functions := c.functions ++ [func] }

def setNoticeReceiver (c : PgConn) (func : Bool) : PgConn := c.setNotice .receiver func

def setNoticeProcessor (c : PgConn) (func : Bool) : PgConn := c.setNotice .processor func

def delete (c : PgConn) (k : Nat) : PgConn := { c with deleted := k :: c.deleted }

/-- The callback, up to the call of a function that can be called. -/
def notice (c : PgConn) (k : Nat) (func : Bool) : PgConn × List PgEv :=
  if k ∈ c.deleted then (c, [.delivered k func, .stale k])
  else if func then ({ c with running := k :: c.running }, [.delivered k func, .called k])
  else (c.delete k, [.delivered k func, .deleted k])

/-- The callback, from the return of the function. -/
def ret (c : PgConn) (k : Nat) : PgConn × List PgEv :=
  if k ∈ c.deleted then (c, [.stale k]) else (c.delete k, [.deleted k])

end PgConn

/-- A connection. A hook that nothing was set for is libpq's own business. -/
def pgConn : Machine PgConn PgAct PgEv where
  init := ⟨fun _ => none, [], [], []⟩
  step c
    | .setNoticeReceiver func => some (c.setNoticeReceiver func, [])
    | .setNoticeProcessor func => some (c.setNoticeProcessor func, [])
    | .notice hook => match c.installed hook with
      | none => some (c, [])
      | some k => (c.functions[k]?).map (c.notice k)
    | .ret => match c.running with
      | [] => none
      | k :: running => some ({ c with running }.ret k)

/-- Each notice calls the function that it comes to, unless that cannot be called, and no
function is used after it was deleted. -/
structure NoticesSurvive (tr : List PgEv) : Prop where
  called : ∀ k, tr.count (.called k) = tr.count (.delivered k true)
  live : ∀ k, .stale k ∉ tr

def PgConn.fresh (c : PgConn) : PgAct → Prop
  | .notice hook => ∀ k, c.installed hook = some k → k ∉ c.deleted ∧ k ∉ c.running
  | _ => True

-- ---------------------------------------------------------------------------
-- What a step does
-- ---------------------------------------------------------------------------

structure RunningOk (running deleted : List Nat) : Prop where
  nodup : running.Nodup
  live : ∀ k ∈ running, k ∉ deleted

def RunningFuncs (c : PgConn) : Prop := ∀ k ∈ c.running, c.functions[k]? = some true

def NoticesOk (tr : List PgEv) (c : PgConn) : Prop := NoticesSurvive tr ∧ RunningOk c.running c.deleted

section

variable {c c' : PgConn}

theorem survive_append (hcalled : ∀ k, es.count (.called k) = es.count (.delivered k true))
    (hlive : ∀ k, .stale k ∉ es) : NoticesSurvive (tr ++ es) ↔ NoticesSurvive tr := by
  constructor
  · intro h
    refine ⟨fun k => ?_, fun k hk => h.live k (List.mem_append_left _ hk)⟩
    have hk := h.called k
    rw [List.count_append, List.count_append, hcalled] at hk
    omega
  · intro h
    refine ⟨fun k => ?_, fun k hk => ?_⟩
    · rw [List.count_append, List.count_append, hcalled, h.called]
    · rcases List.mem_append.mp hk with hk | hk
      · exact h.live k hk
      · exact hlive k hk

theorem not_survive (hk : .stale k ∈ es) : ¬NoticesSurvive (tr ++ es) :=
  fun h => h.live k (List.mem_append_right _ hk)

theorem runningOk_cons : RunningOk (k :: running) deleted ↔
    RunningOk running deleted ∧ k ∉ deleted ∧ k ∉ running := by
  constructor
  · intro ⟨hnodup, hlive⟩
    obtain ⟨hk, hnodup⟩ := List.nodup_cons.mp hnodup
    exact ⟨⟨hnodup, fun j hj => hlive j (.tail _ hj)⟩, hlive k (.head _), hk⟩
  · rintro ⟨⟨hnodup, hlive⟩, hdeleted, hk⟩
    exact ⟨List.nodup_cons.mpr ⟨hk, hnodup⟩, List.forall_mem_cons.mpr ⟨hdeleted, hlive⟩⟩

theorem runningOk_delete : RunningOk running (k :: deleted) ↔ RunningOk running deleted ∧ k ∉ running := by
  constructor
  · intro ⟨hnodup, hlive⟩
    exact ⟨⟨hnodup, fun j hj hd => hlive j hj (.tail _ hd)⟩, fun hk => hlive k hk (.head _)⟩
  · rintro ⟨⟨hnodup, hlive⟩, hk⟩
    refine ⟨hnodup, fun j hj hd => ?_⟩
    rcases List.mem_cons.mp hd with rfl | hd
    · exact hk hj
    · exact hlive j hj hd

theorem notice_step (hfuncs : RunningFuncs c) (hk : c.functions[k]? = some func)
    (hs : c.notice k func = (c', es)) : RunningFuncs c' ∧
      (NoticesOk (tr ++ es) c' ↔ NoticesOk tr c ∧ k ∉ c.deleted ∧ k ∉ c.running) := by
  unfold PgConn.notice at hs
  split at hs
  · rename_i hdeleted
    cases hs
    exact ⟨hfuncs, iff_of_false (fun h => not_survive (k := k) (by simp) h.1) fun h => h.2.1 hdeleted⟩
  · rename_i hdeleted
    split at hs
    · rename_i hfunc
      cases hs
      subst hfunc
      refine ⟨List.forall_mem_cons.mpr ⟨hk, hfuncs⟩, ?_⟩
      rw [NoticesOk, survive_append (by simp [List.count_cons]) (by simp), runningOk_cons, ← and_assoc, NoticesOk]
    · rename_i hfunc
      have hnot : k ∉ c.running := fun hrunning => hfunc (Option.some.inj (hk.symm.trans (hfuncs k hrunning)))
      rw [Bool.not_eq_true] at hfunc
      cases hs
      subst hfunc
      refine ⟨hfuncs, ?_⟩
      rw [NoticesOk, survive_append (by simp) (by simp), PgConn.delete, runningOk_delete, NoticesOk]
      simp only [hdeleted, hnot, not_false_eq_true, and_true]

theorem ret_step (hfuncs : RunningFuncs c) (hrunning : c.running = k :: running)
    (hs : { c with running }.ret k = (c', es)) :
    RunningFuncs c' ∧ (NoticesOk (tr ++ es) c' ↔ NoticesOk tr c) := by
  have hrest : RunningFuncs { c with running } := fun j hj => hfuncs j (hrunning ▸ .tail _ hj)
  unfold PgConn.ret at hs
  split at hs
  · rename_i hdeleted
    cases hs
    refine ⟨hrest, iff_of_false (fun h => not_survive (k := k) (by simp) h.1) fun h => ?_⟩
    exact h.2.live k (hrunning ▸ .head _) hdeleted
  · rename_i hdeleted
    cases hs
    refine ⟨hrest, ?_⟩
    rw [NoticesOk, survive_append (by simp) (by simp), PgConn.delete, runningOk_delete, NoticesOk,
      hrunning, runningOk_cons]
    simp only [hdeleted, not_false_eq_true, true_and]

theorem setNotice_step (hfuncs : RunningFuncs c) (hook : NoticeHook) (func : Bool) :
    RunningFuncs (c.setNotice hook func) ∧ (NoticesOk (tr ++ []) (c.setNotice hook func) ↔ NoticesOk tr c) := by
  refine ⟨fun k hk => ?_, by rw [List.append_nil]; rfl⟩
  have hk := hfuncs k hk
  obtain ⟨hlt, -⟩ := List.getElem?_eq_some_iff.mp hk
  exact (List.getElem?_append_left hlt).trans hk

theorem pgConn_step (hfuncs : RunningFuncs c) (hs : pgConn.step c a = some (c', es)) :
    RunningFuncs c' ∧ (NoticesOk (tr ++ es) c' ↔ NoticesOk tr c ∧ c.fresh a) := by
  cases a with
  | setNoticeReceiver func =>
    cases hs
    exact (setNotice_step hfuncs .receiver func).imp_right fun hiff => hiff.trans (and_iff_left trivial).symm
  | setNoticeProcessor func =>
    cases hs
    exact (setNotice_step hfuncs .processor func).imp_right fun hiff => hiff.trans (and_iff_left trivial).symm
  | notice hook =>
    simp only [pgConn] at hs
    split at hs
    · rename_i hnone
      cases hs
      rw [List.append_nil, PgConn.fresh, hnone]
      exact ⟨hfuncs, (and_iff_left nofun).symm⟩
    · rename_i k hinstalled
      obtain ⟨func, hk, hs⟩ := Option.map_eq_some_iff.mp hs
      rw [PgConn.fresh, hinstalled]
      refine (notice_step hfuncs hk hs).imp_right fun hiff => hiff.trans (and_congr_right fun _ => ?_)
      simp
  | ret =>
    simp only [pgConn] at hs
    split at hs
    · cases hs
    · rename_i k running hrunning
      exact (ret_step hfuncs hrunning (Option.some.inj hs)).imp_right fun hiff => hiff.trans (and_iff_left trivial).symm

/-- When each notice finds a function that none has come to, every notice is handled as it
should be. Once all calls have returned, it was handled so only then. -/
theorem notices_survive (hr : pgConn.replay pgConn.init as = some (c, tr)) :
    ((∀ tr' c' a, pgConn.Takes as tr' c' a → c'.fresh a) → NoticesSurvive tr) ∧
      (c.running = [] → NoticesSurvive tr → ∀ tr' c' a, pgConn.Takes as tr' c' a → c'.fresh a) := by
  have hinit : NoticesOk [] pgConn.init := ⟨⟨fun _ => rfl, nofun⟩, .nil, nofun⟩
  have hiff := (Machine.iff_forall_takes (I := fun _ c => RunningFuncs c) (P := NoticesOk)
    (fun _ hk => absurd hk List.not_mem_nil) hinit
    (fun _ _ _ _ _ hi hs => pgConn_step hi hs) hr).2
  refine ⟨fun h => (hiff.mpr h).1, fun hnil h => hiff.mp ⟨h, ?_⟩⟩
  rw [hnil]
  exact ⟨.nil, nofun⟩

theorem notices_survive_replaced : ∃ c tr,
    pgConn.replay pgConn.init [.setNoticeReceiver true, .notice .receiver, .setNoticeReceiver true, .ret] =
      some (c, tr) ∧ c.running = [] ∧
    ((∀ tr' c' a, pgConn.Takes [.setNoticeReceiver true, .notice .receiver, .setNoticeReceiver true, .ret]
      tr' c' a → c'.fresh a) → NoticesSurvive tr) :=
  ⟨_, _, rfl, rfl, (notices_survive rfl).1⟩

theorem notices_use_deleted : ¬∀ as c tr, pgConn.replay pgConn.init as = some (c, tr) → NoticesSurvive tr := by
  intro h
  have hsurvive : NoticesSurvive [.delivered 0 true, .called 0, .deleted 0, .delivered 0 true, .stale 0] :=
    h [.setNoticeProcessor true, .notice .processor, .ret, .notice .processor] _ _ rfl
  exact hsurvive.live 0 (by decide)

end

end Andren.Base
