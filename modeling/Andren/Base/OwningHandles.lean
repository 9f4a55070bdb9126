import Andren.Machine.Owners

/-!
# Classes that own a handle

Connections and results of two databases, SSL contexts and coroutines are each owned by the one
handle of an object. All but one of these classes release each resource once
(`handles_released_once`). A `PostgresQLConn` that connects again forgets the connection it has,
and this alone loses one (`postgresQLConn_finished_iff`).
-/

namespace Andren.Base

open Machines

variable {ν : Type}

-- ---------------------------------------------------------------------------
-- The classes
-- ---------------------------------------------------------------------------

/-- The members that touch `m_handle`; `conn` is what libpq returns. -/
inductive PostgresQLConnAct (ν : Type)
  | new
  | ofConn (conn : Option ν)
  | moveCtor (j : Nat)
  | moveAssign (i j : Nat)
  | connectByString (i : Nat) (conn : Option ν)
  | connectByParam (i : Nat) (conn : Option ν)
  | connectStartByString (i : Nat) (conn : Option ν)
  | connectStartParams (i : Nat) (conn : Option ν)
  | destructor (i : Nat)

def PostgresQLConnAct.op : PostgresQLConnAct ν → OwnerOp ν
  | .new => .made none
  | .ofConn conn => .made conn
  | .moveCtor j => .moved j
  | .moveAssign i j => .assigned i j
  | .connectByString i conn | .connectByParam i conn => .overwritten i conn
  | .connectStartByString i conn | .connectStartParams i conn => .overwritten i conn
  | .destructor i => .destroyed i

/-- `res` is a result that a connection has just returned. -/
inductive PostgresQLResultAct (ν : Type)
  | new
  | ofResult (res : Option ν)
  | moveCtor (j : Nat)
  | moveAssign (i j : Nat)
  | assignResult (i : Nat) (res : Option ν)
  | destructor (i : Nat)

def PostgresQLResultAct.op : PostgresQLResultAct ν → OwnerOp ν
  | .new => .made none
  | .ofResult res => .made res
  | .moveCtor j => .moved j
  | .moveAssign i j => .assigned i j
  | .assignResult i res => .replaced i res
  | .destructor i => .destroyed i

/-- `handle` is what `mysql_init` returns, `k` the place of a handle that `take_handle` returned. -/
inductive MySQLConnAct (ν : Type)
  | new (handle : Option ν)
  | ofHandle (k : Nat)
  | moveCtor (j : Nat)
  | moveAssign (i j : Nat)
  | close (i : Nat)
  | take_handle (i : Nat)
  | mysql_close (k : Nat)
  | destructor (i : Nat)

def MySQLConnAct.op : MySQLConnAct ν → OwnerOp ν
  | .new handle => .made handle
  | .ofHandle k => .adopted k
  | .moveCtor j => .moved j
  | .moveAssign i j => .assigned i j
  | .close i => .reset i
  | .take_handle i => .took i
  | .mysql_close k => .freed k
  | .destructor i => .destroyed i

/-- `ctx` is a context that a creator has just made, `k` the place of one that `take` returned. -/
inductive ASSLContextAct (ν : Type)
  | new
  | ofCtx (ctx : Option ν)
  | ofTaken (k : Nat)
  | moveCtor (j : Nat)
  | moveAssign (i j : Nat)
  | take (i : Nat)
  | SSL_CTX_free (k : Nat)
  | destructor (i : Nat)

def ASSLContextAct.op : ASSLContextAct ν → OwnerOp ν
  | .new => .made none
  | .ofCtx ctx => .made ctx
  | .ofTaken k => .adopted k
  | .moveCtor j => .moved j
  | .moveAssign i j => .assigned i j
  | .take i => .took i
  | .SSL_CTX_free k => .freed k
  | .destructor i => .destroyed i

/-- `handle` is the coroutine that a function has just begun. -/
inductive CoTaskAct (ν : Type)
  | new
  | ofHandle (handle : Option ν)
  | ofFn (handle : Option ν)
  | moveCtor (j : Nat)
  | moveAssign (i j : Nat)
  | destructor (i : Nat)

def CoTaskAct.op : CoTaskAct ν → OwnerOp ν
  | .new => .made none
  -- The task that `fn` returns is a local variable, which is moved from.
  | .ofHandle handle | .ofFn handle => .made handle
  | .moveCtor j => .moved j
  | .moveAssign i j => .assigned i j
  | .destructor i => .destroyed i

-- ---------------------------------------------------------------------------
-- What is released
-- ---------------------------------------------------------------------------

/-- In every run of each class, self assignment included, each resource is released once or held
once, and released once when no object is left and what was taken is released. -/
theorem handles_released_once (ν : Type) [DecidableEq ν] : Linear (PostgresQLResultAct.op (ν := ν)) ∧
    Linear (MySQLConnAct.op (ν := ν)) ∧ Linear (ASSLContextAct.op (ν := ν)) ∧ Linear (CoTaskAct.op (ν := ν)) := by
  refine ⟨linear_of_no_overwrite ?_, linear_of_no_overwrite ?_, linear_of_no_overwrite ?_,
    linear_of_no_overwrite ?_⟩
  all_goals
    intro a i n heq
    cases a <;> cases heq

def Reconnects (s : Owners ν) : PostgresQLConnAct ν → Prop
  | .connectByString i _ | .connectByParam i _ => ∃ p, s.vars[i]? = some (some p)
  | .connectStartByString i _ | .connectStartParams i _ => ∃ p, s.vars[i]? = some (some p)
  | .new | .ofConn _ | .moveCtor _ | .moveAssign .. | .destructor _ => False

theorem overwrites_iff (s : Owners ν) (a : PostgresQLConnAct ν) : s.Overwrites a.op ↔ Reconnects s a := by
  cases a <;> exact .rfl

/-- In every run no connection is finished twice; and when no object is left, all are finished if and only if
no object that had a connection connected. -/
theorem postgresQLConn_finished_iff (ν : Type) [DecidableEq ν] (as : List (PostgresQLConnAct ν)) (s : Owners ν)
    (tr : List Nat) (hr : (owners PostgresQLConnAct.op).replay .empty as = some (s, tr)) :
    (∀ k, tr.count k ≤ 1) ∧ (s.vars = [] → ((∀ k < s.table.made, tr.count k = 1) ↔
      ∀ tr' s' a, (owners PostgresQLConnAct.op).Takes as tr' s' a → ¬Reconnects s' a)) := by
  have hrun := Machine.steps_of_replay hr
  have haccount := owners_accounted hrun
  have htaken : s.taken = [] := by
    refine hrun.state_invariant (I := fun s => s.taken = []) rfl ?_
    intro s a s' es hnone _ hs
    refine untaken_step hs hnone fun i heq => ?_
    cases a <;> cases heq
  refine ⟨haccount.count_le, fun hvars => ?_⟩
  rw [haccount.released_iff hvars htaken, owners_forget_iff hr]
  simp only [overwrites_iff]

theorem postgresQLConn_finished_iff_moved : ∃ s tr, (owners (PostgresQLConnAct.op (ν := Nat))).replay .empty
      [.new, .connectByString 0 (some 8), .moveCtor 0, .connectByParam 0 (some 9), .moveAssign 1 0, .destructor 0,
        .destructor 0] = some (s, tr) ∧ s.vars = [] ∧ tr = [0, 1] ∧ ∀ k, tr.count k ≤ 1 := by
  have hr : ((owners (PostgresQLConnAct.op (ν := Nat))).replay .empty
      [.new, .connectByString 0 (some 8), .moveCtor 0, .connectByParam 0 (some 9), .moveAssign 1 0, .destructor 0,
        .destructor 0]).isSome := rfl
  have hrun := (Option.some_get hr).symm
  exact ⟨_, _, hrun, rfl, rfl, (postgresQLConn_finished_iff Nat _ _ _ hrun).1⟩

end Andren.Base
