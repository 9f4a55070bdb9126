import Andren.Base.SysPipe
import Andren.Machine.Basic
import Mathlib.Data.List.Flatten
import Mathlib.Data.List.Forall2

/-!
# Writers that share a pipe

Threads and processes call `SysPipe::write` and `SysPipe::read` at the two ends of one pipe. The
kernel writes up to `PIPE_BUF` bytes at once, and no piece of `SysPipe::write` is longer, so other
writers come between the pieces of a message and never into one.

What has been read, followed by what is in the pipe, is the pieces in the order in which they were
written, and those of one writer stand there in the order of its data; a call put all of its data
there just when it returned its size (`pipe_interleaves`). While nobody writes more than
`PIPE_BUF` bytes, the pieces are messages (`pipe_messages_whole`). Between the last `::write` of
a call and its return other calls write and return.
-/

namespace Andren.Base

open Machines

/-- A call of `SysPipe::write`: the pieces it has not tried to write, and the sum so far. -/
structure PipeCall where
  data : Bytes
  todo : List Bytes
  ret : Int

structure Pipe where
  content : Bytes
  /-- The call that a thread is in. -/
  calls : Nat → Option PipeCall

inductive PipeAct
  | write (i : Nat) (fd : Int) (data : Bytes)
  /-- The thread's next `::write` fails or takes so many bytes. -/
  | piece (i : Nat) (taken : Option Nat)
  /-- The thread's call returns. -/
  | leave (i : Nat)
  /-- `::read` fails or returns `got`. -/
  | read (fd : Int) (data : Bytes) (got : Option Nat)

inductive PipeEv
  | refused (i : Nat)
  | wrote (i : Nat) (piece : Bytes)
  | failed (i : Nat)
  | returned (i : Nat) (data : Bytes) (ret : Int)
  | read (ret : Int) (data : Bytes)
  deriving DecidableEq

/-- What the kernel takes of a piece: all of it, if that is at most `PIPE_BUF` bytes. -/
def AtOnce (piece : Bytes) (n : Nat) : Prop := n ≤ piece.length ∧ (piece.length ≤ PIPE_BUF → n = piece.length)

instance (piece : Bytes) (n : Nat) : Decidable (AtOnce piece n) := inferInstanceAs (Decidable (_ ∧ _))

namespace Pipe

def next (s : Pipe) (i : Nat) (c : PipeCall) (rest : List Bytes) (n : Int) : Pipe :=
  { s with calls := Function.update s.calls i (some { c with todo := rest, ret := c.ret + n }) }

end Pipe

def pipe : Machine Pipe PipeAct PipeEv where
  init := ⟨[], fun _ => none⟩
  step s
    | .write i fd data =>
      if (s.calls i).isSome then none
      else if 0 ≤ fd ∧ 0 < data.length then
        some ({ s with calls := Function.update s.calls i (some ⟨data, pieces data, 0⟩) }, [])
      else some (s, [.refused i])
    | .piece i taken => match s.calls i with
      | some ⟨data, piece :: rest, ret⟩ => match taken with
        | none => some (s.next i ⟨data, piece :: rest, ret⟩ rest (-1), [.failed i])
        | some n =>
          if AtOnce piece n then
            let s := { s with content := s.content ++ piece.take n }
            some (s.next i ⟨data, piece :: rest, ret⟩ rest n, [.wrote i (piece.take n)])
          else none
      | _ => none
    | .leave i => match s.calls i with
      | some ⟨data, [], ret⟩ => some ({ s with calls := Function.update s.calls i none }, [.returned i data ret])
      | _ => none
    | .read fd data got =>
      if 0 < fd then match got with
        | none => some (s, [.read (-1) []])
        | some n =>
          if n ≤ PIPE_BUF ∧ n ≤ s.content.length then
            some ({ s with content := s.content.drop n }, [.read n (s.content.take n)])
          else none
      else some (s, [.read (-1) data])

-- ---------------------------------------------------------------------------
-- What was written and read
-- ---------------------------------------------------------------------------

namespace PipeEv

@[simp]
def chunks : PipeEv → List (Nat × Bytes)
  | .wrote i piece => [(i, piece)]
  | _ => []

@[simp]
def chunksOf (i : Nat) : PipeEv → List Bytes
  | .wrote j piece => if j = i then [piece] else []
  | _ => []

@[simp]
def returns : PipeEv → List (Bytes × Int)
  | .returned _ data ret => [(data, ret)]
  | _ => []

@[simp]
def returnsOf (i : Nat) : PipeEv → List (Bytes × Int)
  | .returned j data ret => if j = i then [(data, ret)] else []
  | _ => []

@[simp]
def readData : PipeEv → Bytes
  | .read ret data => if 0 < ret then data else []
  | _ => []

end PipeEv

/-- A call that returned wrote some of its pieces, in order. It returned their size less one for
each of the others, which is the size of its data just when there are none. -/
structure Wrote (call : Bytes × Int) (part : List Bytes) : Prop where
  sublist : part.Sublist (pieces call.1)
  ret : call.2 = part.flatten.length - ((pieces call.1).length - part.length)
  whole : call.2 = call.1.length ↔ part = pieces call.1

/-- A call that has not returned wrote some of the pieces before `todo`. -/
def Writing : Option PipeCall → List Bytes → Prop
  | none, part => part = []
  | some c, part => ∃ tried, tried ++ c.todo = pieces c.data ∧ part.Sublist tried

def PipeAct.short : PipeAct → Bool
  | .write _ _ data => data.length ≤ PIPE_BUF
  | _ => true

-- ---------------------------------------------------------------------------
-- The pieces
-- ---------------------------------------------------------------------------

theorem length_of_mem_pieces {data : List α} (h : p ∈ pieces data) : p.length ≤ PIPE_BUF := by
  rcases List.mem_append.mp h with h | h
  · obtain ⟨i, -, rfl⟩ := List.mem_map.mp h
    exact List.length_take_le ..
  · split at h
    · rw [List.mem_singleton.mp h]
      exact Nat.le_trans (List.length_take_le ..) (Nat.le_of_lt (Nat.mod_lt _ (by decide)))
    · cases h

theorem pieces_map (f : α → β) (data : List α) :
    pieces (data.map f) = (pieces data).map (List.map f) := by
  simp only [pieces, List.length_map, List.map_append, List.map_map, apply_ite (List.map (List.map f)),
    List.map_cons, List.map_nil]
  congr 1
  · exact List.map_congr_left fun i _ => by simp [List.map_take, List.map_drop]
  · simp [List.map_take, List.map_drop]

theorem pieces_short {data : List α} (hpos : 0 < data.length) (h : data.length ≤ PIPE_BUF) :
    pieces data = [data] := by
  have hone : (pieces data).length = 1 := by
    rcases Nat.lt_or_eq_of_le h with hlt | heq
    · simp [pieces, Nat.div_eq_of_lt hlt, Nat.mod_eq_of_lt hlt, hpos]
    · simp [pieces, heq]
      decide
  obtain ⟨p, hp⟩ := List.length_eq_one_iff.mp hone
  have hflatten := flatten_pieces data
  rw [hp, List.flatten_singleton] at hflatten
  rw [hp, hflatten]

theorem sum_eq_iff {part ps : List Bytes} (h : part.Sublist ps) :
    (part.flatten.length - (ps.length - part.length) : Int) = ps.flatten.length ↔ part = ps := by
  constructor
  · intro heq
    have hbytes := h.flatten.length_le
    have hlength := h.length_le
    exact h.eq_of_length (by omega)
  · rintro rfl
    omega

-- ---------------------------------------------------------------------------
-- One step
-- ---------------------------------------------------------------------------

section

variable {s s' : Pipe} {tr es : List PipeEv}

inductive Tried (i : Nat) (piece : Bytes) : PipeEv → List Bytes → Int → Prop
  | failed : Tried i piece (.failed i) [] (-1)
  | wrote : Tried i piece (.wrote i piece) [piece] piece.length

inductive PipeStep (s s' : Pipe) (a : PipeAct) : List PipeEv → Prop
  | refused (i : Nat) (heq : s' = s) : PipeStep s s' a [.refused i]
  | called {i : Nat} {fd : Int} {data : Bytes} (hact : a = .write i fd data) (hfree : s.calls i = none)
      (hdata : 0 < data.length)
      (hcontent : s'.content = s.content)
      (hcalls : s'.calls = Function.update s.calls i (some ⟨data, pieces data, 0⟩)) : PipeStep s s' a []
  | tried {i : Nat} {c : PipeCall} {piece : Bytes} {rest part : List Bytes} {e : PipeEv} {n : Int}
      (hcall : s.calls i = some c) (htodo : c.todo = piece :: rest) (htried : Tried i piece e part n)
      (hcontent : s'.content = s.content ++ part.flatten)
      (hcalls : s'.calls = Function.update s.calls i (some { c with todo := rest, ret := c.ret + n })) :
      PipeStep s s' a [e]
  | left {i : Nat} {c : PipeCall} (hcall : s.calls i = some c) (htodo : c.todo = [])
      (hcontent : s'.content = s.content) (hcalls : s'.calls = Function.update s.calls i none) :
      PipeStep s s' a [.returned i c.data c.ret]
  | read {ret : Int} {data : Bytes} (hcontent : (PipeEv.read ret data).readData ++ s'.content = s.content)
      (hcalls : s'.calls = s.calls) : PipeStep s s' a [.read ret data]

def Cut (s : Pipe) : Prop := ∀ i c, s.calls i = some c → ∃ tried, tried ++ c.todo = pieces c.data

theorem Cut.fits (h : Cut s) (hcall : s.calls i = some c) (hp : p ∈ c.todo) : p.length ≤ PIPE_BUF := by
  obtain ⟨tried, heq⟩ := h i c hcall
  exact length_of_mem_pieces (heq ▸ List.mem_append_right _ hp)

theorem pipe_step (hcut : Cut s) (h : pipe.step s a = some (s', es)) : PipeStep s s' a es := by
  cases a with
  | write i fd data =>
    obtain ⟨hfree, h⟩ := Option.ite_none_left_eq_some.mp h
    split at h
    next hok =>
      cases h
      exact .called rfl (by simpa using hfree) hok.2 rfl rfl
    · cases h
      exact .refused i rfl
  | piece i taken =>
    simp only [pipe] at h
    split at h
    next data piece rest ret hcall =>
      split at h
      · cases h
        exact .tried hcall rfl .failed (List.append_nil _).symm rfl
      next n =>
        obtain ⟨⟨-, hwhole⟩, h⟩ := Option.ite_none_right_eq_some.mp h
        cases hwhole (hcut.fits hcall (.head _))
        cases h
        rw [List.take_length]
        exact .tried hcall rfl .wrote (by simp [Pipe.next]) rfl
    · cases h
  | leave i =>
    simp only [pipe] at h
    split at h
    next data ret hcall =>
      cases h
      exact .left hcall rfl rfl rfl
    · cases h
  | read fd data got =>
    simp only [pipe] at h
    split at h
    · split at h
      · cases h
        exact .read rfl rfl
      next n =>
        obtain ⟨-, h⟩ := Option.ite_none_right_eq_some.mp h
        cases h
        refine .read ?_ rfl
        rcases Nat.eq_zero_or_pos n with rfl | hn
        · rfl
        · rw [PipeEv.readData, if_pos (by omega), List.take_append_drop]
    · cases h
      exact .read rfl rfl

-- ---------------------------------------------------------------------------
-- A call alone
-- ---------------------------------------------------------------------------

def pieceActs (w : SysWrite) (i k : Nat) : List (List PlacedByte) → List PipeAct
  | [] => []
  | p :: ps =>
    .piece i (if w.ret k p.length = -1 then none else some (w.ret k p.length).toNat) :: pieceActs w i (k + 1) ps

/-- A piece that the kernel can write at once is written whole or not at all. -/
def Atomic (w : SysWrite) : Prop := ∀ k n, n ≤ PIPE_BUF → w.ret k n = -1 ∨ w.ret k n = n

theorem inPipe_cons (c : WriteCall) (cs : List WriteCall) : inPipe (c :: cs) = c.1.take c.2.toNat ++ inPipe cs := rfl

theorem piece_step {data piece : Bytes} {n : Int} (hcall : s.calls i = some ⟨data, piece :: rest, ret⟩)
    (hn : n = -1 ∨ n = piece.length) : ∃ e, PipeEv.returnsOf i e = [] ∧
      pipe.replay s [.piece i (if n = -1 then none else some n.toNat)] =
        some (Pipe.next { s with content := s.content ++ piece.take n.toNat } i ⟨data, piece :: rest, ret⟩ rest n,
          [e]) := by
  rcases hn with rfl | rfl
  · refine ⟨.failed i, rfl, ?_⟩
    simp [Machine.replay, pipe, hcall, Pipe.next]
  · refine ⟨.wrote i piece, rfl, ?_⟩
    have htaken : AtOnce piece piece.length := ⟨Nat.le_refl _, fun _ => rfl⟩
    have hsize : (piece.length : Int) ≠ -1 := by omega
    simp [Machine.replay, pipe, hcall, htaken, hsize]

theorem replay_pieceActs (hatomic : Atomic w) (hshort : ∀ p ∈ ps, p.length ≤ PIPE_BUF)
    (hcall : s.calls i = some ⟨data, ps.map (List.map Prod.fst), ret⟩) :
    ∃ s' tr, pipe.replay s (pieceActs w i k ps) = some (s', tr) ∧
      s'.content = s.content ++ (inPipe (callsFrom w k ps)).map Prod.fst ∧
      s'.calls i = some ⟨data, [], ret + ((callsFrom w k ps).map Prod.snd).sum⟩ ∧
      tr.flatMap (PipeEv.returnsOf i) = [] := by
  induction ps generalizing s k ret with
  | nil => exact ⟨s, [], rfl, by simp [callsFrom, inPipe], by simpa [callsFrom] using hcall, rfl⟩
  | cons p ps ih =>
    have hn : w.ret k p.length = -1 ∨ w.ret k p.length = (p.map Prod.fst).length := by
      rw [List.length_map]
      exact hatomic k _ (hshort p (.head _))
    obtain ⟨e, he, hstep⟩ := piece_step hcall hn
    have hcall' : (Pipe.next { s with content := s.content ++ (p.map Prod.fst).take (w.ret k p.length).toNat } i
        ⟨data, (p :: ps).map (List.map Prod.fst), ret⟩ (ps.map (List.map Prod.fst)) (w.ret k p.length)).calls i =
          some ⟨data, ps.map (List.map Prod.fst), ret + w.ret k p.length⟩ := Function.update_self ..
    obtain ⟨s', tr, hr, hcontent, hcalls, hreturns⟩ :=
      ih (k := k + 1) (fun q hq => hshort q (.tail _ hq)) hcall'
    refine ⟨s', [e] ++ tr, Machine.replay_append hstep hr, ?_, ?_, ?_⟩
    · rw [hcontent, callsFrom, inPipe_cons]
      simp [Pipe.next, List.map_take]
    · rw [hcalls, callsFrom, List.map_cons, List.sum_cons, Int.add_assoc]
    · rw [List.flatMap_append, List.flatMap_singleton, he, hreturns]
      rfl

/-- A call that nobody interrupts does what `SysPipe.write` does. -/
theorem write_alone (hatomic : Atomic w) (hok : 0 ≤ fd ∧ 0 < data.length) (hfree : s.calls i = none) :
    ∃ as s' tr, pipe.replay s (.write i fd data :: as) = some (s', tr) ∧
      s'.content = s.content ++ (inPipe (SysPipe.write w fd data).2).map Prod.fst ∧
      tr.flatMap (PipeEv.returnsOf i) = [(data, (SysPipe.write w fd data).1)] := by
  have hpieces : pieces data = (pieces data.zipIdx).map (List.map Prod.fst) := by
    rw [← pieces_map, List.zipIdx_map_fst]
  have hcall : ({ s with calls := Function.update s.calls i (some ⟨data, pieces data, 0⟩) } : Pipe).calls i =
      some ⟨data, (pieces data.zipIdx).map (List.map Prod.fst), 0⟩ := by
    rw [← hpieces]
    exact Function.update_self ..
  obtain ⟨s₁, tr, hr, hcontent, hcalls, hreturns⟩ := replay_pieceActs (k := 0) hatomic
    (fun p hp => length_of_mem_pieces hp) hcall
  have hwrite : pipe.replay s [.write i fd data] =
      some ({ s with calls := Function.update s.calls i (some ⟨data, pieces data, 0⟩) }, []) := by
    simp [Machine.replay, pipe, hfree, hok]
  have hleave : pipe.step s₁ (.leave i) = some ({ s₁ with calls := Function.update s₁.calls i none },
      [.returned i data (0 + ((callsFrom w 0 (pieces data.zipIdx)).map Prod.snd).sum)]) := by
    simp [pipe, hcalls]
  have hall := Machine.replay_snoc.mpr ⟨s₁, tr, _, hr, hleave, rfl⟩
  refine ⟨pieceActs w i 0 (pieces data.zipIdx) ++ [.leave i], _, _,
    Machine.replay_append hwrite hall, ?_, ?_⟩
  · rw [hcontent, write_eq ⟨hok.1, List.length_pos_iff.mp hok.2⟩]
    rfl
  · rw [List.nil_append, List.flatMap_append, hreturns, write_eq ⟨hok.1, List.length_pos_iff.mp hok.2⟩, Int.zero_add]
    simp [calls]

-- ---------------------------------------------------------------------------
-- One writer
-- ---------------------------------------------------------------------------

def InCall : Option PipeCall → List Bytes → Prop
  | none, part => part = []
  | some c, part => ∃ tried, tried ++ c.todo = pieces c.data ∧ part.Sublist tried ∧
      c.ret = part.flatten.length - (tried.length - part.length)

def WriterOk (i : Nat) (tr : List PipeEv) (s : Pipe) : Prop :=
  ∃ parts part, List.Forall₂ Wrote (tr.flatMap (PipeEv.returnsOf i)) parts ∧
    tr.flatMap (PipeEv.chunksOf i) = parts.flatten ++ part ∧ InCall (s.calls i) part

theorem cut_of_writers (h : ∀ i, WriterOk i tr s) : Cut s := by
  intro i c hcall
  obtain ⟨_, part, -, -, hin⟩ := h i
  rw [hcall] at hin
  obtain ⟨tried, heq, -, -⟩ := hin
  exact ⟨tried, heq⟩

theorem WriterOk.quiet (h : WriterOk i tr s) (hreturns : es.flatMap (PipeEv.returnsOf i) = [])
    (hchunks : es.flatMap (PipeEv.chunksOf i) = []) (hcalls : s'.calls i = s.calls i) :
    WriterOk i (tr ++ es) s' := by
  unfold WriterOk
  rwa [List.flatMap_append, List.flatMap_append, hreturns, hchunks, List.append_nil, List.append_nil, hcalls]

theorem WriterOk.tried (h : WriterOk i tr s) (hcall : s.calls i = some c) (htodo : c.todo = piece :: rest)
    (htried : Tried i piece e part n)
    (hcalls : s'.calls i = some { c with todo := rest, ret := c.ret + n }) : WriterOk i (tr ++ [e]) s' := by
  obtain ⟨parts, before, hreturns, hchunks, hin⟩ := h
  rw [hcall] at hin
  obtain ⟨tried, htried', hsub, hret⟩ := hin
  rw [htodo, List.append_cons] at htried'
  have hevent : e.returnsOf i = [] ∧ e.chunksOf i = part := by cases htried <;> simp
  refine ⟨parts, before ++ part, ?_, ?_, ?_⟩
  · rw [List.flatMap_append, List.flatMap_singleton, hevent.1, List.append_nil]
    exact hreturns
  · rw [List.flatMap_append, List.flatMap_singleton, hevent.2, hchunks, List.append_assoc]
  · rw [hcalls]
    refine ⟨tried ++ [piece], htried', ?_, ?_⟩
    · cases htried with
      | failed => simpa using hsub.trans (List.sublist_append_left ..)
      | wrote => exact hsub.append_right _
    · cases htried <;> simp [hret] <;> omega

theorem WriterOk.left (h : WriterOk i tr s) (hcall : s.calls i = some c) (htodo : c.todo = [])
    (hcalls : s'.calls i = none) : WriterOk i (tr ++ [.returned i c.data c.ret]) s' := by
  obtain ⟨parts, part, hreturns, hchunks, hin⟩ := h
  rw [hcall] at hin
  obtain ⟨tried, htried, hsub, hret⟩ := hin
  rw [htodo, List.append_nil] at htried
  subst htried
  refine ⟨parts ++ [part], [], ?_, by simpa using hchunks, hcalls ▸ rfl⟩
  rw [List.flatMap_append, List.flatMap_singleton, PipeEv.returnsOf, if_pos rfl]
  refine List.rel_append hreturns (.cons ⟨hsub, hret, ?_⟩ .nil)
  rw [hret, ← sum_eq_iff hsub, flatten_pieces]

theorem WriterOk.step (h : WriterOk i tr s) (hstep : PipeStep s s' a es) : WriterOk i (tr ++ es) s' := by
  cases hstep with
  | refused j heq => exact h.quiet rfl rfl (by rw [heq])
  | @called j fd data hact hfree hdata hcontent hcalls =>
    by_cases hij : i = j
    · subst hij
      obtain ⟨parts, part, hreturns, hchunks, hin⟩ := h
      rw [hfree] at hin
      cases hin
      refine ⟨parts, [], by simpa using hreturns, by simpa using hchunks, ?_⟩
      rw [hcalls, Function.update_self]
      exact ⟨[], rfl, .refl _, rfl⟩
    · exact h.quiet rfl rfl (by rw [hcalls, Function.update_of_ne hij])
  | @tried j c piece rest part e n hcall htodo htried hcontent hcalls =>
    by_cases hij : i = j
    · subst hij
      exact h.tried hcall htodo htried (by rw [hcalls, Function.update_self])
    · have hji : ¬j = i := fun heq => hij heq.symm
      refine h.quiet ?_ ?_ (by rw [hcalls, Function.update_of_ne hij])
      · cases htried <;> simp
      · cases htried <;> simp [hji]
  | @left j c hcall htodo hcontent hcalls =>
    by_cases hij : i = j
    · subst hij
      exact h.left hcall htodo (by rw [hcalls, Function.update_self])
    · have hji : ¬j = i := fun heq => hij heq.symm
      exact h.quiet (by simp [hji]) (by simp) (by rw [hcalls, Function.update_of_ne hij])
  | read hcontent hcalls => exact h.quiet rfl rfl (by rw [hcalls])

-- ---------------------------------------------------------------------------
-- The pipe
-- ---------------------------------------------------------------------------

def Streams (tr : List PipeEv) (s : Pipe) : Prop :=
  tr.flatMap PipeEv.readData ++ s.content = (tr.flatMap PipeEv.chunks).flatMap Prod.snd

theorem Streams.step (h : Streams tr s) (hstep : PipeStep s s' a es) : Streams (tr ++ es) s' := by
  unfold Streams at h ⊢
  rw [List.flatMap_append, List.flatMap_append, List.flatMap_append, ← h]
  cases hstep with
  | refused j heq => simp [heq]
  | called hact hfree hdata hcontent hcalls => simp [hcontent]
  | tried hcall htodo htried hcontent hcalls =>
    rw [hcontent]
    cases htried <;> simp
  | left hcall htodo hcontent hcalls => simp [hcontent]
  | read hcontent hcalls =>
    rw [← hcontent]
    simp

theorem pipe_run (h : pipe.RunIf ok tr s) : Streams tr s ∧ ∀ i, WriterOk i tr s := by
  refine h.invariant (I := fun tr s => Streams tr s ∧ ∀ i, WriterOk i tr s) ?_ ?_
  · exact ⟨rfl, fun i => ⟨[], [], .nil, rfl, rfl⟩⟩
  · intro tr s a s' es _ ⟨hstream, hwriters⟩ _ hs
    have hstep := pipe_step (cut_of_writers hwriters) hs
    exact ⟨hstream.step hstep, fun i => (hwriters i).step hstep⟩

end

theorem pipe_interleaves (h : pipe.Run tr s) :
    tr.flatMap PipeEv.readData ++ s.content = (tr.flatMap PipeEv.chunks).flatMap Prod.snd ∧
    ∀ i, ∃ parts part, List.Forall₂ Wrote (tr.flatMap (PipeEv.returnsOf i)) parts ∧
      tr.flatMap (PipeEv.chunksOf i) = parts.flatten ++ part ∧ Writing (s.calls i) part := by
  obtain ⟨hstream, hwriters⟩ := pipe_run h
  refine ⟨hstream, fun i => ?_⟩
  obtain ⟨parts, part, hreturns, hchunks, hin⟩ := hwriters i
  refine ⟨parts, part, hreturns, hchunks, ?_⟩
  cases hcall : s.calls i with
  | none =>
    rw [hcall] at hin
    exact hin
  | some c =>
    rw [hcall] at hin
    obtain ⟨tried, heq, hsub, -⟩ := hin
    exact ⟨tried, heq, hsub⟩

theorem pipe_interleaves_two : ∃ (tr : List PipeEv) (s : Pipe),
    tr.flatMap PipeEv.readData ++ s.content = [3, 1, 2] ∧
    tr.flatMap (PipeEv.returnsOf 0) = [([1, 2], 2)] ∧
    ∃ parts part, List.Forall₂ Wrote (tr.flatMap (PipeEv.returnsOf 0)) parts ∧
      tr.flatMap (PipeEv.chunksOf 0) = parts.flatten ++ part ∧ Writing (s.calls 0) part := by
  have hr : (pipe.replay pipe.init [.write 0 5 [1, 2], .write 1 5 [3], .piece 1 (some 1), .read 4 [] (some 1),
    .piece 0 (some 2), .leave 0]).isSome := rfl
  have hrun := Machine.steps_of_replay (Option.some_get hr).symm
  exact ⟨_, _, rfl, rfl, (pipe_interleaves hrun).2 0⟩

-- ---------------------------------------------------------------------------
-- Short messages
-- ---------------------------------------------------------------------------

def message (call : Bytes × Int) : List Bytes := if call.2 = call.1.length then [call.1] else []

structure ShortOk (tr : List PipeEv) (s : Pipe) : Prop where
  calls : ∀ i c, s.calls i = some c → pieces c.data = [c.data]
  returns : ∀ call ∈ tr.flatMap PipeEv.returns, pieces call.1 = [call.1]

section

variable {s s' : Pipe} {tr es : List PipeEv}

theorem ShortOk.step (h : ShortOk tr s) (hcut : Cut s) (ha : a.short = true)
    (hs : pipe.step s a = some (s', es)) : ShortOk (tr ++ es) s' := by
  have hquiet (hreturns : es.flatMap PipeEv.returns = []) :
      ∀ call ∈ (tr ++ es).flatMap PipeEv.returns, pieces call.1 = [call.1] := by
    rw [List.flatMap_append, hreturns, List.append_nil]
    exact h.returns
  cases pipe_step hcut hs with
  | refused i heq => exact ⟨heq ▸ h.calls, hquiet rfl⟩
  | @called i fd data hact hfree hdata hcontent hcalls =>
    refine ⟨fun j c hj => ?_, hquiet rfl⟩
    rw [hcalls] at hj
    by_cases hji : j = i
    · rw [hji, Function.update_self] at hj
      cases hj
      rw [hact, PipeAct.short, decide_eq_true_eq] at ha
      exact pieces_short hdata ha
    · rw [Function.update_of_ne hji] at hj
      exact h.calls j c hj
  | @tried i c piece rest part e n hcall htodo htried hcontent hcalls =>
    refine ⟨fun j c' hj => ?_, hquiet (by cases htried <;> rfl)⟩
    rw [hcalls] at hj
    by_cases hji : j = i
    · rw [hji, Function.update_self] at hj
      cases hj
      exact h.calls i c hcall
    · rw [Function.update_of_ne hji] at hj
      exact h.calls j c' hj
  | @left i c hcall htodo hcontent hcalls =>
    refine ⟨fun j c' hj => ?_, ?_⟩
    · rw [hcalls] at hj
      by_cases hji : j = i
      · rw [hji, Function.update_self] at hj
        cases hj
      · rw [Function.update_of_ne hji] at hj
        exact h.calls j c' hj
    · rw [List.flatMap_append]
      refine List.forall_mem_append.mpr ⟨h.returns, fun call hmem => ?_⟩
      cases List.mem_singleton.mp hmem
      exact h.calls i c hcall
  | read hcontent hcalls => exact ⟨hcalls ▸ h.calls, hquiet rfl⟩

theorem ShortOk.run (h : pipe.RunIf (fun _ a => a.short = true) tr s) : ShortOk tr s := by
  refine h.invariant (I := ShortOk) ⟨fun _ _ hcall => ?_, fun _ hcall => ?_⟩ ?_
  · cases hcall
  · cases hcall
  intro tr s a s' es hrun ih ha hs
  exact ih.step (cut_of_writers (pipe_run hrun).2) ha hs

end

theorem Wrote.short (h : Wrote call part) (hone : pieces call.1 = [call.1]) :
    part = message call ∧ (call.2 = call.1.length ∨ call.2 = -1) := by
  obtain ⟨hsub, hret, hwhole⟩ := h
  rw [hone] at hsub hret hwhole
  rcases List.sublist_singleton.mp hsub with rfl | rfl
  · have hfailed : call.2 = -1 := by simpa using hret
    refine ⟨?_, .inr hfailed⟩
    rw [message, if_neg (by omega)]
  · exact ⟨(if_pos (hwhole.mpr rfl)).symm, .inl (hwhole.mpr rfl)⟩

theorem InCall.short (h : InCall (some c) part) (hone : pieces c.data = [c.data]) : part = [] ∨ part = [c.data] := by
  obtain ⟨tried, heq, hsub, -⟩ := h
  have hall := hsub.trans (List.sublist_append_left tried c.todo)
  rw [heq, hone] at hall
  exact List.sublist_singleton.mp hall

theorem mem_returns_of_mem {tr : List PipeEv} (h : call ∈ tr.flatMap (PipeEv.returnsOf i)) : call ∈ tr.flatMap PipeEv.returns := by
  obtain ⟨e, he, hcall⟩ := List.mem_flatMap.mp h
  refine List.mem_flatMap.mpr ⟨e, he, ?_⟩
  cases e with
  | returned j data ret =>
    rw [PipeEv.returnsOf] at hcall
    split at hcall
    · exact hcall
    · cases hcall
  | _ => cases hcall

/-- Each writer's pieces are the messages of its calls that returned their size, in their order, and
the one of the call it is in, once that is written. A call that returned no size returned -1. -/
theorem pipe_messages_whole (h : pipe.RunIf (fun _ a => a.short = true) tr s) :
    tr.flatMap PipeEv.readData ++ s.content = (tr.flatMap PipeEv.chunks).flatMap Prod.snd ∧
    ∀ i, (∀ call ∈ tr.flatMap (PipeEv.returnsOf i), call.2 = call.1.length ∨ call.2 = -1) ∧
      ∃ part, tr.flatMap (PipeEv.chunksOf i) = (tr.flatMap (PipeEv.returnsOf i)).flatMap message ++ part ∧
        ∀ m ∈ part, part = [m] ∧ ∃ c, s.calls i = some c ∧ c.data = m := by
  obtain ⟨hstream, hwriters⟩ := pipe_run h
  refine ⟨hstream, fun i => ?_⟩
  have hshort := ShortOk.run h
  obtain ⟨parts, part, hreturns, hchunks, hin⟩ := hwriters i
  have hone : ∀ call ∈ tr.flatMap (PipeEv.returnsOf i), pieces call.1 = [call.1] :=
    fun call hcall => hshort.returns call (mem_returns_of_mem hcall)
  have hparts : parts = (tr.flatMap (PipeEv.returnsOf i)).map message ∧
      ∀ call ∈ tr.flatMap (PipeEv.returnsOf i), call.2 = call.1.length ∨ call.2 = -1 := by
    clear hchunks
    generalize tr.flatMap (PipeEv.returnsOf i) = calls at hreturns hone
    induction hreturns with
    | nil => exact ⟨rfl, nofun⟩
    | cons hwrote _ ih =>
      obtain ⟨rfl, hret⟩ := hwrote.short (hone _ (.head _))
      obtain ⟨rfl, hrest⟩ := ih fun call hcall => hone call (.tail _ hcall)
      exact ⟨rfl, List.forall_mem_cons.mpr ⟨hret, hrest⟩⟩
  refine ⟨hparts.2, part, ?_, ?_⟩
  · rw [hchunks, hparts.1, ← List.flatMap_def]
  · intro m hm
    cases hcall : s.calls i with
    | none =>
      rw [hcall] at hin
      cases hin
      cases hm
    | some c =>
      rw [hcall] at hin
      rcases hin.short (hshort.calls i c hcall) with rfl | rfl
      · cases hm
      · cases List.mem_singleton.mp hm
        exact ⟨rfl, c, rfl, rfl⟩

theorem pipe_messages_whole_two : ∃ (tr : List PipeEv) (s : Pipe),
    tr.flatMap PipeEv.readData ++ s.content = [1, 2, 3] ∧ tr.flatMap PipeEv.returns = [([3], 1)] ∧
    tr.flatMap PipeEv.readData ++ s.content = (tr.flatMap PipeEv.chunks).flatMap Prod.snd := by
  have hr : ((pipe.only fun _ a => a.short = true).replay pipe.init [.write 0 5 [1, 2], .write 1 5 [3],
    .piece 0 (some 2), .piece 1 (some 1), .read 4 [] (some 1), .leave 1]).isSome := rfl
  have hrun := Machine.steps_of_replay_only (Option.some_get hr).symm
  exact ⟨_, _, rfl, rfl, (pipe_messages_whole hrun).1⟩

end Andren.Base
