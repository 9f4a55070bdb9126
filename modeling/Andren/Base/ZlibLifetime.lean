import Andren.Base.ZlibStream
import Andren.Machine.Basic
import Andren.Machine.Trace

/-!
# When zlib is called

The two classes call zlib between the initialisation of their stream and its end,
which `m_valid` stands for. `compress` tests it alone; `decompress` refuses a call only
if its string is empty too, so any other string goes to `inflate`, whether or not there
is a stream. Just without such calls zlib is used while it is alive, and what comes
outside is refused (`zlib_used_alive_iff`).
-/

namespace Andren.Base

open Machines

inductive ZClass
  | compress
  | decompress
  deriving DecidableEq

inductive ZEv
  /-- `deflateInit` or `inflateInit`. -/
  | init (ok : Bool)
  /-- `deflate` or `inflate`. -/
  | run
  /-- `deflateEnd` or `inflateEnd`. -/
  | close
  | returned (ret : Int)
  | finished (data : Bytes)
  deriving DecidableEq

/-- An object, between two calls of zlib. -/
inductive ZLife (σ : Type u)
  | unborn
  | idle (x : ZStreamPrivate σ)
  /-- In the loop of `compress` or `decompress`. -/
  | feeding (x : ZStreamPrivate σ)
  /-- In the loop of `finished`, which the destructor calls too. -/
  | finishing (x : ZStreamPrivate σ) (destroying : Bool)
  | destroyed

inductive ZAct
  | construct
  /-- `compress` or `decompress`. -/
  | call (data : Bytes)
  | finished
  | destroy
  /-- A pass of the loop that the object is in. -/
  | pass

namespace ZClass

def refuses : ZClass → ZStreamPrivate σ → Bytes → Bool
  | .compress, x, _ => !x.m_valid
  | .decompress, x, data => !x.m_valid && data.length ≤ 0

def body (z : ZFunctions σ) : ZClass → ZStreamPrivate σ → ZStreamPrivate σ ⊕ (Int × ZStreamPrivate σ)
  | .compress => ZStreamCompressPrivate.compressBody z
  | .decompress => ZStreamDecompressPrivate.decompressBody z

end ZClass

namespace ZLife

def done (x : ZStreamPrivate σ) : Bool → ZLife σ
  | false => .idle x
  | true => .destroyed

def finish (cls : ZClass) (z : ZFunctions σ) (x : ZStreamPrivate σ) (destroying : Bool) :
    ZLife σ × List ZEv :=
  if !x.m_valid then (done x destroying, [.finished []])
  else match cls with
    | .compress => (.finishing x destroying, [])
    | .decompress =>
      let (data, x) := ZStreamDecompressPrivate.finished z x
      (done x destroying, [.run, .close, .finished data])

end ZLife

def zStream (cls : ZClass) (z : ZFunctions σ) (CHUNK_SIZE : UInt32) : Machine (ZLife σ) ZAct ZEv where
  init := .unborn
  step
    | .unborn, .construct => some (.idle (.new z CHUNK_SIZE), [.init (z.init.2 == Z_OK)])
    | .idle x, .call data =>
      if cls.refuses x data then some (.idle x, [.returned (-1)]) else some (.feeding (x.setInput data), [])
    | .idle x, .finished => some (ZLife.finish cls z x false)
    | .idle x, .destroy => some (ZLife.finish cls z x true)
    | .feeding x, .pass => match cls.body z x with
      | .inl x' => some (.feeding x', [.run])
      | .inr (ret, x') =>
        some (.idle x', (if x.stream.next_in.length > 0 then [.run] else []) ++ [.returned ret])
    | .finishing x destroying, .pass => match ZStreamCompressPrivate.finishedBody z x with
      | .inl x' => some (.finishing x' destroying, [.run])
      | .inr x' =>
        let (stream, _) := z.close x'.stream
        some (ZLife.done { x' with stream, m_data := [], m_valid := false } destroying,
          [.run, .close, .finished x'.m_data])
    | _, _ => none

def Alive (tr : List ZEv) : Prop := .init true ∈ tr ∧ .close ∉ tr

/-- The condition on a call of `decompress`: there is a stream, or no string. -/
def guarded (cls : ZClass) : ZLife σ → ZAct → Bool
  | .idle x, .call data => cls = .compress || x.m_valid || data.isEmpty
  | _, _ => true

abbrev Guarded (cls : ZClass) (s : ZLife σ) (a : ZAct) : Prop := guarded cls s a = true

/-- In the run of `as`, which shows `tr` and ends in `s`, zlib is called on streams that
are alive; one that was initialised is ended once; and each call to which there is no
stream returns -1 and changes nothing. -/
structure UsedAlive (cls : ZClass) (z : ZFunctions σ) (CHUNK_SIZE : UInt32) (as : List ZAct) (tr : List ZEv)
    (s : ZLife σ) : Prop where
  run : Always (fun t e => e = .run → Alive t) tr
  close : Always (fun t e => e = .close → Alive t) tr
  once : tr.count .close ≤ 1
  ended : s = .destroyed → (.close ∈ tr ↔ .init true ∈ tr)
  refused : ∀ tr' s' data, (zStream cls z CHUNK_SIZE).Takes as tr' s' (.call data) → ¬Alive tr' →
    (zStream cls z CHUNK_SIZE).step s' (.call data) = some (s', [.returned (-1)])

section

variable {cls : ZClass} {z : ZFunctions σ} {x x' : ZStreamPrivate σ} {tr : List ZEv}

open ZStreamPrivate

-- ---------------------------------------------------------------------------
-- The account of a trace
-- ---------------------------------------------------------------------------

structure AliveSoFar (tr : List ZEv) : Prop where
  run : Always (fun t e => e = .run → Alive t) tr
  close : Always (fun t e => e = .close → Alive t) tr
  once : tr.count .close ≤ 1
  init : .close ∈ tr → .init true ∈ tr

def ZEv.quiet : ZEv → Bool
  | .returned _ | .finished _ => true
  | _ => false

theorem alive_concat_quiet (he : ZEv.quiet e = true) : Alive (tr ++ [e]) ↔ Alive tr := by
  cases e <;> simp [Alive, ZEv.quiet] at he ⊢

theorem AliveSoFar.quiet (h : AliveSoFar tr) (he : ZEv.quiet e = true) : AliveSoFar (tr ++ [e]) := by
  refine ⟨h.run.snoc ?_, h.close.snoc ?_, ?_, ?_⟩
  · rintro rfl
    cases he
  · rintro rfl
    cases he
  · have hcount : List.count ZEv.close [e] = 0 := List.count_eq_zero.mpr (by rintro (_ | ⟨_, ⟨⟩⟩); cases he)
    rw [List.count_append, hcount]
    exact h.once
  · intro hclose
    have hmem := (List.mem_append.mp hclose).resolve_right (by rintro (_ | ⟨_, ⟨⟩⟩); cases he)
    exact List.mem_append_left _ (h.init hmem)

theorem AliveSoFar.runs (h : AliveSoFar tr) (ha : Alive tr) :
    AliveSoFar (tr ++ [.run]) ∧ Alive (tr ++ [.run]) := by
  refine ⟨⟨h.run.snoc fun _ => ha, h.close.snoc nofun, ?_, fun hclose => ?_⟩, ?_⟩
  · rw [List.count_append]
    exact h.once
  · exact List.mem_append_left _ ha.1
  · exact ⟨List.mem_append_left _ ha.1, fun hclose => ha.2 (by simpa using hclose)⟩

theorem AliveSoFar.closes (h : AliveSoFar tr) (ha : Alive tr) :
    AliveSoFar (tr ++ [.close]) ∧ ¬Alive (tr ++ [.close]) := by
  refine ⟨⟨h.run.snoc nofun, h.close.snoc fun _ => ha, ?_, fun _ => ?_⟩, fun ha' => ha'.2 (by simp)⟩
  · rw [List.count_append, List.count_eq_zero.mpr ha.2]
    exact Nat.le_refl _
  · exact List.mem_append_left _ ha.1

theorem AliveSoFar.ends (h : AliveSoFar tr) (ha : Alive tr) (data : Bytes) :
    AliveSoFar (tr ++ [.run, .close, .finished data]) ∧ ¬Alive (tr ++ [.run, .close, .finished data]) := by
  obtain ⟨hrun, ha⟩ := h.runs ha
  obtain ⟨hclose, ha⟩ := hrun.closes ha
  have hsplit : tr ++ [.run, .close, .finished data] = tr ++ [.run] ++ [.close] ++ [.finished data] := by simp
  rw [hsplit, alive_concat_quiet rfl]
  exact ⟨hclose.quiet rfl, ha⟩

-- ---------------------------------------------------------------------------
-- What a step does
-- ---------------------------------------------------------------------------

theorem feedBody_valid (fails : Int → Bool) (h : feedBody z fails x = r) :
    r.elim m_valid (fun left => left.2.m_valid) = x.m_valid := by
  subst h
  unfold feedBody
  split
  · simp only
    split <;> rfl
  · rfl

theorem body_valid (h : cls.body z x = r) : r.elim m_valid (fun left => left.2.m_valid) = x.m_valid := by
  cases cls with
  | compress =>
    unfold ZClass.body ZStreamCompressPrivate.compressBody at h
    exact feedBody_valid _ h
  | decompress =>
    unfold ZClass.body ZStreamDecompressPrivate.decompressBody at h
    exact feedBody_valid _ h

theorem finishedBody_valid (h : ZStreamCompressPrivate.finishedBody z x = .inl x') : x'.m_valid = x.m_valid := by
  unfold ZStreamCompressPrivate.finishedBody at h
  simp only at h
  split at h
  · cases h
    rfl
  · cases h

def ZLife.Ok (tr : List ZEv) : ZLife σ → Prop
  | .unborn => tr = []
  | .idle x => x.m_valid = true ↔ Alive tr
  | .feeding x => x.m_valid = true ∧ Alive tr
  | .finishing x _ => x.m_valid = true ∧ Alive tr
  | .destroyed => ¬Alive tr

theorem ok_done (hvalid : x.m_valid = false) (ha : ¬Alive tr) (destroying : Bool) :
    (ZLife.done x destroying).Ok tr := by
  cases destroying with
  | false => exact iff_of_false (ne_true_of_eq_false hvalid) ha
  | true => exact ha

theorem finish_ok (h : AliveSoFar tr) (hok : x.m_valid = true ↔ Alive tr) (cls : ZClass) (z : ZFunctions σ)
    (destroying : Bool) : AliveSoFar (tr ++ (ZLife.finish cls z x destroying).2) ∧
      (ZLife.finish cls z x destroying).1.Ok (tr ++ (ZLife.finish cls z x destroying).2) := by
  unfold ZLife.finish
  cases hvalid : x.m_valid with
  | false =>
    rw [Bool.not_false, if_pos rfl]
    refine ⟨h.quiet rfl, ok_done hvalid ?_ destroying⟩
    rw [alive_concat_quiet rfl, ← hok, hvalid]
    exact Bool.false_ne_true
  | true =>
    rw [Bool.not_true, if_neg Bool.false_ne_true]
    have ha := hok.mp hvalid
    cases cls with
    | compress =>
      rw [List.append_nil]
      exact ⟨h, hvalid, ha⟩
    | decompress =>
      obtain ⟨hends, hdead⟩ := h.ends ha (ZStreamDecompressPrivate.finished z x).1
      refine ⟨hends, ok_done ?_ hdead destroying⟩
      simp only [ZStreamDecompressPrivate.finished, hvalid, Bool.not_true, Bool.false_eq_true, if_false]
      split <;> rfl

theorem refuses_iff (cls : ZClass) (x : ZStreamPrivate σ) (data : Bytes) :
    cls.refuses x data = true ↔ x.m_valid = false ∧ (cls = .compress ∨ data = []) := by
  cases cls <;> cases hvalid : x.m_valid <;> simp [ZClass.refuses, hvalid]

theorem guarded_invalid_iff (hinvalid : x.m_valid = false) (data : Bytes) :
    Guarded cls (.idle x) (.call data) ↔ cls = .compress ∨ data = [] := by
  simp [Guarded, guarded, hinvalid]

theorem call_ok (h : AliveSoFar tr) (hok : x.m_valid = true ↔ Alive tr)
    (hguard : Guarded cls (.idle x) (.call data))
    (hs : (zStream cls z CHUNK_SIZE).step (.idle x) (.call data) = some (s', es)) :
    AliveSoFar (tr ++ es) ∧ s'.Ok (tr ++ es) := by
  simp only [zStream] at hs
  split at hs
  · cases hs
    refine ⟨h.quiet rfl, hok.trans (alive_concat_quiet rfl).symm⟩
  next hpass =>
    cases hs
    rw [List.append_nil]
    have hvalid : x.m_valid = true := by
      by_contra hne
      have hinvalid := eq_false_of_ne_true hne
      exact hpass ((refuses_iff cls x data).mpr ⟨hinvalid, (guarded_invalid_iff hinvalid data).mp hguard⟩)
    exact ⟨h, hvalid, hok.mp hvalid⟩

theorem zStream_step (h : AliveSoFar tr) (hok : s.Ok tr) (hguard : Guarded cls s a)
    (hs : (zStream cls z CHUNK_SIZE).step s a = some (s', es)) : AliveSoFar (tr ++ es) ∧ s'.Ok (tr ++ es) := by
  cases s with
  | unborn =>
    cases a with
    | construct =>
      cases hs
      subst hok
      refine ⟨⟨always_nil.snoc nofun, always_nil.snoc nofun, ?_, ?_⟩, ?_⟩
      · simp
      · simp
      · simp [ZLife.Ok, Alive, ZStreamPrivate.new]
    | _ => cases hs
  | idle x =>
    cases a with
    | call data => exact call_ok h hok hguard hs
    | finished =>
      have hfinish := finish_ok h hok cls z false
      rwa [show ZLife.finish cls z x false = (s', es) from Option.some.inj hs] at hfinish
    | destroy =>
      have hfinish := finish_ok h hok cls z true
      rwa [show ZLife.finish cls z x true = (s', es) from Option.some.inj hs] at hfinish
    | _ => cases hs
  | feeding x =>
    cases a with
    | pass =>
      obtain ⟨hvalid, ha⟩ := hok
      obtain ⟨hrun, ha'⟩ := h.runs ha
      simp only [zStream] at hs
      split at hs
      next x' hbody =>
        cases hs
        exact ⟨hrun, (body_valid hbody).trans hvalid, ha'⟩
      next ret x' hbody =>
        cases hs
        have hvalid' := (body_valid hbody).trans hvalid
        split
        · rw [← List.append_assoc]
          exact ⟨hrun.quiet rfl, iff_of_true hvalid' ((alive_concat_quiet rfl).mpr ha')⟩
        · exact ⟨h.quiet rfl, iff_of_true hvalid' ((alive_concat_quiet rfl).mpr ha)⟩
    | _ => cases hs
  | finishing x destroying =>
    cases a with
    | pass =>
      obtain ⟨hvalid, ha⟩ := hok
      simp only [zStream] at hs
      split at hs
      next x' hbody =>
        cases hs
        obtain ⟨hrun, ha'⟩ := h.runs ha
        exact ⟨hrun, (finishedBody_valid hbody).trans hvalid, ha'⟩
      next x' hbody =>
        cases hs
        obtain ⟨hends, hdead⟩ := h.ends ha x'.m_data
        exact ⟨hends, ok_done rfl hdead destroying⟩
    | _ => cases hs
  | destroyed => cases a <;> cases hs

-- ---------------------------------------------------------------------------
-- The functions of the classes
-- ---------------------------------------------------------------------------

theorem compress_eq (z : ZFunctions σ) (fuel : Nat) (x : ZStreamPrivate σ) (data : Bytes) :
    ZStreamCompressPrivate.compress z fuel x data = if ZClass.refuses .compress x data then some (-1, x)
      else loop (ZClass.body z .compress) fuel (x.setInput data) := by
  rw [ZStreamCompressPrivate.compress]
  exact if_congr (by simp [ZClass.refuses]) rfl rfl

theorem decompress_eq (z : ZFunctions σ) (fuel : Nat) (x : ZStreamPrivate σ) (data : Bytes) :
    ZStreamDecompressPrivate.decompress z fuel x data = if ZClass.refuses .decompress x data then some (-1, x)
      else loop (ZClass.body z .decompress) fuel (x.setInput data) := by
  rw [ZStreamDecompressPrivate.decompress]
  exact if_congr (by simp [ZClass.refuses]) rfl rfl

theorem steps_of_call (h : (if cls.refuses x data then some (-1, x)
      else loop (cls.body z) fuel (x.setInput data)) = some (ret, x')) :
    ∃ tr, (zStream cls z CHUNK_SIZE).Steps Machine.anyStep (.idle x) tr (.idle x') := by
  cases hrefuses : cls.refuses x data with
  | true =>
    rw [hrefuses, if_pos rfl] at h
    cases h
    have hcall : (zStream cls z CHUNK_SIZE).step (.idle x) (.call data) = some (.idle x, [.returned (-1)]) :=
      if_pos hrefuses
    exact ⟨_, .one trivial hcall⟩
  | false =>
    rw [hrefuses, if_neg Bool.false_ne_true] at h
    have hcall : (zStream cls z CHUNK_SIZE).step (.idle x) (.call data) = some (.feeding (x.setInput data), []) :=
      if_neg (ne_true_of_eq_false hrefuses)
    have hgo : ∀ s s', cls.body z s = .inl s' →
        ∃ es, (zStream cls z CHUNK_SIZE).step (.feeding s) .pass = some (.feeding s', es) := by
      intro s s' hbody
      exact ⟨[.run], by simp only [zStream, hbody]⟩
    have hleave : ∀ s r, cls.body z s = .inr r →
        ∃ es, (zStream cls z CHUNK_SIZE).step (.feeding s) .pass = some (.idle r.2, es) := by
      rintro s ⟨ret, s'⟩ hbody
      exact ⟨_, by simp only [zStream, hbody]; rfl⟩
    obtain ⟨tr, hpasses⟩ := steps_of_loop (cls.body z) (f := ZLife.feeding)
      (g := fun r => ZLife.idle r.2) hgo hleave h
    exact ⟨_, (Machine.Steps.one trivial hcall).trans hpasses⟩

theorem steps_of_compress (h : ZStreamCompressPrivate.compress z fuel x data = some (ret, x')) :
    ∃ tr, (zStream .compress z CHUNK_SIZE).Steps Machine.anyStep (.idle x) tr (.idle x') :=
  steps_of_call ((compress_eq z fuel x data).symm.trans h)

theorem steps_of_decompress (h : ZStreamDecompressPrivate.decompress z fuel x data = some (ret, x')) :
    ∃ tr, (zStream .decompress z CHUNK_SIZE).Steps Machine.anyStep (.idle x) tr (.idle x') :=
  steps_of_call ((decompress_eq z fuel x data).symm.trans h)

theorem steps_of_finished (h : ZStreamCompressPrivate.finished z fuel x = some (data, x')) :
    ∃ tr, (zStream .compress z CHUNK_SIZE).Steps Machine.anyStep (.idle x) tr (.idle x') := by
  unfold ZStreamCompressPrivate.finished at h
  cases hvalid : x.m_valid with
  | false =>
    rw [hvalid, Bool.not_false, if_pos rfl] at h
    cases h
    have hend : (zStream .compress z CHUNK_SIZE).step (.idle x) .finished = some (.idle x, [.finished []]) := by
      simp only [zStream, ZLife.finish, hvalid, Bool.not_false, if_true, ZLife.done]
    exact ⟨_, .one trivial hend⟩
  | true =>
    rw [hvalid, Bool.not_true, if_neg Bool.false_ne_true] at h
    obtain ⟨x₁, hloop, h⟩ := Option.bind_eq_some_iff.mp h
    cases h
    have hstart : (zStream .compress z CHUNK_SIZE).step (.idle x) .finished = some (.finishing x false, []) := by
      simp only [zStream, ZLife.finish, hvalid, Bool.not_true, Bool.false_eq_true, if_false]
    have hgo : ∀ s s', ZStreamCompressPrivate.finishedBody z s = .inl s' →
        ∃ es, (zStream .compress z CHUNK_SIZE).step (.finishing s false) .pass =
          some (.finishing s' false, es) := by
      intro s s' hbody
      exact ⟨[.run], by simp only [zStream, hbody]⟩
    have hleave : ∀ s s', ZStreamCompressPrivate.finishedBody z s = .inr s' →
        ∃ es, (zStream .compress z CHUNK_SIZE).step (.finishing s false) .pass =
          some (.idle { s' with stream := (z.close s'.stream).1, m_data := [], m_valid := false }, es) := by
      intro s s' hbody
      exact ⟨[.run, .close, .finished s'.m_data], by simp only [zStream, hbody, ZLife.done]⟩
    obtain ⟨tr, hpasses⟩ := steps_of_loop (ZStreamCompressPrivate.finishedBody z)
      (f := fun s => ZLife.finishing s false)
      (g := fun s' => ZLife.idle { s' with stream := (z.close s'.stream).1, m_data := [], m_valid := false })
      hgo hleave hloop
    exact ⟨_, (Machine.Steps.one trivial hstart).trans hpasses⟩

theorem refused_iff (hinvalid : x.m_valid = false) (data : Bytes) :
    (zStream cls z CHUNK_SIZE).step (.idle x) (.call data) = some (.idle x, [.returned (-1)]) ↔
      Guarded cls (.idle x) (.call data) := by
  have hguarded : Guarded cls (.idle x) (.call data) ↔ cls.refuses x data = true := by
    rw [refuses_iff, guarded_invalid_iff hinvalid, and_iff_right hinvalid]
  rw [hguarded]
  simp only [zStream]
  split
  next hrefused => exact iff_of_true rfl hrefused
  next hrefused => exact iff_of_false nofun hrefused

/-- While all that is done is guarded, `m_valid` tells whether the stream is alive. -/
theorem aliveSoFar_of_guarded (h : (zStream cls z CHUNK_SIZE).replay .unborn as = some (s, tr))
    (hguard : ∀ tr' s' a, (zStream cls z CHUNK_SIZE).Takes as tr' s' a → Guarded cls s' a) :
    AliveSoFar tr ∧ s.Ok tr := by
  have hrun : (zStream cls z CHUNK_SIZE).RunIf (Guarded cls) tr s := Machine.runIf_of_takes h hguard
  refine hrun.invariant (I := fun tr s => AliveSoFar tr ∧ s.Ok tr) ?_ ?_
  · exact ⟨⟨always_nil, always_nil, Nat.zero_le _, nofun⟩, rfl⟩
  · rintro tr s a s' es _ ⟨hsofar, hok⟩ hguard hs
    exact zStream_step hsofar hok hguard hs

theorem idle_of_call (hs : (zStream cls z CHUNK_SIZE).step s (.call data) = some (s', es)) :
    ∃ x, s = .idle x := by
  cases s with
  | idle x => exact ⟨x, rfl⟩
  | _ => cases hs

theorem guarded_of_refused (h : (zStream cls z CHUNK_SIZE).replay .unborn as = some (s, tr))
    (hrefused : ∀ tr' s' data, (zStream cls z CHUNK_SIZE).Takes as tr' s' (.call data) → ¬Alive tr' →
      (zStream cls z CHUNK_SIZE).step s' (.call data) = some (s', [.returned (-1)])) :
    ∀ tr' s' a, (zStream cls z CHUNK_SIZE).Takes as tr' s' a → Guarded cls s' a := by
  induction as using List.reverseRecOn generalizing s tr with
  | nil => exact fun tr' s' a htakes => absurd htakes Machine.not_takes_nil
  | append_singleton as b ih =>
    obtain ⟨s₁, tr₁, es, hr, hs, rfl⟩ := Machine.replay_snoc.mp h
    have hbefore := ih hr fun tr' s' data htakes => hrefused tr' s' data (Machine.takes_snoc.mpr (.inl htakes))
    intro tr' s' a htakes
    rcases Machine.takes_snoc.mp htakes with htakes' | ⟨rfl, hr'⟩
    · exact hbefore tr' s' a htakes'
    · cases hr.symm.trans hr'
      cases a with
      | call data =>
        obtain ⟨x, rfl⟩ := idle_of_call hs
        by_cases hvalid : x.m_valid = true
        · simp [Guarded, guarded, hvalid]
        · have hdead : ¬Alive tr₁ := mt (aliveSoFar_of_guarded hr hbefore).2.mpr hvalid
          exact (refused_iff (eq_false_of_ne_true hvalid) data).mp (hrefused tr₁ _ data htakes hdead)
      | _ => cases s₁ <;> rfl

end

/-- For both classes, in every order of calls, with every behaviour of zlib. -/
theorem zlib_used_alive_iff (cls : ZClass) (z : ZFunctions σ) (CHUNK_SIZE : UInt32) (as : List ZAct)
    (tr : List ZEv) (s : ZLife σ) (h : (zStream cls z CHUNK_SIZE).replay .unborn as = some (s, tr)) :
    UsedAlive cls z CHUNK_SIZE as tr s ↔
      ∀ tr' s' a, (zStream cls z CHUNK_SIZE).Takes as tr' s' a → Guarded cls s' a := by
  refine ⟨fun hused => guarded_of_refused h hused.refused, fun hguard => ?_⟩
  obtain ⟨hsofar, hok⟩ := aliveSoFar_of_guarded h hguard
  refine ⟨hsofar.run, hsofar.close, hsofar.once, ?_, ?_⟩
  · rintro rfl
    refine ⟨hsofar.init, fun hinit => ?_⟩
    by_contra hclose
    exact hok ⟨hinit, hclose⟩
  · intro tr' s' data htakes hdead
    obtain ⟨before, hr, hearlier⟩ := htakes.before
    obtain ⟨_, _, hs⟩ := htakes.enabled h
    obtain ⟨x, rfl⟩ := idle_of_call hs
    have hok' := (aliveSoFar_of_guarded hr fun tr' s' a h => hguard tr' s' a (hearlier h)).2
    exact (refused_iff (eq_false_of_ne_true (mt hok'.mp hdead)) data).mpr (hguard tr' _ _ htakes)

theorem zlib_used_alive_decompress : ∃ tr s,
    (zStream .decompress Stored.inflate 4).replay .unborn
      [.construct, .call [0x78, 0x9c, 0x03, 0x00, 0x00, 0x00, 0x00, 0x01], .pass, .pass, .finished, .call [],
        .destroy] = some (s, tr) ∧
      tr = [.init true, .run, .returned 0, .run, .close, .finished [], .returned (-1), .finished []] ∧
      UsedAlive .decompress Stored.inflate 4
        [.construct, .call [0x78, 0x9c, 0x03, 0x00, 0x00, 0x00, 0x00, 0x01], .pass, .pass, .finished, .call [],
          .destroy] tr s := by
  have hr : (((zStream .decompress Stored.inflate 4).only (Guarded .decompress)).replay .unborn
      [.construct, .call [0x78, 0x9c, 0x03, 0x00, 0x00, 0x00, 0x00, 0x01], .pass, .pass, .finished, .call [],
        .destroy]).isSome := rfl
  obtain ⟨hreplay, hguard⟩ := Machine.takes_of_replay_only (Option.some_get hr).symm
  exact ⟨_, _, hreplay, rfl, (zlib_used_alive_iff _ _ _ _ _ _ hreplay).mpr hguard⟩

/-- A string is passed to `decompress` after `finished`: `inflate` is called on a stream
that was ended. -/
theorem zlib_used_dead : ∃ tr s,
    (zStream .decompress Stored.inflate 4).replay .unborn [.construct, .finished, .call [0x78], .pass] =
        some (s, tr) ∧
      tr = [.init true, .run, .close, .finished [], .run] ∧
      ¬UsedAlive .decompress Stored.inflate 4 [.construct, .finished, .call [0x78], .pass] tr s := by
  have hr : ((zStream .decompress Stored.inflate 4).replay .unborn
      [.construct, .finished, .call [0x78], .pass]).isSome := rfl
  refine ⟨_, _, (Option.some_get hr).symm, rfl, fun h => ?_⟩
  exact absurd (h.run [.init true, .run, .close, .finished []] .run [] rfl rfl).2 (by decide)

end Andren.Base
