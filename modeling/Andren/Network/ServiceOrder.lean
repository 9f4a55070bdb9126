import Andren.Network.EventLoop
import Mathlib.Data.List.Induction

/-!
# The order in which operations take effect

An operation on the registry takes effect when its closure runs, a `delService`
when it erases: that is after its callback, which may itself call the loop. The
trace tells which deletes are under way and what has taken effect (`progress`).

A client's operations take effect in the order of its program, in place or
through a queue (`ClientOrder`). A call that a client makes inside the callback
of its own `delService` comes before that delete's end.
-/

namespace Andren.Network

open Machines Base

/-- An operation whose closure has begun; `nth` is its number among the calls of
its client for the key. -/
structure Operation where
  thread : Nat
  c : Caller
  nth : Nat
  op : ServiceOp

/-- The deletes under way, the innermost first, and the operations that took
effect, in that order. -/
structure Progress where
  running : List Operation
  done : List Operation

section

variable {n : BitVec 32}

def Progress.of (p : Progress) (c : Caller) : List Operation :=
  (p.done ++ p.running).filter fun r => r.c = c

def Progress.begin (p : Progress) (r : Operation) : Progress :=
  match r.op with
  | .delService .. => { p with running := r :: p.running }
  | _ => { p with done := p.done ++ [r] }

def Progress.end (p : Progress) : Progress :=
  match p.running with
  | r :: running => ⟨running, p.done ++ [r]⟩
  | [] => p

def Progress.note (key : BitVec 64) (p : Progress) : LoopEv n → Progress
  | .begun i c op _ => if op.key = key then p.begin ⟨i, c, (p.of c).length, op⟩ else p
  | .erased _ service_key => if service_key = key then p.end else p
  | _ => p

def progress (key : BitVec 64) (tr : List (LoopEv n)) : Progress :=
  tr.foldl (Progress.note key) ⟨[], []⟩

def tookEffect (c : Caller) (key : BitVec 64) (tr : List (LoopEv n)) : List Operation :=
  (progress key tr).done.filter fun r => r.c = c

def inside (c : Caller) (key : BitVec 64) (tr : List (LoopEv n)) : List Operation :=
  (progress key tr).running.filter fun r => r.c = c ∧ c = .worker r.thread

def ServiceOp.writes : ServiceOp → Option (Option EventsService)
  | .addService service | .modService service => some (some service)
  | .delService .. => some none
  | .findService _ => none

def latest (ops : List ServiceOp) : Option EventsService := (ops.filterMap ServiceOp.writes).getLast?.join

/-- What a run `tr` and its continuation `tr'` show of a client's order. -/
structure ClientOrder (c : Caller) (key : BitVec 64) (tr tr' : List (LoopEv n)) (s : EventLoop n) : Prop where
  /-- The closures of its calls begin in the order of the calls. -/
  begins : begun c key (tr ++ tr') <+: calls c key (tr ++ tr')
  /-- A call that returned in `tr` takes effect before one made in `tr'`. -/
  order : ∀ m m', m < (calls c key tr).length → m ∉ (inside c key tr).map Operation.nth →
    (calls c key tr).length ≤ m' → m' ∈ (tookEffect c key (tr ++ tr')).map Operation.nth →
    [m, m'].Sublist ((tookEffect c key (tr ++ tr')).map Operation.nth)
  /-- Without calls inside its own deletes, its operations take effect in the
  order of its calls. -/
  plain : (∀ t op t', tr ++ tr' = t ++ .called c op :: t' → op.key = key → inside c key t = []) →
    (tookEffect c key (tr ++ tr')).map Operation.op <+: calls c key (tr ++ tr')
  /-- What took effect is what the registries hold. -/
  content : ∃ home, ∀ j, (s.m_pdata j)[key.toInt]? =
    if j = home then latest ((progress key (tr ++ tr')).done.map Operation.op) else none
  /-- A find receives what the client's own operations left, if no other client
  has called to change the key. -/
  found : ∀ t j res t', tr ++ tr' = t ++ .begun j c (.findService key) res :: t' →
    (∀ c' op, .called c' op ∈ t → op.key = key → op.writes ≠ none → c' = c) →
    res = latest ((tookEffect c key t).map Operation.op)

-- ---------------------------------------------------------------------------
-- Orderly traces
-- ---------------------------------------------------------------------------

/-- An event after `t`: a closure for `key` begins on the thread `home` and was
called, by that thread itself just now, else outside any delete; what is erased
ends a delete. -/
def OrderlyEv (key : BitVec 64) (home : Fin n.toNat) (t : List (LoopEv n)) : LoopEv n → Prop
  | .begun i c op _ => op.key = key → i = home ∧ .called c op ∈ t ∧
      (c = .worker home → t.getLast? = some (.called c op)) ∧
      (c ≠ .worker home → (progress key t).running = [])
  | .erased _ service_key => service_key = key → (progress key t).running ≠ []
  | _ => True

def Orderly (key : BitVec 64) (home : Fin n.toNat) (tr : List (LoopEv n)) : Prop :=
  ∀ t e t', tr = t ++ e :: t' → OrderlyEv key home t e

variable {key : BitVec 64} {home : Fin n.toNat} {tr : List (LoopEv n)} {s s' : EventLoop n}

theorem orderly_nil : Orderly key home ([] : List (LoopEv n)) := always_nil

theorem Orderly.snoc (h : Orderly key home tr) (he : OrderlyEv key home tr e) : Orderly key home (tr ++ [e]) :=
  Always.snoc h he

theorem Orderly.left (h : Orderly key home (tr ++ tr')) : Orderly key home tr := Always.left h

theorem Orderly.last (h : Orderly key home (tr ++ [e])) : OrderlyEv key home tr e := Always.last h

theorem Orderly.induction {P : List (LoopEv n) → Prop} (h : Orderly key home tr) (hnil : P [])
    (hsnoc : ∀ t e, Orderly key home t → OrderlyEv key home t e → P t → P (t ++ [e])) : P tr := by
  induction tr using List.reverseRecOn with
  | nil => exact hnil
  | append_singleton t e ih => exact hsnoc t e h.left h.last (ih h.left)

@[simp] theorem progress_snoc (key : BitVec 64) (tr : List (LoopEv n)) (e : LoopEv n) :
    progress key (tr ++ [e]) = (progress key tr).note key e := by
  simp [progress]

inductive Notes (key : BitVec 64) (p : Progress) : LoopEv n → Progress → Prop
  | other : LoopEv.effect key e = none → (∀ c, begun c key [e] = []) → Notes key p e p
  | takes (i : Fin n.toNat) (c : Caller) (op : ServiceOp) (res : Option EventsService) : op.key = key →
      (∀ before, op ≠ .delService key before) →
      Notes key p (.begun i c op res) { p with done := p.done ++ [⟨i, c, (p.of c).length, op⟩] }
  | starts (i : Fin n.toNat) (c : Caller) (op : ServiceOp) (res : Option EventsService) : op.key = key →
      (∃ before, op = .delService key before) →
      Notes key p (.begun i c op res) { p with running := ⟨i, c, (p.of c).length, op⟩ :: p.running }
  | ends (i : Fin n.toNat) : p.running = r :: running → Notes key p (.erased i key) ⟨running, p.done ++ [r]⟩

theorem orderly_notes (h : OrderlyEv key home tr e) :
    Notes key (progress key tr) e (progress key (tr ++ [e])) := by
  rw [progress_snoc]
  cases e with
  | refused c => exact .other rfl fun _ => rfl
  | called c op => exact .other rfl fun _ => rfl
  | begun i c op res =>
    by_cases hkey : op.key = key
    · cases op with
      | delService service_key before =>
        cases hkey
        rw [Progress.note, if_pos rfl]
        exact .starts i c _ res rfl ⟨before, rfl⟩
      | _ =>
        rw [Progress.note, if_pos hkey]
        exact .takes i c _ res hkey nofun
    · rw [Progress.note, if_neg hkey]
      exact .other (by simp [LoopEv.effect, hkey]) fun c' => by simp [begun, hkey]
  | erased i service_key =>
    by_cases hkey : service_key = key
    · subst hkey
      obtain ⟨r, running, hrunning⟩ := List.exists_cons_of_ne_nil (h rfl)
      rw [Progress.note, if_pos rfl, Progress.end, hrunning]
      exact .ends i hrunning
    · rw [Progress.note, if_neg hkey]
      exact .other (by simp [LoopEv.effect, hkey]) fun _ => rfl

-- ---------------------------------------------------------------------------
-- What the progress tells
-- ---------------------------------------------------------------------------

theorem begun_one (i : Fin n.toNat) (c c' : Caller) (hkey : op.key = key) (res : Option EventsService) :
    begun c' key [(.begun i c op res : LoopEv n)] = if c = c' then [op] else [] := by
  by_cases hc : c = c' <;> simp [begun, hc, hkey]

theorem Orderly.running (h : Orderly key home tr) : ∀ r ∈ (progress key tr).running,
    r.thread = home ∧ ∃ before, r.op = .delService key before := by
  refine h.induction (P := fun tr => ∀ r ∈ (progress key tr).running,
    r.thread = home ∧ ∃ before, r.op = .delService key before) nofun ?_
  rintro t e - he ih
  generalize hp : progress key (t ++ [e]) = p
  have hnotes := orderly_notes he
  rw [hp] at hnotes
  cases hnotes with
  | other => exact ih
  | takes => exact ih
  | starts i c op res hkey hdel =>
    rintro r (_ | ⟨_, hr⟩)
    · exact ⟨congrArg Fin.val (he hkey).1, hdel⟩
    · exact ih r hr
  | ends i hrunning =>
    intro r hr
    exact ih r (hrunning ▸ .tail _ hr)

/-- What the closures wrote is what the operations that took effect write. -/
theorem Orderly.effects (h : Orderly key home tr) :
    effects key tr = (progress key tr).done.filterMap fun r => r.op.writes := by
  refine h.induction (P := fun tr => Andren.Network.effects key tr =
    (progress key tr).done.filterMap fun r => r.op.writes) rfl ?_
  intro t e ht he ih
  have hsnoc : Andren.Network.effects key (t ++ [e]) =
      Andren.Network.effects key t ++ (LoopEv.effect key e).toList := by
    rw [Andren.Network.effects, List.filterMap_append]
    cases heffect : LoopEv.effect key e <;> simp [Andren.Network.effects, heffect]
  rw [hsnoc, ih]
  generalize hp : progress key (t ++ [e]) = p
  have hnotes := orderly_notes he
  rw [hp] at hnotes
  cases hnotes with
  | other heffect => simp [heffect]
  | takes i c op res hkey hdel =>
    cases op with
    | delService service_key before =>
      cases hkey
      exact (hdel before rfl).elim
    | _ => simp [LoopEv.effect, hkey, ServiceOp.stores, ServiceOp.writes]
  | starts i c op res hkey hdel =>
    obtain ⟨before, rfl⟩ := hdel
    simp [LoopEv.effect, ServiceOp.stores]
  | @ends r running i hrunning =>
    obtain ⟨-, before, hop⟩ := ht.running r (hrunning ▸ .head _)
    simp [LoopEv.effect, hop, ServiceOp.writes]

theorem Orderly.lastEffect (h : Orderly key home tr) :
    lastEffect key tr = latest ((progress key tr).done.map Operation.op) := by
  rw [Andren.Network.lastEffect, h.effects, latest, List.filterMap_map]
  rfl

theorem Orderly.numbered (h : Orderly key home tr) (c : Caller) :
    (((progress key tr).of c).map Operation.nth).Perm (List.range (begun c key tr).length) := by
  refine h.induction (P := fun tr =>
    (((progress key tr).of c).map Operation.nth).Perm (List.range (begun c key tr).length)) .nil ?_
  rintro t e - he ih
  rw [begun_append]
  have hlength : ((progress key t).of c).length = (begun c key t).length := by
    simpa using ih.length_eq
  generalize hp : progress key (t ++ [e]) = p
  have hnotes := orderly_notes he
  rw [hp] at hnotes
  have hnew (i : Nat) (c' : Caller) (op : ServiceOp) (l : List Operation)
      (hl : l.Perm (⟨i, c', ((progress key t).of c').length, op⟩ ::
        ((progress key t).done ++ (progress key t).running))) :
      ((l.filter fun r => r.c = c).map Operation.nth).Perm
        (List.range (begun c key t ++ if c' = c then [op] else []).length) := by
    refine ((hl.filter _).map _).trans ?_
    by_cases hc : c' = c
    · subst hc
      simp only [decide_true, List.filter_cons_of_pos, List.map_cons, if_pos, List.length_append,
        List.length_singleton, List.range_succ, hlength]
      exact (List.Perm.cons _ ih).trans (List.perm_append_singleton _ _).symm
    · simp only [hc, decide_false, if_false, List.append_nil, Bool.false_eq_true, not_false_eq_true,
        List.filter_cons_of_neg]
      exact ih
  cases hnotes with
  | other _ hbegun =>
    rw [hbegun, List.append_nil]
    exact ih
  | takes i c' op res hkey hdel =>
    rw [begun_one i c' c hkey res]
    refine hnew i c' op _ ?_
    rw [List.append_assoc]
    exact List.perm_middle
  | starts i c' op res hkey hdel =>
    rw [begun_one i c' c hkey res]
    exact hnew i c' _ _ List.perm_middle
  | @ends r running i hrunning =>
    simp only [begun, Progress.of, hrunning, List.filterMap_cons, List.filterMap_nil, List.append_nil,
      List.append_assoc, List.singleton_append] at ih ⊢
    exact ih

theorem note_done (key : BitVec 64) (p : Progress) (e : LoopEv n) : ∃ d, (p.note key e).done = p.done ++ d := by
  cases e with
  | begun i c op res =>
    simp only [Progress.note, Progress.begin]
    split
    · split
      · exact ⟨[], (List.append_nil _).symm⟩
      · exact ⟨_, rfl⟩
    · exact ⟨[], (List.append_nil _).symm⟩
  | erased i service_key =>
    simp only [Progress.note, Progress.end]
    split
    · split
      · exact ⟨_, rfl⟩
      · exact ⟨[], (List.append_nil _).symm⟩
    · exact ⟨[], (List.append_nil _).symm⟩
  | _ => exact ⟨[], (List.append_nil _).symm⟩

theorem progress_done (key : BitVec 64) (tr tr' : List (LoopEv n)) :
    ∃ d, (progress key (tr ++ tr')).done = (progress key tr).done ++ d := by
  induction tr' using List.reverseRecOn with
  | nil => exact ⟨[], by simp⟩
  | append_singleton t e ih =>
    obtain ⟨d, hd⟩ := ih
    obtain ⟨d', hd'⟩ := note_done key (progress key (tr ++ t)) e
    refine ⟨d ++ d', ?_⟩
    rw [← List.append_assoc, progress_snoc, hd', hd, List.append_assoc]

def Apart (c : Caller) (key : BitVec 64) (tr : List (LoopEv n)) : Prop :=
  ∀ t i op res t', tr = t ++ .begun i c op res :: t' → op.key = key → ∀ r ∈ (progress key t).running, r.c ≠ c

theorem Apart.left (h : Apart c key (tr ++ tr')) : Apart c key tr := by
  rintro t i op res t' rfl
  exact h t i op res (t' ++ tr') (by simp)

def Progress.ordered (p : Progress) (c : Caller) : List Operation :=
  p.done.filter (fun r => r.c = c) ++ (p.running.filter fun r => r.c = c).reverse

theorem Orderly.ordered (h : Orderly key home tr) (hapart : Apart c key tr) :
    ((progress key tr).running.filter fun r => r.c = c).length ≤ 1 ∧
      ((progress key tr).ordered c).map Operation.op = begun c key tr ∧
      ((progress key tr).ordered c).map Operation.nth = List.range (begun c key tr).length := by
  revert hapart
  refine h.induction (P := fun tr => Apart c key tr →
    ((progress key tr).running.filter fun r => r.c = c).length ≤ 1 ∧
      ((progress key tr).ordered c).map Operation.op = begun c key tr ∧
      ((progress key tr).ordered c).map Operation.nth = List.range (begun c key tr).length)
    (fun _ => ⟨Nat.zero_le 1, rfl, rfl⟩) ?_
  intro t e ht he ih hapart
  obtain ⟨hone, hops, hnths⟩ := ih hapart.left
  have hlength : ((progress key t).of c).length = (begun c key t).length := by
    simpa using (ht.numbered c).length_eq
  rw [begun_append]
  generalize hp : progress key (t ++ [e]) = p
  have hnotes := orderly_notes he
  rw [hp] at hnotes
  cases hnotes with
  | other _ hbegun =>
    rw [hbegun, List.append_nil]
    exact ⟨hone, hops, hnths⟩
  | takes i c' op res hkey hdel =>
    rw [begun_one i c' c hkey res]
    by_cases hc : c' = c
    · subst hc
      have hnone : (progress key t).running.filter (fun r => r.c = c') = [] := by
        simpa using hapart t i op res [] rfl hkey
      simp only [Progress.ordered, hnone, List.reverse_nil, List.append_nil] at hops hnths
      simp only [Progress.ordered, List.filter_append, hnone, List.reverse_nil, List.append_nil,
        List.map_append, hops, hnths, if_pos, List.length_append, List.length_singleton, List.range_succ]
      simp [hlength]
    · rw [if_neg hc, List.append_nil]
      simp only [Progress.ordered, List.filter_append, List.filter_cons, decide_eq_true_eq, if_neg hc,
        List.filter_nil, List.append_nil] at hops hnths ⊢
      exact ⟨hone, hops, hnths⟩
  | starts i c' op res hkey hdel =>
    rw [begun_one i c' c hkey res]
    by_cases hc : c' = c
    · subst hc
      have hnone : (progress key t).running.filter (fun r => r.c = c') = [] := by
        simpa using hapart t i op res [] rfl hkey
      simp only [Progress.ordered, hnone, List.reverse_nil, List.append_nil] at hops hnths
      simp only [Progress.ordered, decide_true, List.filter_cons_of_pos, hnone, List.reverse_singleton,
        List.map_append, hops, hnths, if_pos, List.length_append, List.length_singleton, List.range_succ]
      simp [hlength]
    · rw [if_neg hc, List.append_nil]
      simp only [Progress.ordered, List.filter_cons, decide_eq_true_eq, if_neg hc] at hops hnths ⊢
      exact ⟨hone, hops, hnths⟩
  | @ends r running i hrunning =>
    rw [show begun c key [(.erased i key : LoopEv n)] = [] from rfl, List.append_nil]
    simp only [Progress.ordered, hrunning] at hone hops hnths ⊢
    by_cases hc : r.c = c
    · have hnone : running.filter (fun r => r.c = c) = [] := by
        simpa [hc] using hone
      simp only [List.filter_append, List.filter_cons, hc, hnone, decide_true, if_true,
        List.filter_nil, List.reverse_singleton, List.reverse_nil, List.append_nil] at hops hnths ⊢
      exact ⟨Nat.zero_le 1, hops, hnths⟩
    · simp only [List.filter_append, List.filter_cons, decide_eq_true_eq, if_neg hc, List.filter_nil,
        List.append_nil] at hone hops hnths ⊢
      exact ⟨hone, hops, hnths⟩

theorem Orderly.apart (h : Orderly key home tr) (hc : c ≠ .worker home) : Apart c key tr := by
  rintro t i op res t' heq hkey r hr
  rw [(h t _ t' heq hkey).2.2.2 hc] at hr
  cases hr

/-- A thread that calls for its own keys begins at once. -/
theorem Orderly.apart_of_plain (h : Orderly key home tr)
    (hplain : ∀ t op t', tr = t ++ .called c op :: t' → op.key = key → inside c key t = []) :
    Apart c key tr := by
  by_cases hc : c = .worker home
  · rintro t i op res t' heq hkey r hr hrc
    have hlast := (h t _ t' heq hkey).2.2.1 hc
    obtain ⟨t₀, rfl⟩ := List.getLast?_eq_some_iff.mp hlast
    have ht₀ : Orderly key home (t₀ ++ [.called c op]) := by
      rw [heq] at h
      exact h.left
    have hsame : progress key (t₀ ++ [.called c op]) = progress key t₀ := by
      rw [progress_snoc]
      rfl
    have hinside : r ∈ inside c key t₀ := by
      rw [inside, ← hsame, List.mem_filter]
      exact ⟨hr, by simp [hrc, hc, (ht₀.running r hr).1]⟩
    rw [hplain t₀ op (.begun i c op res :: t') (by simp [heq]) hkey] at hinside
    cases hinside
  · exact h.apart hc

theorem tookEffect_prefix {p : Progress} :
    ((p.done.filter fun r => r.c = c).map f) <+: (p.ordered c).map f := by
  rw [Progress.ordered, List.map_append]
  exact List.prefix_append _ _

theorem Orderly.took_prefix (h : Orderly key home tr) (hapart : Apart c key tr) :
    (tookEffect c key tr).map Operation.op <+: begun c key tr := by
  obtain ⟨-, hops, -⟩ := h.ordered hapart
  rw [← hops]
  exact tookEffect_prefix

theorem pair_sublist {ms : List Nat} (h : ms <+: List.range k) (hlt : m < m') (hm' : m' ∈ ms) :
    [m, m'].Sublist ms := by
  obtain ⟨rest, hrest⟩ := h
  obtain ⟨l₁, l₂, rfl⟩ := List.append_of_mem hm'
  have hrange : l₁ ++ m' :: (l₂ ++ rest) = List.range k := by rw [← hrest]; simp
  have hsorted := hrange ▸ List.pairwise_lt_range (n := k)
  have hmem : m ∈ l₁ ++ m' :: (l₂ ++ rest) := by
    rw [hrange, List.mem_range]
    have hk : m' ∈ List.range k := by rw [← hrange]; simp
    exact hlt.trans (List.mem_range.mp hk)
  have hl₁ : m ∈ l₁ := by
    rcases List.mem_append.mp hmem with hl₁ | hrest'
    · exact hl₁
    · rcases List.mem_cons.mp hrest' with rfl | hafter
      · exact absurd hlt (Nat.lt_irrefl _)
      · have hgt := (List.pairwise_cons.mp (List.pairwise_append.mp hsorted).2.1).1 m hafter
        exact absurd hlt (Nat.lt_asymm hgt)
  exact (List.singleton_sublist.mpr hl₁).append (List.singleton_sublist.mpr (.head l₂))

theorem Orderly.order (h : Orderly key home (tr ++ tr')) (hown : c = .worker home → begun c key tr = calls c key tr)
    (hcalls : (begun c key tr).length ≤ (calls c key tr).length) (hm : m < (calls c key tr).length)
    (hinside : m ∉ (inside c key tr).map Operation.nth) (hm' : (calls c key tr).length ≤ m')
    (hmem : m' ∈ (tookEffect c key (tr ++ tr')).map Operation.nth) :
    [m, m'].Sublist ((tookEffect c key (tr ++ tr')).map Operation.nth) := by
  by_cases hc : c = .worker home
  · have hnumbered := h.left.numbered c
    have hbegun : m ∈ ((progress key tr).of c).map Operation.nth := by
      rw [hnumbered.mem_iff, List.mem_range, hown hc]
      exact hm
    have htook : m ∈ (tookEffect c key tr).map Operation.nth := by
      obtain ⟨r, hr, hnth⟩ := List.mem_map.mp hbegun
      rw [Progress.of, List.filter_append, List.mem_append] at hr
      rcases hr with hdone | hrunning
      · exact List.mem_map.mpr ⟨r, hdone, hnth⟩
      · obtain ⟨hrunning, hrc⟩ := List.mem_filter.mp hrunning
        refine absurd (List.mem_map.mpr ⟨r, List.mem_filter.mpr ⟨hrunning, ?_⟩, hnth⟩) hinside
        rw [decide_eq_true_eq] at hrc ⊢
        exact ⟨hrc, by rw [hc, (h.left.running r hrunning).1]⟩
    obtain ⟨d, hd⟩ := progress_done key tr tr'
    rw [tookEffect, hd, List.filter_append, List.map_append] at hmem ⊢
    rcases List.mem_append.mp hmem with hold | hnew
    · -- what took effect in `tr` was called there
      have hlt : m' ∈ List.range (begun c key tr).length := by
        rw [← hnumbered.mem_iff, Progress.of, List.filter_append, List.map_append]
        exact List.mem_append_left _ hold
      exact absurd ((List.mem_range.mp hlt).trans_le hcalls) (Nat.not_lt.mpr hm')
    · exact (List.singleton_sublist.mpr htook).append (List.singleton_sublist.mpr hnew)
  · obtain ⟨-, -, hnths⟩ := h.ordered (h.apart hc)
    refine pair_sublist (hnths ▸ tookEffect_prefix) (hm.trans_le hm') hmem

theorem Orderly.alone (h : Orderly key home tr)
    (halone : ∀ c' op, .called c' op ∈ tr → op.key = key → op.writes ≠ none → c' = c) :
    latest ((progress key tr).done.map Operation.op) = latest ((tookEffect c key tr).map Operation.op) := by
  have hcalled : ∀ r ∈ (progress key tr).done ++ (progress key tr).running,
      r.op.key = key ∧ .called r.c r.op ∈ tr := by
    refine h.induction (P := fun tr => ∀ r ∈ (progress key tr).done ++ (progress key tr).running,
      r.op.key = key ∧ .called r.c r.op ∈ tr) nofun ?_
    rintro t e - he ih
    have hold : ∀ r ∈ (progress key t).done ++ (progress key t).running,
        r.op.key = key ∧ .called r.c r.op ∈ t ++ [e] := fun r hr =>
      ⟨(ih r hr).1, List.mem_append_left _ (ih r hr).2⟩
    generalize hp : progress key (t ++ [e]) = p
    have hnotes := orderly_notes he
    rw [hp] at hnotes
    cases hnotes with
    | other => exact hold
    | takes i c' op res hkey hdel =>
      intro r hr
      simp only [List.mem_append, List.mem_singleton] at hr
      rcases hr with (hr | rfl) | hr
      · exact hold r (List.mem_append_left _ hr)
      · exact ⟨hkey, List.mem_append_left _ (he hkey).2.1⟩
      · exact hold r (List.mem_append_right _ hr)
    | starts i c' op res hkey hdel =>
      intro r hr
      simp only [List.mem_append, List.mem_cons] at hr
      rcases hr with hr | rfl | hr
      · exact hold r (List.mem_append_left _ hr)
      · exact ⟨hkey, List.mem_append_left _ (he hkey).2.1⟩
      · exact hold r (List.mem_append_right _ hr)
    | ends i hrunning =>
      intro r hr
      rw [List.append_assoc] at hr
      exact hold r (hrunning ▸ hr)
  simp only [latest, tookEffect, List.filterMap_map, List.filterMap_filter]
  congr 2
  apply List.filterMap_congr
  intro r hr
  obtain ⟨hkey, hmem⟩ := hcalled r (List.mem_append_left _ hr)
  cases hwrites : r.op.writes with
  | none => simp [hwrites]
  | some v => simp [hwrites, halone r.c r.op hmem hkey (by simp [hwrites])]

-- ---------------------------------------------------------------------------
-- Runs
-- ---------------------------------------------------------------------------

def LoopTask.deletes (key : BitVec 64) : LoopTask → Option Caller
  | .config c (.delService service_key true) => if service_key = key then some c else none
  | _ => none

structure Tracks (key : BitVec 64) (home : Fin n.toNat) (tr : List (LoopEv n)) (s : EventLoop n) : Prop where
  orderly : Orderly key home tr
  running : (progress key tr).running.map Operation.c = (s.m_exec.frames home).filterMap (LoopTask.deletes key)
  home : ∀ k, ∀ t ∈ s.m_exec.frames k, t.deletes key ≠ none → k = home.val

theorem orderlyEv_erased_ne (hkey : service_key ≠ key) (i : Fin n.toNat) :
    OrderlyEv key home tr (.erased i service_key) := fun h => (hkey h).elim

theorem progress_erased_ne (hkey : service_key ≠ key) (i : Fin n.toNat) :
    progress key (tr ++ [.erased i service_key]) = progress key tr := by
  rw [progress_snoc, Progress.note, if_neg hkey]

theorem progress_erased (hrunning : (progress key tr).running = r :: running) (i : Fin n.toNat) :
    progress key (tr ++ [.erased i key]) = ⟨running, (progress key tr).done ++ [r]⟩ := by
  rw [progress_snoc, Progress.note, if_pos rfl, Progress.end, hrunning]

theorem progress_begun_del {i : Fin n.toNat} {res : Option EventsService} :
    (progress key (tr ++ [.begun i c (.delService key before) res])).running =
      ⟨i, c, ((progress key tr).of c).length, .delService key before⟩ :: (progress key tr).running := by
  rw [progress_snoc]
  exact congrArg Progress.running (if_pos rfl)

theorem progress_begun_ne {i : Fin n.toNat} {res : Option EventsService} (hkey : service_key ≠ key) :
    progress key (tr ++ [.begun i c (.delService service_key before) res]) = progress key tr := by
  rw [progress_snoc]
  exact if_neg hkey

theorem Orderly.beginTask {t : LoopTask} (h : Orderly key home tr)
    (hhome : ∀ op : ServiceOp, op.key = key → EventLoop.slot n op = some home)
    (hev : ∀ c op res, t = .config c op → op.key = key → OrderlyEv key home tr (.begun home c op res))
    (hs : s.beginTask t = some (s', es)) : Orderly key home (tr ++ es) ∧
      (progress key (tr ++ es)).running.map Operation.c =
        (t.deletes key).toList ++ (progress key tr).running.map Operation.c := by
  cases t with
  | processEvents =>
    cases hs
    rw [List.append_nil]
    exact ⟨h, rfl⟩
  | config c op =>
    obtain ⟨i, hi, hruns⟩ := beginOp_runs hs
    have hbegun (res : Option EventsService) : OrderlyEv key home tr (.begun i c op res) := by
      intro hkey
      obtain rfl := Option.some.inj (hi.symm.trans (hhome op hkey))
      exact hev c op res rfl hkey hkey
    cases hruns with
    | adds | mods | finds =>
      refine ⟨h.snoc (hbegun _), ?_⟩
      rw [progress_snoc, Progress.note]
      split <;> rfl
    | @calls service_key service =>
      refine ⟨h.snoc (hbegun _), ?_⟩
      by_cases hkey : service_key = key
      · subst hkey
        rw [progress_begun_del]
        simp [LoopTask.deletes]
      · rw [progress_begun_ne hkey, LoopTask.deletes, if_neg hkey]
        rfl
    | @deletes service_key service =>
      rw [List.append_cons]
      by_cases hkey : service_key = key
      · subst hkey
        refine ⟨(h.snoc (hbegun _)).snoc ?_, ?_⟩
        · intro _ hnil
          rw [progress_begun_del] at hnil
          cases hnil
        · rw [progress_erased progress_begun_del]
          rfl
      · refine ⟨(h.snoc (hbegun _)).snoc (orderlyEv_erased_ne hkey i), ?_⟩
        rw [progress_erased_ne hkey, progress_begun_ne hkey]
        rfl

theorem Orderly.endTask {t : LoopTask} (h : Orderly key home tr)
    (hrunning : (progress key tr).running.map Operation.c = (t.deletes key).toList ++ cs)
    (hs : s.endTask t = some (s', es)) : Orderly key home (tr ++ es) ∧
      (progress key (tr ++ es)).running.map Operation.c = cs := by
  have hsame (hdel : t.deletes key = none) (hes : es = []) : Orderly key home (tr ++ es) ∧
      (progress key (tr ++ es)).running.map Operation.c = cs := by
    rw [hdel] at hrunning
    rw [hes, List.append_nil]
    exact ⟨h, hrunning⟩
  obtain ⟨c, service_key, i, iters, rfl, -, rfl, rfl⟩ | ⟨hno, rfl, rfl⟩ := endTask_cases hs
  · by_cases hkey : service_key = key
    · subst hkey
      rw [LoopTask.deletes, if_pos rfl] at hrunning
      obtain ⟨r, running, heq, -, hcs⟩ := List.map_eq_cons_iff.mp hrunning
      refine ⟨h.snoc fun _ hnil => ?_, ?_⟩
      · rw [heq] at hnil
        cases hnil
      · rw [progress_erased heq]
        exact hcs
    · rw [LoopTask.deletes, if_neg hkey] at hrunning
      refine ⟨h.snoc (orderlyEv_erased_ne hkey i), ?_⟩
      rw [progress_erased_ne hkey]
      exact hrunning
  · refine hsame ?_ rfl
    unfold LoopTask.deletes
    split
    · rename_i c service_key
      exact (hno c service_key rfl).elim
    · rfl

theorem Tracks.push {t : LoopTask} (h : Tracks key home tr s) (horderly : Orderly key home tr')
    (hrunning : (progress key tr').running.map Operation.c =
      (t.deletes key).toList ++ (progress key tr).running.map Operation.c)
    (hframes : s'.m_exec.frames = Function.update s.m_exec.frames k (t :: s.m_exec.frames k))
    (hk : t.deletes key ≠ none → k = home.val) : Tracks key home tr' s' := by
  refine ⟨horderly, ?_, ?_⟩
  · rw [hrunning, h.running, hframes]
    by_cases heq : k = home.val
    · subst heq
      rw [Function.update_self, List.filterMap_cons]
      cases t.deletes key <;> rfl
    · rw [Function.update_of_ne (Ne.symm heq)]
      cases hdel : t.deletes key with
      | none => rfl
      | some c => exact (heq (hk (by simp [hdel]))).elim
  · intro j t' ht' hdel
    rw [hframes] at ht'
    rcases eq_or_ne j k with rfl | hne
    · rw [Function.update_self] at ht'
      rcases List.mem_cons.mp ht' with rfl | ht'
      · exact hk hdel
      · exact h.home j t' ht' hdel
    · rw [Function.update_of_ne hne] at ht'
      exact h.home j t' ht' hdel

theorem Tracks.quiet (h : Tracks key home tr s) (hframes : s'.m_exec.frames = s.m_exec.frames)
    (hes : ∀ e ∈ es, ∀ tr, OrderlyEv key home tr e ∧ progress key (tr ++ [e]) = progress key tr) :
    Tracks key home (tr ++ es) s' := by
  have hall : Orderly key home (tr ++ es) ∧ progress key (tr ++ es) = progress key tr := by
    clear * - h hes
    induction es using List.reverseRecOn with
    | nil => simpa using h.orderly
    | append_singleton es e ih =>
      obtain ⟨horderly, hsame⟩ := ih fun e' he' => hes e' (List.mem_append_left _ he')
      obtain ⟨he, hsame'⟩ := hes e (by simp) (tr ++ es)
      rw [← List.append_assoc]
      exact ⟨horderly.snoc he, hsame'.trans hsame⟩
  refine ⟨hall.1, ?_, ?_⟩
  · rw [hall.2, h.running, hframes]
  · rw [hframes]
    exact h.home

theorem called_quiet (t : LoopTask) : ∀ e ∈ EventLoop.called t, ∀ tr : List (LoopEv n),
    OrderlyEv key home tr e ∧ progress key (tr ++ [e]) = progress key tr := by
  intro e he tr
  cases t with
  | config c op =>
    obtain rfl := List.mem_singleton.mp he
    exact ⟨trivial, progress_snoc key tr _⟩
  | processEvents => cases he

theorem noteAll_one (s : EventLoop n) (e : DistEv n.toNat LoopTask) : s.noteAll [e] = s.note e := by
  simp only [EventLoop.noteAll, Option.bind_eq_bind, Option.bind_some, Option.pure_def, List.append_nil]
  cases s.note e <;> rfl

theorem exec_frames (hs : s.exec d = some (s', es)) : ∃ des,
    (taskDistributor n.toNat LoopTask).step s.m_exec d = some (s'.m_exec, des) ∧
      EventLoop.noteAll { s with m_exec := s'.m_exec } des = some (s', es) ∧
      FrameStep s.m_exec d des s'.m_exec.frames := by
  have hshows := exec_shows hs
  simp only [EventLoop.exec, Option.bind_eq_bind, Option.bind_eq_some_iff] at hs
  obtain ⟨⟨exec, des⟩, hstep, hnote⟩ := hs
  obtain ⟨des', hstep', -⟩ := hshows
  obtain ⟨rfl, rfl⟩ := Prod.mk.inj (Option.some.inj (hstep.symm.trans hstep'))
  exact ⟨des, hstep, hnote, taskDistributor_frames hstep⟩

theorem leave_eq (s : EventLoop n) (k : Nat) : s.leave k = match s.m_exec.frames k with
    | t :: _ => s.endTask t
    | [] => some (s, []) := by
  unfold EventLoop.leave TaskDistributor.frames pcOf
  cases s.m_exec.threads[k]? with
  | none => rfl
  | some w =>
    obtain ⟨i, pc⟩ := w
    cases pc <;> rfl

theorem TaskOk.atHome {i j : Fin (mSize n.toNat)} (hi : LivesAt key i home) (h : TaskOk n c j (.config c' op))
    (hkey : op.key = key) : j = i ∧ c' = c ∧ c ≠ .worker home := by
  obtain ⟨hc, hne, r, hr, hj⟩ := h
  have hji : j = i := hj.trans (hi.queue op r hkey hr).symm
  refine ⟨hji, hc, ?_⟩
  rintro rfl
  exact hne home.val rfl (by rw [hji, hi.thread])

theorem deletes_key {t : LoopTask} (h : t.deletes key ≠ none) : ∃ c op, t = .config c op ∧ op.key = key := by
  unfold LoopTask.deletes at h
  split at h
  · rename_i c service_key
    by_cases hkey : service_key = key
    · exact ⟨c, _, rfl, hkey⟩
    · rw [if_neg hkey] at h
      exact (h rfl).elim
  · exact (h rfl).elim

theorem InOrder.called {i : Fin (mSize n.toNat)} (h : InOrder key i tr s)
    (hmem : .config c op ∈ s.m_exec.waiting i) (hkey : op.key = key) : .called c op ∈ tr := by
  have hwaiting : op ∈ waitingOf s i c key :=
    List.mem_filterMap.mpr ⟨_, hmem, if_pos ⟨rfl, hkey⟩⟩
  have hcalls : op ∈ calls c key tr := by
    rw [h c]
    exact List.mem_append_right _ hwaiting
  obtain ⟨e, he, hop⟩ := List.mem_filterMap.mp hcalls
  cases e with
  | called c' op' =>
    simp only [Option.ite_none_right_eq_some] at hop
    obtain ⟨⟨rfl, -⟩, hop⟩ := hop
    cases hop
    exact he
  | _ => cases hop

theorem Tracks.note {i : Fin (mSize n.toNat)} (h : Tracks key home tr s) (hok : LoopOk s)
    (horder : InOrder key i tr s) (hi : LivesAt key i home) (hd : Allowed s d)
    (hstep : (taskDistributor n.toNat LoopTask).step s.m_exec d = some (s'.m_exec, des))
    (hnote : EventLoop.noteAll { s with m_exec := s'.m_exec } des = some (s', es))
    (hframes : FrameStep s.m_exec d des s'.m_exec.frames) (hreturned : ∀ k, d = .worker k → s.m_exec.frames k = []) :
    Tracks key home (tr ++ es) s' := by
  generalize hf : s'.m_exec.frames = f at hframes
  cases hframes with
  | @executed k t ha hnil =>
    rw [noteAll_one] at hnote
    have hk : k < mSize n.toNat := by
      cases taskDistributor_shown hok.dist hstep with
      | executed hk => exact hk
    have hmem := executed_waited hok.dist hd.once hstep hk
    obtain ⟨c', htask⟩ := hok.waiting _ t hmem
    have hbelongs (c op) (ht : t = .config c op) (hkey : op.key = key) :
        k = home.val ∧ .called c op ∈ tr ∧ c ≠ .worker home := by
      subst ht
      obtain ⟨hj, rfl, hne⟩ := htask.atHome hi hkey
      exact ⟨(congrArg Fin.val hj).trans hi.thread, horder.called (hj ▸ hmem) hkey, hne⟩
    obtain ⟨horderly, hrunning⟩ := h.orderly.beginTask hi.slot (t := t) (fun c op res ht hkey _ => by
      obtain ⟨rfl, hcalled, hne⟩ := hbelongs c op ht hkey
      refine ⟨rfl, hcalled, fun hc => (hne hc).elim, fun _ => ?_⟩
      have hempty := h.running
      rw [hnil, List.filterMap_nil, List.map_eq_nil_iff] at hempty
      exact hempty) hnote
    refine h.push (k := k) horderly hrunning (by rw [hf, hnil]) ?_
    intro hdel
    obtain ⟨c, op, ht, hkey⟩ := deletes_key hdel
    exact (hbelongs c op ht hkey).1
  | @returned k ha =>
    obtain ⟨-, rfl⟩ := Prod.mk.inj (Option.some.inj hnote)
    refine h.quiet ?_ nofun
    rw [hf, hreturned k ha]
    exact Function.update_eq_self_iff.mpr (hreturned k ha).symm
  | @inplace k t index ha =>
    rw [noteAll_one, EventLoop.note] at hnote
    simp only [Option.bind_eq_bind, Option.bind_eq_some_iff] at hnote
    obtain ⟨⟨s₁, es₁⟩, hbegin, hnote⟩ := hnote
    cases hnote
    obtain ⟨op, r, rfl, hr, rfl⟩ := hd.inplace k t index ha
    have hbelongs (hkey : op.key = key) : k = home.val := by
      cases taskDistributor_shown hok.dist hstep with
      | inplace ha' hpool hown =>
        cases ha
        cases ha'
        rw [hok.pool.own _ _ _ hpool hown, ← hi.queue op r hkey hr, hi.thread]
    have hcalled : Tracks key home (tr ++ [.called (.worker k) op]) s :=
      h.quiet rfl (called_quiet (.config (.worker k) op))
    obtain ⟨horderly, hrunning⟩ := hcalled.orderly.beginTask hi.slot (t := .config (.worker k) op)
      (fun c op' res ht hkey _ => by
        cases ht
        obtain rfl := hbelongs hkey
        exact ⟨rfl, by simp, fun _ => by simp, fun hne => (hne rfl).elim⟩) hbegin
    rw [← List.append_assoc]
    refine hcalled.push (k := k) horderly hrunning hf ?_
    intro hdel
    obtain ⟨c, op', ht, hkey⟩ := deletes_key hdel
    cases ht
    exact hbelongs hkey
  | nothing =>
    obtain ⟨-, rfl⟩ := Prod.mk.inj (Option.some.inj hnote)
    exact h.quiet hf nofun
  | refused c =>
    rw [noteAll_one] at hnote
    obtain ⟨-, rfl⟩ := Prod.mk.inj (Option.some.inj hnote)
    refine h.quiet hf ?_
    intro e he tr
    obtain rfl := List.mem_singleton.mp he
    exact ⟨trivial, progress_snoc key tr _⟩
  | @accepted c j t =>
    rw [noteAll_one] at hnote
    obtain ⟨-, rfl⟩ := Prod.mk.inj (Option.some.inj hnote)
    exact h.quiet hf (called_quiet t)

theorem Tracks.work {i : Fin (mSize n.toNat)} (h : Tracks key home tr s) (hok : LoopOk s)
    (horder : InOrder key i tr s) (hi : LivesAt key i home) (hs : s.work k = some (s', es)) :
    Tracks key home (tr ++ es) s' := by
  simp only [EventLoop.work, Option.bind_eq_bind, Option.bind_eq_some_iff] at hs
  obtain ⟨⟨s₁, es₁⟩, hleave, ⟨s₂, es₂⟩, hexec, hs⟩ := hs
  cases hs
  have hsame := (leave_shows hleave (.external 0) key).1
  rw [leave_eq] at hleave
  obtain ⟨des, hstep, hnote, hframes⟩ := exec_frames hexec
  cases hf : s.m_exec.frames k with
  | nil =>
    rw [hf] at hleave
    cases hleave
    refine h.note hok horder hi (allowed_worker s k) hstep hnote hframes ?_
    rintro _ ⟨⟩
    exact hf
  | cons t outer =>
    rw [hf] at hleave
    -- the innermost task ends and nothing begins
    have hnone (hne : k ≠ home.val) : t.deletes key = none := by
      by_contra hdel
      exact hne (h.home k t (by rw [hf]; exact .head _) hdel)
    obtain ⟨cs, hrunning, hcs⟩ : ∃ cs, (progress key tr).running.map Operation.c = (t.deletes key).toList ++ cs ∧
        cs = (Function.update s.m_exec.frames k outer home).filterMap (LoopTask.deletes key) := by
      rcases eq_or_ne k home.val with rfl | hne
      · refine ⟨_, ?_, rfl⟩
        rw [h.running, hf, List.filterMap_cons, Function.update_self]
        cases t.deletes key <;> rfl
      · refine ⟨_, ?_, rfl⟩
        rw [h.running, hnone hne, Function.update_of_ne (Ne.symm hne)]
        rfl
    obtain ⟨horderly, hrunning'⟩ := h.orderly.endTask hrunning hleave
    rw [hsame] at hframes
    generalize hf' : s₂.m_exec.frames = f at hframes
    cases hframes with
    | executed ha hnil =>
      cases ha
      rw [hf] at hnil
      cases hnil
    | returned ha =>
      cases ha
      obtain ⟨-, rfl⟩ := Prod.mk.inj (Option.some.inj hnote)
      rw [List.append_nil]
      rw [hf, List.tail_cons] at hf'
      refine ⟨horderly, ?_, ?_⟩
      · rw [hrunning', hf', hcs]
      · intro j t' ht' hdel
        rw [hf'] at ht'
        rcases eq_or_ne j k with rfl | hne
        · rw [Function.update_self] at ht'
          exact h.home j t' (by rw [hf]; exact .tail _ ht') hdel
        · rw [Function.update_of_ne hne] at ht'
          exact h.home j t' ht' hdel
    | inplace ha => cases ha
    | nothing ha => exact (ha k rfl).elim
    | refused c ha => exact (ha k rfl).elim
    | accepted ha => exact (ha k rfl).elim

theorem Issues.not_worker (h : Issues s d) (k : Nat) : d ≠ .worker k := by
  rintro rfl
  cases h

theorem tracks_run {i : Fin (mSize n.toNat)} (hi : LivesAt key i home) (h : (eventLoop n).Run tr s) :
    Tracks key home tr s := by
  refine h.invariant (I := Tracks key home) ⟨orderly_nil, rfl, fun _ _ ht => absurd ht List.not_mem_nil⟩ ?_
  intro tr s a s' es hr ih _ hs
  obtain ⟨hok, horder⟩ := inOrder_run hi.queue hr
  rcases eventLoop_cases hs with ⟨d, hissues, hexec⟩ | ⟨k, hwork⟩ | ⟨c, rfl, rfl⟩
  · obtain ⟨des, hstep, hnote, hframes⟩ := exec_frames hexec
    exact ih.note hok horder hi hissues.allowed hstep hnote hframes fun k hk => (hissues.not_worker k hk).elim
  · exact ih.work hok horder hi hwork
  · refine ih.quiet rfl ?_
    intro e he tr
    obtain rfl := List.mem_singleton.mp he
    exact ⟨trivial, progress_snoc key tr _⟩

end

/-- In every run of a loop with started threads, the operations of a client on a
key that is not negative take effect in the order of its program, and what a
find receives is what they left if no other client changes the key. -/
theorem eventLoop_keeps_client_order (n : BitVec 32) (hn : 0 < n.toInt) (key : BitVec 64)
    (hkey : 0 ≤ key.toInt) (c : Caller) (tr tr' : List (LoopEv n)) (s s' : EventLoop n)
    (h : (eventLoop n).Run tr s) (h' : (eventLoop n).Steps Machine.anyStep s tr' s') :
    ClientOrder c key tr tr' s' := by
  obtain ⟨i, home, hi⟩ := livesAt hn ((sameThread_iff hn key).mpr (.inl hkey))
  have hall := h.trans h'
  have htracks := tracks_run hi hall
  obtain ⟨hok, horder⟩ := inOrder_run hi.queue h
  have hbegins (c : Caller) : begun c key (tr ++ tr') <+: calls c key (tr ++ tr') :=
    ⟨_, ((inOrder_run hi.queue hall).2 c).symm⟩
  have hregistry := registry_run hi.slot hall
  refine ⟨hbegins c, ?_, ?_, ⟨home, ?_⟩, ?_⟩
  · intro m m' hm hinside hm' hmem
    refine htracks.orderly.order ?_ ?_ hm hinside hm' hmem
    · rintro rfl
      rw [horder, hok.own hi.thread.symm key, List.append_nil]
    · rw [horder, List.length_append]
      exact Nat.le_add_right _ _
  · intro hplain
    exact (htracks.orderly.took_prefix (htracks.orderly.apart_of_plain hplain)).trans (hbegins c)
  · intro j
    rw [hregistry.content, htracks.orderly.lastEffect]
  · intro t j res t' heq halone
    have hleft : Orderly key home t := (heq ▸ htracks.orderly).left
    rw [hregistry.found t j c res t' heq, hleft.lastEffect, hleft.alone halone]

theorem eventLoop_keeps_client_order_run : ∃ tr s tr' s', (eventLoop 2).Run tr s ∧
    (eventLoop 2).Steps Machine.anyStep s tr' s' ∧
    calls (.external 0) 1 (tr ++ tr') = [.addService ⟨1, 1⟩, .delService 1 true, .findService 1] ∧
    tr' = [.called (.external 0) (.delService 1 true), .called (.external 0) (.findService 1),
      .begun ⟨1, by decide⟩ (.external 0) (.delService 1 true) (some ⟨1, 1⟩),
      .called (.worker 1) (.findService 1),
      .begun ⟨1, by decide⟩ (.worker 1) (.findService 1) (some ⟨1, 1⟩), .erased ⟨1, by decide⟩ 1,
      .begun ⟨1, by decide⟩ (.external 0) (.findService 1) none] ∧
    ClientOrder (.external 0) 1 tr tr' s' := by
  have hr : ((eventLoop 2).replay (EventLoop.new 2)
      [.construct, .control, .control, .control,
        .call (.external 0) (some (.addService ⟨1, 1⟩)), .pushBack (.external 0),
        .worker 1, .worker 1, .worker 1, .worker 1, .worker 1, .worker 1, .worker 1, .worker 1]).isSome := rfl
  have hr' : ((eventLoop 2).replay ((Option.get _ hr).1)
      [.call (.external 0) (some (.delService 1 true)), .pushBack (.external 0),
        .call (.external 0) (some (.findService 1)), .pushBack (.external 0),
        .worker 1, .worker 1, .worker 1, .worker 1, .worker 1, .worker 1,
        .call (.worker 1) (some (.findService 1)), .worker 1, .worker 1, .worker 1]).isSome := rfl
  have hrun := Machine.steps_of_replay (Option.some_get hr).symm
  have hrun' := Machine.steps_of_replay (Option.some_get hr').symm
  exact ⟨_, _, _, _, hrun, hrun', rfl, rfl,
    eventLoop_keeps_client_order 2 (by decide) 1 (by decide) (.external 0) _ _ _ _ hrun hrun'⟩

end Andren.Network
