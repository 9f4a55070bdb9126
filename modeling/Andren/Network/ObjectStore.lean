import Andren.Machine.OrderedMap
import Andren.Network.TaskDistributor

/-!
# The object store

`saveObject` and `findObject` may be called from any thread. Each adds a request
to the IO worker's queue, which owns the object of a save until it runs; a save
of a new id stores the object only when its callback has returned.

The requests that ran are what `reference`, a map from ids to objects, makes of
them in the order they were accepted, and no object is lost or there twice
(`ObjectStore.Owned`). A take without a callback drops the object.
-/

namespace Andren.Network

open Machines
open Std (TreeMap)

inductive StoreRequest (Obj : Type)
  | saveObject (id : Int) (force : Bool) (obj : Obj)
  /-- `onFind` tells whether there is a callback. -/
  | findObject (id : Int) (takeOrNot onFind : Bool)

inductive StoreTask (Obj : Type)
  | request (r : StoreRequest Obj)
  | other (id : Nat)

/-- What a request passes to its callback. -/
inductive StoreResult (Obj : Type)
  | saved (ret : Bool) (obj : Obj)
  | found (obj : Option Obj)

structure ObjectStore (size : Nat) (Obj : Type) where
  ev : TaskDistributor size (StoreTask Obj)
  /-- `start` has been called, and `m_wev` refers to the distributor. -/
  m_wev : Bool
  m_objects : TreeMap Int Obj
  /-- What the running save stores when its callback returns. -/
  saving : Option (Int × Obj)

inductive StoreAct (Obj : Type)
  | start
  /-- `onSave` tells whether there is a callback. -/
  | saveObject (c : Caller) (id : Int) (force : Bool) (obj : Obj) (onSave : Bool)
  | findObject (c : Caller) (id : Int) (takeOrNot onFind : Bool)
  | exec (a : DistAct (StoreTask Obj))

inductive StoreEv (Obj : Type)
  | refused (c : Caller)
  | accepted (c : Caller) (r : StoreRequest Obj)
  | overwritten (obj : Obj)
  | ran (r : StoreRequest Obj) (res : StoreResult Obj)

namespace ObjectStore

variable {size : Nat} {Obj : Type}

/-- A request runs up to the end of its callback; that of a save of a new id
returns in `leave`. -/
def begin (s : ObjectStore size Obj) : StoreRequest Obj → ObjectStore size Obj × List (StoreEv Obj)
  | .saveObject id force obj => match s.m_objects[id]? with
    | some old =>
      if force then ({ s with m_objects := s.m_objects.insert id obj },
        [.overwritten old, .ran (.saveObject id force obj) (.saved true obj)])
      else (s, [.ran (.saveObject id force obj) (.saved false obj)])
    | none => ({ s with saving := some (id, obj) }, [.ran (.saveObject id force obj) (.saved true obj)])
  | .findObject id takeOrNot onFind => match s.m_objects[id]? with
    | some obj =>
      (if takeOrNot then { s with m_objects := s.m_objects.erase id } else s,
        [.ran (.findObject id takeOrNot onFind) (.found (some obj))])
    | none => (s, [.ran (.findObject id takeOrNot onFind) (.found none)])

def leave (s : ObjectStore size Obj) (k : Nat) : ObjectStore size Obj :=
  match (s.ev.frames k).head?, s.saving with
  | some (.request _), some (id, obj) => { s with m_objects := s.m_objects.insert id obj, saving := none }
  | _, _ => s

def note (s : ObjectStore size Obj) : DistEv size (StoreTask Obj) → ObjectStore size Obj × List (StoreEv Obj)
  | .refused c => (s, [.refused c])
  | .accepted c _ (.request r) => (s, [.accepted c r])
  | .executed _ (.request r) => s.begin r
  | _ => (s, [])

def noteAll (s : ObjectStore size Obj) :
    List (DistEv size (StoreTask Obj)) → ObjectStore size Obj × List (StoreEv Obj)
  | [] => (s, [])
  | e :: des =>
    let (s, es) := s.note e
    let (s, es') := s.noteAll des
    (s, es ++ es')

def run (s : ObjectStore size Obj) (a : DistAct (StoreTask Obj)) :
    Option (ObjectStore size Obj × List (StoreEv Obj)) := do
  let (ev, des) ← (taskDistributor size (StoreTask Obj)).step s.ev a
  pure (noteAll { s with ev := ev } des)

def call (s : ObjectStore size Obj) (c : Caller) (r : StoreRequest Obj) :
    Option (ObjectStore size Obj × List (StoreEv Obj)) :=
  if s.m_wev then s.run (.addTaskOf c (some (.request r)) .io 0)
  else if s.ev.canCall c then some (s, [.refused c]) else none

def allows (s : ObjectStore size Obj) : DistAct (StoreTask Obj) → Bool
  | .addTask _ t _ | .addTaskOf _ t _ _ | .addTaskASAP _ t _ => match t with
    | some (.request _) => false
    | _ => true
  | .start => s.ev.m_tpool.isNone
  | .worker _ | .pushBack _ | .shutdown | .control => true

end ObjectStore

/-- A poller's object store on a distributor, and any number of threads that
call it. -/
def objectStore (size : Nat) (Obj : Type) : Machine (ObjectStore size Obj) (StoreAct Obj) (StoreEv Obj) where
  init := ⟨.new size (StoreTask Obj), false, ∅, none⟩
  step s
    | .start => some ({ s with m_wev := true }, [])
    | .saveObject c id force obj onSave =>
      if onSave then s.call c (.saveObject id force obj)
      else if s.ev.canCall c then some (s, [.refused c]) else none
    | .findObject c id takeOrNot onFind => s.call c (.findObject id takeOrNot onFind)
    | .exec a =>
      if s.allows a then match a with
        | .worker k => (s.leave k).run (.worker k)
        | a => s.run a
      else none

-- ---------------------------------------------------------------------------
-- What the requests are to do
-- ---------------------------------------------------------------------------

section

variable {size : Nat} {Obj : Type}

/-- One request on a map from ids to objects. -/
def StoreRequest.apply (m : Int → Option Obj) : StoreRequest Obj → (Int → Option Obj) × StoreResult Obj
  | .saveObject id force obj =>
    if (m id).isSome && !force then (m, .saved false obj)
    else (Function.update m id (some obj), .saved true obj)
  | .findObject id takeOrNot _ => (if takeOrNot then Function.update m id none else m, .found (m id))

def reference (rs : List (StoreRequest Obj)) : (Int → Option Obj) × List (StoreResult Obj) :=
  rs.foldl (fun (m, results) r => ((r.apply m).1, results ++ [(r.apply m).2])) (fun _ => none, [])

def StoreTask.request? : StoreTask Obj → Option (StoreRequest Obj)
  | .request r => some r
  | .other _ => none

def StoreRequest.saves : StoreRequest Obj → Option Obj
  | .saveObject _ _ obj => some obj
  | .findObject .. => none

namespace StoreEv

def accepts : StoreEv Obj → Option (StoreRequest Obj)
  | .accepted _ r => some r
  | _ => none

def runs : StoreEv Obj → Option (StoreRequest Obj × StoreResult Obj)
  | .ran r res => some (r, res)
  | _ => none

def hands : StoreEv Obj → Option Obj
  | .ran (.findObject _ true true) (.found obj) => obj
  | _ => none

def discards : StoreEv Obj → Option Obj
  | .ran (.findObject _ true false) (.found obj) => obj
  | _ => none

def rejects : StoreEv Obj → Option Obj
  | .ran (.saveObject ..) (.saved false obj) => some obj
  | _ => none

def overwrites : StoreEv Obj → Option Obj
  | .overwritten obj => some obj
  | _ => none

end StoreEv

def acceptedStores (tr : List (StoreEv Obj)) : List (StoreRequest Obj) := tr.filterMap StoreEv.accepts

def ranStores (tr : List (StoreEv Obj)) : List (StoreRequest Obj) := (tr.filterMap StoreEv.runs).map Prod.fst

def results (tr : List (StoreEv Obj)) : List (StoreResult Obj) := (tr.filterMap StoreEv.runs).map Prod.snd

namespace ObjectStore

def pending (s : ObjectStore size Obj) : List (StoreRequest Obj) :=
  (s.ev.waiting (queueIndex size 0)).filterMap StoreTask.request?

/-- What is stored under an id, or is about to be by the running save. -/
def content (s : ObjectStore size Obj) (id : Int) : Option Obj :=
  match s.saving with
  | some (id', obj) => if id' = id then some obj else s.m_objects[id]?
  | none => s.m_objects[id]?

/-- Where the accepted objects are, `dropped` apart. -/
def holds (s : ObjectStore size Obj) (tr : List (StoreEv Obj)) : List Obj :=
  s.pending.filterMap StoreRequest.saves ++ s.saving.toList.map Prod.snd ++ s.m_objects.toList.map Prod.snd ++
    tr.filterMap StoreEv.hands ++ tr.filterMap StoreEv.overwrites ++ tr.filterMap StoreEv.rejects

/-- Each accepted object is at one place. -/
def Owned (s : ObjectStore size Obj) (tr : List (StoreEv Obj)) : Prop :=
  ((acceptedStores tr).filterMap StoreRequest.saves).Perm (s.holds tr ++ tr.filterMap StoreEv.discards)

end ObjectStore

/-- What a run of the store shows. -/
structure StoreKept (tr : List (StoreEv Obj)) (s : ObjectStore size Obj) : Prop where
  /-- The requests run in the order they were accepted. -/
  order : acceptedStores tr = ranStores tr ++ s.pending
  results : results tr = (reference (ranStores tr)).2
  content : s.content = (reference (ranStores tr)).1
  /-- Between the requests the objects are what the reference map holds. -/
  stored : s.ev.frames 0 = [] → ∀ id : Int, s.m_objects[id]? = (reference (ranStores tr)).1 id
  owned : s.Owned tr

-- ---------------------------------------------------------------------------
-- One request
-- ---------------------------------------------------------------------------

theorem reference_snoc (rs : List (StoreRequest Obj)) (r : StoreRequest Obj) : reference (rs ++ [r]) =
    ((r.apply (reference rs).1).1, (reference rs).2 ++ [(r.apply (reference rs).1).2]) := by
  simp [reference]

def objects (m : TreeMap Int Obj) : List Obj := m.toList.map Prod.snd

theorem objects_erase {m : TreeMap Int Obj} {id : Int} (h : m[id]? = some obj) :
    (objects m).Perm (obj :: objects (m.erase id)) := by
  have hperm := (OrderedMap.toList_perm_erase m id).map Prod.snd
  rw [h] at hperm
  exact hperm

theorem objects_insert (m : TreeMap Int Obj) (id : Int) (obj : Obj) :
    (objects (m.insert id obj)).Perm (obj :: objects (m.erase id)) :=
  (OrderedMap.toList_perm_insert m id obj).map Prod.snd

theorem objects_absent {m : TreeMap Int Obj} {id : Int} (h : m[id]? = none) :
    (objects m).Perm (objects (m.erase id)) := by
  have hperm := (OrderedMap.toList_perm_erase m id).map Prod.snd
  rw [h] at hperm
  exact hperm

def ObjectStore.stock (s : ObjectStore size Obj) : List Obj :=
  s.pending.filterMap StoreRequest.saves ++ s.saving.toList.map Prod.snd ++ objects s.m_objects

def gone (tr : List (StoreEv Obj)) : List Obj :=
  tr.filterMap StoreEv.hands ++ tr.filterMap StoreEv.overwrites ++ tr.filterMap StoreEv.rejects ++
    tr.filterMap StoreEv.discards

theorem owned_iff {s : ObjectStore size Obj} : s.Owned tr ↔
    ((acceptedStores tr).filterMap StoreRequest.saves).Perm (s.stock ++ gone tr) := by
  simp only [ObjectStore.Owned, ObjectStore.holds, ObjectStore.stock, objects, gone, List.append_assoc]

theorem gone_append (tr tr' : List (StoreEv Obj)) : (gone (tr ++ tr')).Perm (gone tr ++ gone tr') := by
  classical
  rw [List.perm_iff_count]
  intro a
  simp only [gone, List.filterMap_append, List.count_append]
  omega

theorem ObjectStore.Owned.move {s s' : ObjectStore size Obj} (h : s.Owned tr)
    (hmove : ((acceptedStores es).filterMap StoreRequest.saves ++ s.stock).Perm (s'.stock ++ gone es)) :
    s'.Owned (tr ++ es) := by
  rw [owned_iff] at h ⊢
  have haccepted : (acceptedStores (tr ++ es)).filterMap StoreRequest.saves =
      (acceptedStores tr).filterMap StoreRequest.saves ++ (acceptedStores es).filterMap StoreRequest.saves := by
    simp [acceptedStores]
  rw [haccepted]
  refine (h.append_right _).trans ?_
  refine List.perm_append_comm.trans ?_
  rw [← List.append_assoc]
  refine (hmove.append_right _).trans ?_
  rw [List.append_assoc]
  exact (List.perm_append_comm.trans (gone_append tr es).symm).append_left _

structure StoreInv (tr : List (StoreEv Obj)) (s : ObjectStore size Obj) : Prop where
  order : acceptedStores tr = ranStores tr ++ s.pending
  results : results tr = (reference (ranStores tr)).2
  content : s.content = (reference (ranStores tr)).1
  owned : s.Owned tr

theorem StoreInv.silent {s s' : ObjectStore size Obj} (h : StoreInv tr s)
    (hes : ∀ e ∈ es, ∃ c, e = .refused c) (hpending : s'.pending = s.pending)
    (hobjects : s'.m_objects = s.m_objects) (hsaving : s'.saving = s.saving) : StoreInv (tr ++ es) s' := by
  have hnone {β : Type} (f : StoreEv Obj → Option β) (hf : ∀ c, f (.refused c) = none) :
      (tr ++ es).filterMap f = tr.filterMap f := by
    rw [List.filterMap_append, List.append_right_eq_self, List.filterMap_eq_nil_iff]
    intro e he
    obtain ⟨c, rfl⟩ := hes e he
    exact hf c
  have hcontent : s'.content = s.content := by
    funext id
    simp only [ObjectStore.content, hobjects, hsaving]
  refine ⟨?_, ?_, ?_, ?_⟩
  · simp only [acceptedStores, ranStores, hnone StoreEv.accepts fun _ => rfl, hnone StoreEv.runs fun _ => rfl,
      hpending]
    exact h.order
  · simp only [Network.results, ranStores, hnone StoreEv.runs fun _ => rfl]
    exact h.results
  · rw [hcontent, ranStores, hnone StoreEv.runs fun _ => rfl]
    exact h.content
  · simp only [ObjectStore.Owned, ObjectStore.holds, acceptedStores, hnone StoreEv.accepts fun _ => rfl,
      hnone StoreEv.hands fun _ => rfl, hnone StoreEv.overwrites fun _ => rfl,
      hnone StoreEv.rejects fun _ => rfl, hnone StoreEv.discards fun _ => rfl, hpending, hobjects, hsaving]
    exact h.owned

theorem StoreInv.accepted {s s' : ObjectStore size Obj} (h : StoreInv tr s) (c : Caller) (r : StoreRequest Obj)
    (hpending : s'.pending = s.pending ++ [r]) (hobjects : s'.m_objects = s.m_objects)
    (hsaving : s'.saving = s.saving) : StoreInv (tr ++ [.accepted c r]) s' := by
  have hcontent : s'.content = s.content := by
    funext id
    simp only [ObjectStore.content, hobjects, hsaving]
  have hran : ranStores (tr ++ [.accepted c r]) = ranStores tr := by simp [ranStores, StoreEv.runs]
  refine ⟨?_, ?_, ?_, ?_⟩
  · rw [hran, hpending, ← List.append_assoc, ← h.order]
    simp [acceptedStores, StoreEv.accepts]
  · rw [hran, ← h.results]
    simp [Network.results, StoreEv.runs]
  · rw [hcontent, hran, h.content]
  · refine h.owned.move ?_
    have hgone : gone [StoreEv.accepted c r] = [] := rfl
    simp only [ObjectStore.stock, hpending, hobjects, hsaving, hgone, List.filterMap_append, List.append_assoc,
      List.append_nil]
    exact List.perm_append_comm_assoc _ _ _

theorem content_idle {s : ObjectStore size Obj} (h : s.saving = none) (id : Int) :
    s.content id = s.m_objects[id]? := by
  simp [ObjectStore.content, h]

inductive Ran (s : ObjectStore size Obj) : StoreRequest Obj → ObjectStore size Obj → List (StoreEv Obj) → Prop
  | overwrites {id : Int} {old obj : Obj} : s.m_objects[id]? = some old → Ran s (.saveObject id true obj)
      { s with m_objects := s.m_objects.insert id obj }
      [.overwritten old, .ran (.saveObject id true obj) (.saved true obj)]
  | rejects {id : Int} {old obj : Obj} : s.m_objects[id]? = some old → Ran s (.saveObject id false obj) s
      [.ran (.saveObject id false obj) (.saved false obj)]
  | saves {id : Int} {force : Bool} {obj : Obj} : s.m_objects[id]? = none →
      Ran s (.saveObject id force obj) { s with saving := some (id, obj) }
      [.ran (.saveObject id force obj) (.saved true obj)]
  | takes {id : Int} {obj : Obj} {onFind : Bool} : s.m_objects[id]? = some obj →
      Ran s (.findObject id true onFind)
      { s with m_objects := s.m_objects.erase id } [.ran (.findObject id true onFind) (.found (some obj))]
  | finds {takeOrNot : Bool} {id : Int} {onFind : Bool} : takeOrNot = false ∨ s.m_objects[id]? = none →
      Ran s (.findObject id takeOrNot onFind) s
      [.ran (.findObject id takeOrNot onFind) (.found s.m_objects[id]?)]

theorem begin_ran (s : ObjectStore size Obj) (r : StoreRequest Obj) : Ran s r (s.begin r).1 (s.begin r).2 := by
  cases r with
  | saveObject id force obj =>
    simp only [ObjectStore.begin]
    split
    · rename_i old hold
      cases force with
      | true => exact .overwrites hold
      | false => exact .rejects hold
    · rename_i hnone
      exact .saves hnone
  | findObject id takeOrNot onFind =>
    simp only [ObjectStore.begin]
    split
    · rename_i obj hold
      cases takeOrNot with
      | true => exact .takes hold
      | false =>
        rw [← hold]
        exact .finds (.inl rfl)
    · rename_i hnone
      have hfinds : Ran s (.findObject id takeOrNot onFind) s
          [.ran (.findObject id takeOrNot onFind) (.found s.m_objects[id]?)] := .finds (.inr hnone)
      rwa [hnone] at hfinds

theorem Ran.apply {s : ObjectStore size Obj} (h : Ran s r s' es) (hidle : s.saving = none) :
    s'.ev = s.ev ∧ s'.content = (r.apply s.content).1 ∧
      ∃ pre, es = pre ++ [.ran r (r.apply s.content).2] ∧ ∀ e ∈ pre, ∃ obj, e = .overwritten obj := by
  cases h with
  | @overwrites id old obj hold =>
    have happly : (StoreRequest.saveObject id true obj).apply s.content =
        (Function.update s.content id (some obj), .saved true obj) := by
      simp [StoreRequest.apply]
    rw [happly]
    refine ⟨rfl, ?_, [.overwritten old], rfl, ?_⟩
    · funext id'
      refine (content_idle (s := { s with m_objects := s.m_objects.insert id obj }) hidle id').trans ?_
      dsimp only
      rw [Function.update_apply, content_idle hidle, TreeMap.getElem?_insert]
      simp only [Std.LawfulEqCmp.compare_eq_iff_eq, @eq_comm _ id' id]
    · intro e he
      exact ⟨old, List.mem_singleton.mp he⟩
  | @rejects id old obj hold =>
    have happly : (StoreRequest.saveObject id false obj).apply s'.content = (s'.content, .saved false obj) := by
      simp [StoreRequest.apply, content_idle hidle, hold]
    rw [happly]
    exact ⟨rfl, rfl, [], rfl, nofun⟩
  | @saves id force obj hnone =>
    have happly : (StoreRequest.saveObject id force obj).apply s.content =
        (Function.update s.content id (some obj), .saved true obj) := by
      simp [StoreRequest.apply, content_idle hidle, hnone]
    rw [happly]
    refine ⟨rfl, ?_, [], rfl, nofun⟩
    funext id'
    dsimp only
    rw [Function.update_apply, content_idle hidle]
    simp only [ObjectStore.content, eq_comm]
  | @takes id obj onFind hold =>
    have happly : (StoreRequest.findObject id true onFind).apply s.content =
        (Function.update s.content id none, .found (some obj)) := by
      simp [StoreRequest.apply, content_idle hidle, hold]
    rw [happly]
    refine ⟨rfl, ?_, [], rfl, nofun⟩
    funext id'
    refine (content_idle (s := { s with m_objects := s.m_objects.erase id }) hidle id').trans ?_
    dsimp only
    rw [Function.update_apply, content_idle hidle, TreeMap.getElem?_erase]
    simp only [Std.LawfulEqCmp.compare_eq_iff_eq, @eq_comm _ id' id]
  | @finds takeOrNot id onFind hfinds =>
    have happly : (StoreRequest.findObject id takeOrNot onFind).apply s'.content =
        (s'.content, .found s'.m_objects[id]?) := by
      simp only [StoreRequest.apply, content_idle hidle, Prod.mk.injEq, and_true, ite_eq_right_iff]
      intro htake
      rw [Function.update_eq_self_iff, content_idle hidle, hfinds.resolve_left (by simp [htake])]
    rw [happly]
    exact ⟨rfl, rfl, [], rfl, nofun⟩

theorem Ran.stock {s s' : ObjectStore size Obj} (h : Ran s r s' es) (hidle : s.saving = none) :
    (r.saves.toList ++ s.stock).Perm (s'.stock ++ gone es) := by
  have hstock : s.stock = s.pending.filterMap StoreRequest.saves ++ objects s.m_objects := by
    rw [ObjectStore.stock, hidle]
    simp
  generalize hwaiting : s.pending.filterMap StoreRequest.saves = waiting at hstock
  have hstock' (m : TreeMap Int Obj) : ObjectStore.stock { s with m_objects := m } = waiting ++ objects m := by
    rw [ObjectStore.stock, ← hwaiting]
    simp [hidle, ObjectStore.pending]
  cases h with
  | @overwrites id old obj hold =>
    rw [hstock, hstock']
    calc obj :: (waiting ++ objects s.m_objects)
      _ |>.Perm (obj :: (waiting ++ old :: objects (s.m_objects.erase id))) :=
        ((objects_erase hold).append_left waiting).cons obj
      _ |>.Perm (obj :: old :: (waiting ++ objects (s.m_objects.erase id))) := List.perm_middle.cons obj
      _ |>.Perm (old :: obj :: (waiting ++ objects (s.m_objects.erase id))) := .swap ..
      _ |>.Perm (old :: (waiting ++ obj :: objects (s.m_objects.erase id))) := List.perm_middle.symm.cons old
      _ |>.Perm (old :: (waiting ++ objects (s.m_objects.insert id obj))) :=
        ((objects_insert s.m_objects id obj).symm.append_left waiting).cons old
      _ |>.Perm (waiting ++ objects (s.m_objects.insert id obj) ++ [old]) :=
        (List.perm_append_singleton old _).symm
  | @rejects id old obj hold => exact (List.perm_append_singleton obj _).symm
  | @saves id force obj hnone =>
    have hsaves : ObjectStore.stock { s with saving := some (id, obj) } =
        waiting ++ obj :: objects s.m_objects := by
      rw [ObjectStore.stock, ← hwaiting]
      simp [ObjectStore.pending]
    have hgone : gone [.ran (.saveObject id force obj) (.saved true obj)] = [] := rfl
    rw [hstock, hsaves, hgone, List.append_nil]
    change (obj :: (waiting ++ objects s.m_objects)).Perm _
    exact List.perm_middle.symm
  | @takes id obj onFind hold =>
    have hgone : gone [.ran (.findObject id true onFind) (.found (some obj))] = [obj] := by cases onFind <;> rfl
    rw [hstock, hstock', hgone]
    refine ((objects_erase hold).append_left waiting).trans ?_
    exact List.perm_middle.trans (List.perm_append_singleton obj _).symm
  | @finds takeOrNot id onFind hfinds =>
    have hgone : gone [.ran (.findObject id takeOrNot onFind) (.found s.m_objects[id]?)] = [] := by
      rcases hfinds with rfl | hnone
      · rfl
      · rw [hnone]
        cases takeOrNot <;> cases onFind <;> rfl
    rw [hgone, List.append_nil]
    exact .refl _

theorem StoreInv.ran {s s₁ s' : ObjectStore size Obj} (h : StoreInv tr s) (hidle : s.saving = none)
    (hpending : s.pending = r :: s₁.pending) (hobjects : s₁.m_objects = s.m_objects) (hsaving : s₁.saving = none)
    (hran : Ran s₁ r s' es) : StoreInv (tr ++ es) s' := by
  have hstock : s.stock = r.saves.toList ++ s₁.stock := by
    simp only [ObjectStore.stock, hpending, hobjects, hidle, hsaving, List.filterMap_cons]
    cases r.saves <;> rfl
  have hmove := hran.stock hsaving
  rw [← hstock] at hmove
  obtain ⟨hev, hcontent, pre, rfl, hpre⟩ := hran.apply hsaving
  have hsame : s₁.content = (reference (ranStores tr)).1 := by
    rw [← h.content]
    funext id
    rw [content_idle hsaving, content_idle hidle, hobjects]
  have hruns : pre.filterMap StoreEv.runs = [] := by
    rw [List.filterMap_eq_nil_iff]
    intro e he
    obtain ⟨obj, rfl⟩ := hpre e he
    rfl
  have haccepts : pre.filterMap StoreEv.accepts = [] := by
    rw [List.filterMap_eq_nil_iff]
    intro e he
    obtain ⟨obj, rfl⟩ := hpre e he
    rfl
  have hran : ranStores (tr ++ (pre ++ [.ran r (r.apply s₁.content).2])) = ranStores tr ++ [r] := by
    simp [ranStores, hruns, StoreEv.runs]
  have haccepted : acceptedStores (pre ++ [.ran r (r.apply s₁.content).2]) = [] := by
    simp [acceptedStores, haccepts, StoreEv.accepts]
  refine ⟨?_, ?_, ?_, h.owned.move (by rwa [haccepted])⟩
  · have hpending' : s'.pending = s₁.pending := by rw [ObjectStore.pending, hev, ObjectStore.pending]
    have horder := h.order
    rw [hpending] at horder
    rw [hran, List.append_assoc, List.singleton_append, hpending', ← horder]
    simp [acceptedStores, haccepts, StoreEv.accepts, List.filterMap_cons]
  · rw [hran, reference_snoc, ← h.results, ← hsame]
    simp [Network.results, hruns, StoreEv.runs]
  · rw [hran, reference_snoc, hcontent, hsame]

theorem StoreInv.stores {s : ObjectStore size Obj} {id : Int} (h : StoreInv tr s)
    (hsaving : s.saving = some (id, obj)) (habsent : s.m_objects[id]? = none) :
    StoreInv tr { s with m_objects := s.m_objects.insert id obj, saving := none } := by
  refine ⟨h.order, h.results, ?_, ?_⟩
  · rw [← h.content]
    funext id'
    rw [content_idle rfl, TreeMap.getElem?_insert]
    simp only [ObjectStore.content, hsaving, Std.LawfulEqCmp.compare_eq_iff_eq]
  · have hold := objects_absent habsent
    have hnew := objects_insert s.m_objects id obj
    rw [← List.append_nil tr]
    refine h.owned.move ?_
    simp only [ObjectStore.stock, hsaving, List.append_assoc]
    exact (((hold.cons obj).trans hnew.symm).append_left _).trans (.of_eq (by simp [gone, ObjectStore.pending]))

-- ---------------------------------------------------------------------------
-- The store under the distributor
-- ---------------------------------------------------------------------------

/-- Requests are for the IO worker only, which runs one at a time, and a save of
a new id that is not over is that one. -/
structure StoreOk (s : ObjectStore size Obj) : Prop where
  ev : Carries (fun t => t.request? ≠ none) (queueIndex size 0) s.ev
  nested : ∀ t ∈ (s.ev.frames 0).dropLast, t.request? = none
  saving : ∀ id obj, s.saving = some (id, obj) →
    (∃ r, (s.ev.frames 0).getLast? = some (.request r)) ∧ s.m_objects[id]? = none

theorem StoreOk.idle {s : ObjectStore size Obj} (h : StoreOk s) (hnil : s.ev.frames 0 = []) :
    s.saving = none := by
  cases hsaving : s.saving with
  | none => rfl
  | some x =>
    obtain ⟨⟨r, hlast⟩, -⟩ := h.saving x.1 x.2 hsaving
    rw [hnil] at hlast
    cases hlast

theorem update_frames {P : List α → Prop} {f : Nat → List α} (h : P (f 0)) (hl : k = 0 → P l) :
    P (Function.update f k l 0) := by
  rw [Function.update_apply]
  split
  · rename_i hk
    exact hl hk.symm
  · exact h

theorem last_cons {l : List α} (h : l.getLast? = some t) (t₀ : α) : (t₀ :: l).getLast? = some t := by
  cases l with
  | nil => cases h
  | cons t₁ l => rwa [List.getLast?_cons_cons]

def Nested (l : List (StoreTask Obj)) : Prop := ∀ t ∈ l.dropLast, t.request? = none

theorem Nested.cons {l : List (StoreTask Obj)} (h : Nested l) (ht : t₀.request? = none) : Nested (t₀ :: l) := by
  cases l with
  | nil => nofun
  | cons t₁ l =>
    rw [Nested, List.dropLast_cons_cons]
    exact List.forall_mem_cons.mpr ⟨ht, h⟩

theorem store_run_eq {s : ObjectStore size Obj} (hs : s.run a = some (s', es)) : ∃ ev des,
    (taskDistributor size (StoreTask Obj)).step s.ev a = some (ev, des) ∧
      ObjectStore.noteAll { s with ev := ev } des = (s', es) := by
  simp only [ObjectStore.run, Option.bind_eq_bind, Option.bind_eq_some_iff] at hs
  obtain ⟨⟨ev, des⟩, hstep, hs⟩ := hs
  exact ⟨ev, des, hstep, Option.some.inj hs⟩

theorem StoreOk.keep {s : ObjectStore size Obj} {ev : TaskDistributor size (StoreTask Obj)} (h : StoreOk s)
    (hev : Carries (fun t => t.request? ≠ none) (queueIndex size 0) ev)
    (hframes : ev.frames 0 = s.ev.frames 0) : StoreOk { s with ev := ev } := by
  refine ⟨hev, ?_, ?_⟩
  · rw [hframes]
    exact h.nested
  · rw [hframes]
    exact h.saving

theorem pending_of_waiting {s s' : ObjectStore size Obj}
    (h : s'.ev.waiting (queueIndex size 0) = s.ev.waiting (queueIndex size 0)) : s'.pending = s.pending := by
  rw [ObjectStore.pending, h, ObjectStore.pending]

theorem StoreOk.exec {s : ObjectStore size Obj} (hok : StoreOk s) (h : StoreInv tr s)
    (hstart : StartOnce s.ev a) (hworker : ∀ k, a ≠ .worker k)
    (hbegins : ∀ c j t, Begins c j t a → t.request? ≠ none → j = queueIndex size 0)
    (hinplace : ∀ c t index, a = .addTaskASAP c (some t) index → t.request? = none)
    (hs : s.run a = some (s', es)) : StoreOk s' ∧ StoreInv (tr ++ es) s' := by
  obtain ⟨ev, des, hstep, hnote⟩ := store_run_eq hs
  have hev := hok.ev.step hstart hstep hbegins fun c t index ha ht => (ht (hinplace c t index ha)).elim
  have hwaiting := waiting_step hok.ev.dist hstart hstep (queueIndex size 0)
  have hframes := taskDistributor_frames hstep
  generalize hf : ev.frames = f at hframes
  cases hframes with
  | executed ha | returned ha => exact (hworker _ ha).elim
  | nothing =>
    cases hnote
    refine ⟨hok.keep hev (by rw [hf]), h.silent (by rintro e ⟨⟩) (pending_of_waiting ?_) rfl rfl⟩
    simpa [Network.accepted, executed] using hwaiting.symm
  | refused c =>
    cases hnote
    refine ⟨hok.keep hev (by rw [hf]), h.silent ?_ (pending_of_waiting ?_) rfl rfl⟩
    · intro e he
      exact ⟨c, List.mem_singleton.mp he⟩
    · simpa [Network.accepted, executed] using hwaiting.symm
  | @inplace k t index ha =>
    cases hnote
    have ht := hinplace _ _ _ ha
    refine ⟨⟨hev, ?_, ?_⟩, h.silent (by rintro e ⟨⟩) (pending_of_waiting ?_) rfl rfl⟩
    · rw [hf]
      exact update_frames (P := Nested) hok.nested
        fun hk => hk ▸ Nested.cons hok.nested ht
    · intro id obj hsaving
      obtain ⟨⟨r, hlast⟩, habsent⟩ := hok.saving id obj hsaving
      refine ⟨⟨r, ?_⟩, habsent⟩
      rw [hf]
      exact update_frames (P := (·.getLast? = _)) hlast fun hk => hk ▸ last_cons hlast t
    · simpa [Network.accepted, executed] using hwaiting.symm
  | @accepted c i t _ hcall =>
    have hok' := hok.keep hev (by rw [hf])
    cases t with
    | request r =>
      cases hnote
      obtain rfl := hok.ev.calls c i _ hcall (by rintro ⟨⟩)
      refine ⟨hok', h.accepted c r ?_ rfl rfl⟩
      simp only [Network.accepted, executed, if_pos, List.nil_append] at hwaiting
      simp [ObjectStore.pending, ← hwaiting, StoreTask.request?]
    | other id =>
      cases hnote
      refine ⟨hok', h.silent (by rintro e ⟨⟩) ?_ rfl rfl⟩
      simp only [Network.accepted, executed, List.nil_append] at hwaiting
      rw [ObjectStore.pending, ← hwaiting, List.filterMap_append]
      split
      · exact List.append_nil _
      · exact List.append_nil _

theorem leave_ev (s : ObjectStore size Obj) (k : Nat) : (s.leave k).ev = s.ev := by
  unfold ObjectStore.leave
  split <;> rfl

theorem StoreOk.leave {s : ObjectStore size Obj} (hok : StoreOk s) (h : StoreInv tr s) (k : Nat) :
    StoreInv tr (s.leave k) ∧ ∀ id obj, (s.leave k).saving = some (id, obj) →
      (∃ r, (Function.update s.ev.frames k (s.ev.frames k).tail 0).getLast? = some (.request r)) ∧
        (s.leave k).m_objects[id]? = none := by
  unfold ObjectStore.leave
  split
  · rename_i r id obj _ hsaving
    exact ⟨h.stores hsaving (hok.saving id obj hsaving).2, nofun⟩
  · rename_i hno
    refine ⟨h, ?_⟩
    intro id obj hsaving
    obtain ⟨⟨r, hlast⟩, habsent⟩ := hok.saving id obj hsaving
    refine ⟨⟨r, update_frames (P := (·.getLast? = _)) hlast ?_⟩, habsent⟩
    rintro rfl
    cases hl : s.ev.frames 0 with
    | nil => simp [hl] at hlast
    | cons t l =>
      cases l with
      | nil =>
        rw [hl] at hlast
        cases hlast
        exact (hno r id obj (by rw [hl]; rfl) hsaving).elim
      | cons t' l => rwa [hl, List.getLast?_cons_cons] at hlast

theorem StoreOk.worker {s : ObjectStore size Obj} (hok : StoreOk s) (h : StoreInv tr s)
    (hs : (s.leave k).run (.worker k) = some (s', es)) : StoreOk s' ∧ StoreInv (tr ++ es) s' := by
  obtain ⟨hleft, hsaving⟩ := hok.leave h k
  obtain ⟨ev, des, hstep, hnote⟩ := store_run_eq hs
  rw [leave_ev] at hstep
  have hstart : StartOnce s.ev (.worker k) := trivial
  have hcarries := hok.ev.step hstart hstep (by rintro c j t ⟨⟩) (by rintro c t index ⟨⟩)
  have hwaiting := waiting_step hok.ev.dist hstart hstep (queueIndex size 0)
  have hshown := taskDistributor_shown hok.ev.dist hstep
  have hframes := taskDistributor_frames hstep
  generalize hf : ev.frames = f at hframes
  cases hframes with
  | @executed k' t ha hnil =>
    obtain rfl : k = k' := by cases ha; rfl
    have hk : k < mSize size := by
      cases hshown with
      | executed hk => exact hk
    have hsame : s.leave k = s := by
      unfold ObjectStore.leave
      rw [hnil]
      rfl
    rw [hsame] at hnote
    simp only [Network.accepted, executed, List.append_nil, queueIndex_zero] at hwaiting
    cases t with
    | request r =>
      obtain rfl : k = 0 := by
        have hi := hok.ev.waiting ⟨k, hk⟩ _ (executed_waited hok.ev.dist hstart hstep hk) (by rintro ⟨⟩)
        exact (congrArg Fin.val hi).trans (queueIndex_zero size)
      have hidle := hok.idle hnil
      have hpending : s.pending = r :: ObjectStore.pending { s with ev := ev } := by
        rw [ObjectStore.pending, hwaiting, if_pos rfl]
        rfl
      have hran := begin_ran { s with ev := ev } r
      simp only [ObjectStore.noteAll, ObjectStore.note, List.append_nil, Prod.mk.injEq] at hnote
      rw [hnote.1, hnote.2] at hran
      obtain ⟨hev, -⟩ := hran.apply hidle
      replace hev : s'.ev = ev := hev
      rw [← hev] at hcarries hf
      refine ⟨⟨hcarries, ?_, ?_⟩, h.ran hidle hpending rfl hidle hran⟩
      · rw [hf, Function.update_self]
        rintro t ⟨⟩
      · intro id obj hsaves
        rw [hf, Function.update_self]
        refine ⟨⟨r, rfl⟩, ?_⟩
        cases hran with
        | saves hnone =>
          cases hsaves
          exact hnone
        | _ => exact absurd (hidle.symm.trans hsaves) (by rintro ⟨⟩)
    | other id =>
      cases hnote
      refine ⟨⟨hcarries, ?_, ?_⟩, h.silent (by rintro e ⟨⟩) ?_ rfl rfl⟩
      · rw [hf]
        exact update_frames (P := Nested) hok.nested fun _ => by rintro t ⟨⟩
      · intro id' obj hsaving
        obtain ⟨⟨r, hlast⟩, habsent⟩ := hok.saving id' obj hsaving
        refine ⟨⟨r, ?_⟩, habsent⟩
        rw [hf]
        refine update_frames (P := (·.getLast? = _)) hlast ?_
        rintro rfl
        rw [hnil] at hlast
        cases hlast
      · rw [ObjectStore.pending, ObjectStore.pending, hwaiting]
        split <;> rfl
  | @returned k' ha =>
    obtain rfl : k = k' := by cases ha; rfl
    cases hnote
    have hpending : ObjectStore.pending { s.leave k with ev := ev } = (s.leave k).pending := by
      refine pending_of_waiting ?_
      rw [leave_ev]
      simpa [Network.accepted, executed] using hwaiting.symm
    refine ⟨⟨hcarries, ?_, ?_⟩, hleft.silent (by rintro e ⟨⟩) hpending rfl rfl⟩
    · rw [hf]
      refine update_frames (P := Nested) hok.nested ?_
      rintro rfl t ht
      rw [List.tail_dropLast.symm] at ht
      exact hok.nested t (List.mem_of_mem_tail ht)
    · intro id obj hsave
      dsimp only
      rw [hf]
      exact hsaving id obj hsave
  | inplace ha => cases ha
  | nothing ha => exact (ha k rfl).elim
  | refused c ha => exact (ha k rfl).elim
  | accepted ha => exact (ha k rfl).elim

theorem StoreOk.call {s : ObjectStore size Obj} (hok : StoreOk s) (h : StoreInv tr s)
    (hs : s.call c r = some (s', es)) : StoreOk s' ∧ StoreInv (tr ++ es) s' := by
  unfold ObjectStore.call at hs
  split at hs
  · refine StoreOk.exec (a := .addTaskOf c (some (.request r)) .io 0) hok h trivial nofun ?_ nofun hs
    intro c j t hbegins _
    cases hbegins with
    | addTaskOf hj => exact hj
  · obtain ⟨-, hs⟩ := Option.ite_none_right_eq_some.mp hs
    cases hs
    refine ⟨hok, h.silent ?_ rfl rfl rfl⟩
    intro e he
    exact ⟨c, List.mem_singleton.mp he⟩

def adds : DistAct (StoreTask Obj) → Option (StoreTask Obj)
  | .addTask _ t _ | .addTaskOf _ t _ _ | .addTaskASAP _ t _ => t
  | _ => none

theorem allows_other {s : ObjectStore size Obj} (hallow : s.allows a = true) (ha : adds a = some t) :
    t.request? = none := by
  cases t with
  | other id => rfl
  | request r =>
    cases a with
    | addTask _ t _ | addTaskOf _ t _ _ | addTaskASAP _ t _ =>
      cases ha
      cases hallow
    | _ => cases ha

theorem StoreOk.step {s : ObjectStore size Obj} (hok : StoreOk s) (h : StoreInv tr s)
    (hs : (objectStore size Obj).step s a = some (s', es)) : StoreOk s' ∧ StoreInv (tr ++ es) s' := by
  cases a with
  | start =>
    cases hs
    exact ⟨⟨hok.ev, hok.nested, hok.saving⟩, h.silent nofun rfl rfl rfl⟩
  | saveObject c id force obj onSave =>
    simp only [objectStore] at hs
    split at hs
    · exact hok.call h hs
    · obtain ⟨-, hs⟩ := Option.ite_none_right_eq_some.mp hs
      cases hs
      refine ⟨hok, h.silent ?_ rfl rfl rfl⟩
      intro e he
      exact ⟨c, List.mem_singleton.mp he⟩
  | findObject c id takeOrNot onFind => exact hok.call h hs
  | exec a =>
    obtain ⟨hallow, hs⟩ := Option.ite_none_right_eq_some.mp hs
    have hstart : StartOnce s.ev a := by
      cases a with
      | start => exact Option.isNone_iff_eq_none.mp hallow
      | _ => trivial
    cases a with
    | worker k => exact hok.worker h hs
    | _ =>
      refine hok.exec h hstart nofun ?_ ?_ hs
      · intro c j t hbegins ht
        cases hbegins <;> exact (ht (allows_other hallow rfl)).elim
      · intro c t index ha
        cases ha <;> exact allows_other hallow rfl

theorem storeOk_init : StoreOk (objectStore size Obj).init where
  ev := carries_new _ _
  nested _ h := absurd h List.not_mem_nil
  saving _ _ h := nomatch h

theorem storeInv_init : StoreInv [] (objectStore size Obj).init where
  order := rfl
  results := rfl
  content := by
    funext id
    rw [content_idle rfl]
    exact TreeMap.getElem?_emptyc
  owned := .nil

theorem storeInv_run (h : (objectStore size Obj).Run tr s) : StoreOk s ∧ StoreInv tr s := by
  refine h.invariant (I := fun tr s => StoreOk s ∧ StoreInv tr s) ⟨storeOk_init, storeInv_init⟩ ?_
  rintro tr s a s' es - ⟨hok, ih⟩ - hs
  exact hok.step ih hs

end

/-- The requests run in the order they are accepted, with the results and the
contents of one map, and each accepted object is pending, stored, handed over
or dropped, once. -/
theorem objectStore_keeps_objects (size : Nat) (Obj : Type) (tr : List (StoreEv Obj)) (s : ObjectStore size Obj)
    (h : (objectStore size Obj).Run tr s) : StoreKept tr s := by
  obtain ⟨hok, hkept⟩ := storeInv_run h
  refine ⟨hkept.order, hkept.results, hkept.content, ?_, hkept.owned⟩
  intro hnil id
  rw [← hkept.content, content_idle (hok.idle hnil)]

theorem objectStore_keeps_objects_run : ∃ tr s, (objectStore 1 String).Run tr s ∧
    acceptedStores tr = [.saveObject 5 true "link", .saveObject 5 false "other", .findObject 5 true true,
      .saveObject 6 false "next"] ∧
    results tr = [.saved true "link", .saved false "other", .found (some "link"), .saved true "next"] ∧
    s.saving = some (6, "next") ∧ StoreKept tr s := by
  have hr : ((objectStore 1 String).replay ⟨.new 1 (StoreTask String), false, ∅, none⟩
      [.exec .start, .exec .control, .exec .control, .findObject (.external 0) 5 true true, .start,
        .saveObject (.external 0) 5 true "link" true, .saveObject (.external 1) 5 false "other" true,
        .exec (.pushBack (.external 0)), .exec (.pushBack (.external 1)),
        .findObject (.external 0) 5 true true, .exec (.pushBack (.external 0)),
        .saveObject (.external 1) 6 false "next" true, .exec (.pushBack (.external 1)),
        .exec (.worker 0), .exec (.worker 0), .exec (.worker 0), .exec (.worker 0), .exec (.worker 0),
        .exec (.worker 0), .exec (.worker 0), .exec (.worker 0), .exec (.worker 0), .exec (.worker 0),
        .exec (.worker 0), .exec (.worker 0)]).isSome := rfl
  have hrun := Machine.steps_of_replay (Option.some_get hr).symm
  exact ⟨_, _, hrun, rfl, rfl, rfl, objectStore_keeps_objects 1 String _ _ hrun⟩

/-- A take without a callback: the object is at none of the places. -/
theorem objectStore_drops_taken : ∃ tr s, (objectStore 1 String).Run tr s ∧
    acceptedStores tr = [.saveObject 5 true "link", .findObject 5 true false] ∧
    ¬((acceptedStores tr).filterMap StoreRequest.saves).Perm (s.holds tr) := by
  have hr : ((objectStore 1 String).replay ⟨.new 1 (StoreTask String), false, ∅, none⟩
      [.exec .start, .exec .control, .exec .control, .start,
        .saveObject (.external 0) 5 true "link" true, .exec (.pushBack (.external 0)),
        .findObject (.external 0) 5 true false, .exec (.pushBack (.external 0)),
        .exec (.worker 0), .exec (.worker 0), .exec (.worker 0), .exec (.worker 0), .exec (.worker 0),
        .exec (.worker 0), .exec (.worker 0), .exec (.worker 0)]).isSome := rfl
  refine ⟨_, _, Machine.steps_of_replay (Option.some_get hr).symm, rfl, ?_⟩
  intro h
  have hlen : ["link"].length = [].length := h.length_eq
  cases hlen

end Andren.Network
