import Andren.Machine.Handles

/-!
# Who frees an SSL object

An `aSSL` frees the object that its pointer stands for, or passes the pointer on. An
`aSSLSocketIO` has an `aSSL`, and `shutdown`, which its destructor calls too, takes
the pointer out for one call of `SSL_shutdown` and keeps it nowhere. So no SSL object
is freed twice, and those are never freed on which `SSL_shutdown` was called. As long
as no `aSSLSocketIO` is shut down, destroyed or assigned to that still has one, each
is freed once or is yet to be (`ssl_freed_once`).
-/

namespace Andren.Base

open Machines

/-- The address, if not 0, and the SSL object that it was given for. -/
structure ASSL where
  m_ssl : Option (Nat × Nat)

structure SSLSocketIo where
  m_ssl : ASSL
  m_endType : Int

inductive SSLCall
  | SSL_free (p : Nat × Nat)
  | SSL_shutdown (p : Nat × Nat)

namespace SSLCall

def frees : SSLCall → List Nat
  | .SSL_free p => [p.2]
  | .SSL_shutdown _ => []

def shutsDown : SSLCall → List (Nat × Nat)
  | .SSL_free _ => []
  | .SSL_shutdown p => [p]

end SSLCall

namespace ASSL

def new : ASSL := ⟨none⟩

def valid (x : ASSL) : Bool := x.m_ssl.isSome

def takeSSL (x : ASSL) : Option (Nat × Nat) × ASSL := (x.m_ssl, ⟨none⟩)

def owns (x : ASSL) : List (Nat × Nat) := x.m_ssl.toList

end ASSL

namespace SSLSocketIo

def new : SSLSocketIo := ⟨.new, 0⟩

def valid (x : SSLSocketIo) : Bool := x.m_ssl.valid

def shutdown (x : SSLSocketIo) (ret : Int) : Int × SSLSocketIo × List SSLCall :=
  match x.m_ssl.takeSSL with
  | (some p, m_ssl) => (ret, { x with m_ssl }, [.SSL_shutdown p])
  | (none, _) => (0, x, [])

end SSLSocketIo

inductive SSLObject
  | ssl (x : ASSL)
  | io (x : SSLSocketIo)

namespace SSLObject

/-- The object itself, or what `reference` returns. -/
def assl : SSLObject → ASSL
  | .ssl x => x
  | .io x => x.m_ssl

def setSSL : SSLObject → ASSL → SSLObject
  | .ssl _, y => .ssl y
  | .io x, y => .io { x with m_ssl := y }

@[simp] theorem assl_setSSL (o : SSLObject) (y : ASSL) : (o.setSSL y).assl = y := by
  cases o <;> rfl

end SSLObject

/-- The objects in being, and the SSL objects in the hands of the caller. No pointer
is left to those in `lost`. -/
structure SSLHeap where
  heap : HandleTable Nat
  taken : List (Nat × Nat)
  lost : List (Nat × Nat)
  objects : List SSLObject

/-- `ret` is what `SSL_shutdown` returns, if it is called. -/
inductive SSLAct
  /-- The caller calls `SSL_new` itself. -/
  | new (addr : Nat)
  /-- `aSSL()`, and `aSSL(ssl_ctx)` when `SSL_new` fails. -/
  | construct
  /-- `aSSL(ssl_ctx)`. -/
  | fromContext (addr : Nat)
  /-- `aSSL(ssl)` of an object in the hands of the caller. -/
  | adopt (j : Nat)
  | moveConstruct (i : Nat)
  | moveAssign (i j : Nat)
  | takeSSL (i : Nat)
  | constructIo
  | moveConstructIo (i : Nat)
  | moveAssignIo (i j : Nat) (ret : Int)
  | upgradeFromSSL (i j : Nat)
  | shutdown (i : Nat) (ret : Int)
  | destroy (i : Nat) (ret : Int)

namespace SSLHeap

def free (s : SSLHeap) (x : ASSL) : SSLHeap × List SSLCall :=
  match x.m_ssl with
  | some p => ({ s with heap := s.heap.release p.1 }, [.SSL_free p])
  | none => (s, [])

/-- `aSSL::operator=`. The destructor leaves the pointer in place, where an assignment
to itself finds it. -/
def assign (s : SSLHeap) (i j : Nat) : Option (SSLHeap × List SSLCall) := do
  let x ← s.objects[i]?
  let y ← s.objects[j]?
  let (s, es) := s.free x.assl
  pure ({ s with objects := (s.objects.set i (x.setSSL y.assl)).set j (y.setSSL .new) }, es)

def shutdown (s : SSLHeap) (i : Nat) (x : SSLSocketIo) (ret : Int) : SSLSocketIo × SSLHeap × List SSLCall :=
  let (_, x, es) := x.shutdown ret
  (x, { s with objects := s.objects.set i (.io x), lost := s.lost ++ es.flatMap SSLCall.shutsDown }, es)

def destructorIo (s : SSLHeap) (i : Nat) (x : SSLSocketIo) (ret : Int) : SSLHeap × List SSLCall :=
  let (x, s, es) := s.shutdown i x ret
  let (s, es') := s.free x.m_ssl
  (s, es ++ es')

end SSLHeap

def sslHeap : Machine SSLHeap SSLAct SSLCall where
  init := ⟨.empty, [], [], []⟩
  step s
    | .new addr => if addr = 0 then none else do
      let (heap, k) ← s.heap.give addr
      pure ({ s with heap := heap, taken := (addr, k) :: s.taken }, [])
    | .construct => some ({ s with objects := s.objects ++ [.ssl .new] }, [])
    | .fromContext addr => if addr = 0 then none else do
      let (heap, k) ← s.heap.give addr
      pure ({ s with heap := heap, objects := s.objects ++ [.ssl ⟨some (addr, k)⟩] }, [])
    | .adopt j => do
      let p ← s.taken[j]?
      pure ({ s with taken := s.taken.eraseIdx j, objects := s.objects ++ [.ssl ⟨some p⟩] }, [])
    | .moveConstruct i => do
      let y ← s.objects[i]?
      pure ({ s with objects := s.objects.set i (y.setSSL .new) ++ [.ssl y.assl] }, [])
    | .moveAssign i j => s.assign i j
    | .takeSSL i => do
      let x ← s.objects[i]?
      let (p, m_ssl) := x.assl.takeSSL
      pure ({ s with taken := p.toList ++ s.taken, objects := s.objects.set i (x.setSSL m_ssl) }, [])
    | .constructIo => some ({ s with objects := s.objects ++ [.io .new] }, [])
    | .moveConstructIo i => match s.objects[i]? with
      | some (.io y) =>
        SSLHeap.assign { s with objects := s.objects ++ [.io ⟨.new, y.m_endType⟩] } s.objects.length i
      | _ => none
    | .moveAssignIo i j ret => match s.objects[i]?, s.objects[j]? with
      | some (.io x), some (.io y) => do
        let (s, es) := s.destructorIo i x ret
        let (s, es') ← SSLHeap.assign { s with objects := s.objects.set i (.io ⟨.new, y.m_endType⟩) } i j
        pure (s, es ++ es')
      | _, _ => none
    | .upgradeFromSSL i j => match s.objects[i]? with
      | some (.io _) => s.assign i j
      | _ => none
    | .shutdown i ret => match s.objects[i]? with
      | some (.io x) => some (s.shutdown i x ret).2
      | _ => none
    | .destroy i ret => match s.objects[i]? with
      | some (.ssl x) =>
        let (s, es) := s.free x
        some ({ s with objects := s.objects.eraseIdx i }, es)
      | some (.io x) =>
        let (s, es) := s.destructorIo i x ret
        some ({ s with objects := s.objects.eraseIdx i }, es)
      | none => none

namespace SSLHeap

def ssls (s : SSLHeap) : List ASSL := s.objects.map SSLObject.assl

def held (s : SSLHeap) : List (Nat × Nat) := s.taken ++ (s.lost ++ s.ssls.flatMap ASSL.owns)

def released (s : SSLHeap) (i : Nat) : Bool := match s.objects[i]? with
  | some (.io x) => !x.valid
  | _ => true

/-- No `aSSLSocketIO` that has an SSL object is shut down, assigned to or destroyed. -/
def careful (s : SSLHeap) : SSLAct → Bool
  | .shutdown i _ | .moveAssignIo i _ _ | .destroy i _ => s.released i
  | _ => true

end SSLHeap

/-- Each SSL object was freed once, or is in the hands of the caller, or an object has
it that is yet to free it. -/
def FreedOnce (tr : List SSLCall) (s : SSLHeap) : Prop :=
  ∀ k < s.heap.made, (tr.flatMap SSLCall.frees).count k + (s.taken.map Prod.snd).count k +
    ((s.ssls.flatMap ASSL.owns).map Prod.snd).count k = 1

section

variable {s s' s'' : SSLHeap} {es es' : List SSLCall}

-- ---------------------------------------------------------------------------
-- What a step does to the account
-- ---------------------------------------------------------------------------

/-- The account is kept, and what was shut down is lost. -/
structure SSLAccounted (s s' : SSLHeap) (es : List SSLCall) : Prop where
  ledger : ∀ {gone}, Ledger s.heap gone s.held → Ledger s'.heap (gone ++ es.flatMap SSLCall.frees) s'.held
  lost : s'.lost = s.lost ++ es.flatMap SSLCall.shutsDown

theorem SSLAccounted.trans (h : SSLAccounted s s' es) (h' : SSLAccounted s' s'' es') :
    SSLAccounted s s'' (es ++ es') := by
  refine ⟨fun hledger => ?_, ?_⟩
  · rw [List.flatMap_append, ← List.append_assoc]
    exact h'.ledger (h.ledger hledger)
  · rw [h'.lost, h.lost, List.flatMap_append, List.append_assoc]

theorem accounted_quiet (hledger : LedgerStep s.heap s.held s'.heap s'.held []) (hlost : s'.lost = s.lost) :
    SSLAccounted s s' [] :=
  ⟨fun h => h.step hledger, hlost.trans (List.append_nil _).symm⟩

theorem count_held (s : SSLHeap) (p : Nat × Nat) :
    s.held.count p = s.taken.count p + (s.lost.count p + (s.ssls.flatMap ASSL.owns).count p) := by
  rw [SSLHeap.held, List.count_append, List.count_append]

theorem accounted_free {x : ASSL} {objects : List SSLObject} (hfree : s.free x = (s', es))
    (hrest : (x.owns ++ (objects.map SSLObject.assl).flatMap ASSL.owns).Perm (s.ssls.flatMap ASSL.owns)) :
    SSLAccounted s { s' with objects := objects } es := by
  rcases x with ⟨_ | ⟨addr, k⟩⟩
  · cases hfree
    exact accounted_quiet (.pass ((hrest.append_left _).append_left _)) rfl
  · cases hfree
    refine ⟨fun h => h.step (.release ?_), (List.append_nil _).symm⟩
    refine List.perm_iff_count.mpr fun q => ?_
    have hcount := hrest.count_eq q
    rw [List.count_append] at hcount
    rw [count_held, ← List.singleton_append, List.count_append, count_held, ← hcount]
    simp only [ASSL.owns, SSLHeap.ssls, Option.toList_some]
    omega

theorem free_objects {x : ASSL} (hfree : s.free x = (s', es)) : s'.objects = s.objects := by
  rcases x with ⟨_ | p⟩ <;> cases hfree <;> rfl

theorem accounted_assign (hs : s.assign i j = some (s', es)) : SSLAccounted s s' es := by
  obtain ⟨x, hx, hs⟩ := Option.bind_eq_some_iff.mp hs
  obtain ⟨y, hy, hs⟩ := Option.bind_eq_some_iff.mp hs
  rcases hfree : s.free x.assl with ⟨s₁, es₁⟩
  rw [hfree] at hs
  cases hs
  refine accounted_free hfree ?_
  rw [free_objects hfree, List.map_set, List.map_set, SSLObject.assl_setSSL, SSLObject.assl_setSSL]
  exact flatMap_move ASSL.owns (by simp [hx]) (by simp [hy]) rfl

theorem shutdown_eq (x : SSLSocketIo) (ret : Int) :
    (x.shutdown ret).2 = (⟨.new, x.m_endType⟩, x.m_ssl.owns.map .SSL_shutdown) := by
  rcases x with ⟨⟨_ | p⟩, endType⟩ <;> rfl

theorem shutsDown_shutdown (ps : List (Nat × Nat)) :
    (ps.map SSLCall.SSL_shutdown).flatMap SSLCall.shutsDown = ps := by
  rw [List.flatMap_map]
  exact List.flatMap_singleton' ps

theorem frees_shutdown (ps : List (Nat × Nat)) :
    (ps.map SSLCall.SSL_shutdown).flatMap SSLCall.frees = [] := by
  rw [List.flatMap_map]
  exact List.flatMap_eq_nil_iff.mpr fun _ _ => rfl

theorem shutdown_heap_eq (s : SSLHeap) (i : Nat) (x : SSLSocketIo) (ret : Int) :
    s.shutdown i x ret = (⟨.new, x.m_endType⟩,
      { s with objects := s.objects.set i (.io ⟨.new, x.m_endType⟩), lost := s.lost ++ x.m_ssl.owns },
      x.m_ssl.owns.map .SSL_shutdown) := by
  simp only [SSLHeap.shutdown, shutdown_eq, shutsDown_shutdown]

theorem destructorIo_eq (s : SSLHeap) (i : Nat) (x : SSLSocketIo) (ret : Int) :
    s.destructorIo i x ret = (s.shutdown i x ret).2 := by
  simp only [SSLHeap.destructorIo, shutdown_heap_eq, SSLHeap.free, ASSL.new, List.append_nil]

theorem accounted_shutdown {x : ASSL} {objects : List SSLObject}
    (hrest : (x.owns ++ (objects.map SSLObject.assl).flatMap ASSL.owns).Perm (s.ssls.flatMap ASSL.owns)) :
    SSLAccounted s { s with objects := objects, lost := s.lost ++ x.owns } (x.owns.map .SSL_shutdown) := by
  refine ⟨fun h => ?_, by rw [shutsDown_shutdown]⟩
  rw [frees_shutdown]
  refine h.step (.pass (List.perm_iff_count.mpr fun q => ?_))
  have hcount := hrest.count_eq q
  rw [List.count_append] at hcount
  rw [count_held, count_held, ← hcount, List.count_append, SSLHeap.ssls]
  simp only
  omega

theorem ssls_take {y : SSLObject} (hx : s.ssls[i]? = some x) (hy : y.assl = .new) :
    (x.owns ++ ((s.objects.set i y).map SSLObject.assl).flatMap ASSL.owns).Perm (s.ssls.flatMap ASSL.owns) := by
  rw [List.map_set, hy]
  exact (flatMap_take ASSL.owns hx rfl).symm

theorem ssls_get {i : Nat} {o : SSLObject} (hx : s.objects[i]? = some o) : s.ssls[i]? = some o.assl := by
  rw [SSLHeap.ssls, List.getElem?_map, hx]
  rfl

theorem ssls_erase (hx : s.objects[i]? = some o) :
    (o.assl.owns ++ ((s.objects.eraseIdx i).map SSLObject.assl).flatMap ASSL.owns).Perm
      (s.ssls.flatMap ASSL.owns) := by
  rw [← List.eraseIdx_map]
  exact (flatMap_eraseIdx ASSL.owns (ssls_get hx)).symm

theorem ssls_concat (s : SSLHeap) (o : SSLObject) :
    ((s.objects ++ [o]).map SSLObject.assl).flatMap ASSL.owns = s.ssls.flatMap ASSL.owns ++ o.assl.owns := by
  rw [List.map_append, List.flatMap_append]
  exact congrArg _ (List.append_nil _)

theorem accounted_concat (s : SSLHeap) {o : SSLObject} (ho : o.assl.owns = []) :
    SSLAccounted s { s with objects := s.objects ++ [o] } [] := by
  refine accounted_quiet (.pass (.of_eq ?_)) rfl
  rw [SSLHeap.held, SSLHeap.ssls, ssls_concat, ho, List.append_nil]
  rfl

theorem sslHeap_step (hs : sslHeap.step s a = some (s', es)) : SSLAccounted s s' es := by
  cases a with
  | new addr =>
    obtain ⟨-, hs⟩ := Option.ite_none_left_eq_some.mp hs
    obtain ⟨⟨heap, k⟩, hgive, hs⟩ := Option.bind_eq_some_iff.mp hs
    cases hs
    exact accounted_quiet (.give hgive (.refl _)) rfl
  | construct | constructIo =>
    cases hs
    exact accounted_concat s rfl
  | fromContext addr =>
    obtain ⟨-, hs⟩ := Option.ite_none_left_eq_some.mp hs
    obtain ⟨⟨heap, k⟩, hgive, hs⟩ := Option.bind_eq_some_iff.mp hs
    cases hs
    refine accounted_quiet (.give hgive ?_) rfl
    rw [SSLHeap.held, SSLHeap.ssls, ssls_concat, ← List.append_assoc, ← List.append_assoc]
    rw [SSLHeap.held, ← List.append_assoc]
    exact List.perm_append_singleton _ _
  | adopt j =>
    obtain ⟨p, hp, hs⟩ := Option.bind_eq_some_iff.mp hs
    cases hs
    refine accounted_quiet (.pass ?_) rfl
    refine List.perm_iff_count.mpr fun q => ?_
    have hcount := (perm_eraseIdx hp).count_eq q
    rw [← List.singleton_append, List.count_append] at hcount
    rw [count_held, count_held, SSLHeap.ssls, ssls_concat, List.count_append, hcount]
    simp only [SSLObject.assl, ASSL.owns, Option.toList_some]
    omega
  | moveConstruct i =>
    obtain ⟨y, hy, hs⟩ := Option.bind_eq_some_iff.mp hs
    cases hs
    refine accounted_quiet (.pass ((List.Perm.append_left _ ?_).append_left _)) rfl
    rw [SSLHeap.ssls, List.map_append, List.flatMap_append, List.map_singleton, List.flatMap_singleton]
    have htake := ssls_take (y := y.setSSL .new) (ssls_get hy) (y.assl_setSSL .new)
    exact List.perm_append_comm.trans htake
  | moveAssign i j => exact accounted_assign hs
  | takeSSL i =>
    obtain ⟨x, hx, hs⟩ := Option.bind_eq_some_iff.mp hs
    cases hs
    have htake := ssls_take (y := x.setSSL ⟨none⟩) (ssls_get hx) (x.assl_setSSL _)
    refine accounted_quiet (.pass (List.perm_iff_count.mpr fun q => ?_)) rfl
    have hcount := htake.count_eq q
    rw [List.count_append] at hcount
    rw [count_held, count_held, ← hcount, SSLHeap.ssls, List.count_append, ASSL.owns]
    simp only
    omega
  | moveConstructIo i =>
    simp only [sslHeap] at hs
    split at hs
    next y hy =>
      exact (accounted_concat s rfl).trans (accounted_assign hs)
    · cases hs
  | moveAssignIo i j ret =>
    simp only [sslHeap] at hs
    split at hs
    next x y hx hy =>
      rw [destructorIo_eq, shutdown_heap_eq] at hs
      obtain ⟨⟨s₁, es₁⟩, hassign, hs⟩ := Option.bind_eq_some_iff.mp hs
      cases hs
      refine (accounted_shutdown ?_).trans (accounted_assign hassign)
      simp only [List.set_set]
      exact ssls_take (ssls_get hx) rfl
    · cases hs
  | upgradeFromSSL i j =>
    simp only [sslHeap] at hs
    split at hs
    · exact accounted_assign hs
    · cases hs
  | shutdown i ret =>
    simp only [sslHeap] at hs
    split at hs
    next x hx =>
      rw [shutdown_heap_eq] at hs
      cases hs
      exact accounted_shutdown (ssls_take (ssls_get hx) rfl)
    · cases hs
  | destroy i ret =>
    simp only [sslHeap] at hs
    split at hs
    next x hx =>
      rcases hfree : s.free x with ⟨s₁, es₁⟩
      rw [hfree] at hs
      cases hs
      refine accounted_free hfree ?_
      rw [free_objects hfree]
      exact ssls_erase hx
    next x hx =>
      rw [destructorIo_eq, shutdown_heap_eq] at hs
      cases hs
      refine accounted_shutdown (x := x.m_ssl) ?_
      rw [List.eraseIdx_set_eq]
      exact ssls_erase hx
    · cases hs

-- ---------------------------------------------------------------------------
-- What a step loses
-- ---------------------------------------------------------------------------

theorem free_shutsDown {x : ASSL} (hfree : s.free x = (s', es)) : es.flatMap SSLCall.shutsDown = [] := by
  rcases x with ⟨_ | p⟩ <;> cases hfree <;> rfl

theorem assign_shutsDown (hs : s.assign i j = some (s', es)) : es.flatMap SSLCall.shutsDown = [] := by
  obtain ⟨x, -, hs⟩ := Option.bind_eq_some_iff.mp hs
  obtain ⟨y, -, hs⟩ := Option.bind_eq_some_iff.mp hs
  rcases hfree : s.free x.assl with ⟨s₁, es₁⟩
  rw [hfree] at hs
  cases hs
  exact free_shutsDown hfree

theorem released_io {x : SSLSocketIo} (hx : s.objects[i]? = some (.io x)) :
    s.released i = true ↔ x.m_ssl.owns = [] := by
  simp only [SSLHeap.released, hx, SSLSocketIo.valid, ASSL.valid, ASSL.owns]
  cases x.m_ssl.m_ssl <;> simp

theorem careful_iff (hs : sslHeap.step s a = some (s', es)) :
    s.careful a = true ↔ es.flatMap SSLCall.shutsDown = [] := by
  have hcareful : ∀ {p : Prop}, p → (true = true ↔ p) := fun hp => ⟨fun _ => hp, fun _ => rfl⟩
  cases a with
  | new addr | fromContext addr =>
    obtain ⟨-, hs⟩ := Option.ite_none_left_eq_some.mp hs
    obtain ⟨⟨heap, k⟩, -, hs⟩ := Option.bind_eq_some_iff.mp hs
    cases hs
    exact hcareful rfl
  | construct | constructIo =>
    cases hs
    exact hcareful rfl
  | adopt i | moveConstruct i | takeSSL i =>
    obtain ⟨x, -, hs⟩ := Option.bind_eq_some_iff.mp hs
    cases hs
    exact hcareful rfl
  | moveAssign i j => exact hcareful (assign_shutsDown hs)
  | moveConstructIo i | upgradeFromSSL i j =>
    simp only [sslHeap] at hs
    split at hs
    · exact hcareful (assign_shutsDown hs)
    · cases hs
  | moveAssignIo i j ret =>
    simp only [sslHeap] at hs
    split at hs
    next x y hx hy =>
      rw [destructorIo_eq, shutdown_heap_eq] at hs
      obtain ⟨⟨s₁, es₁⟩, hassign, hs⟩ := Option.bind_eq_some_iff.mp hs
      cases hs
      rw [List.flatMap_append, shutsDown_shutdown, assign_shutsDown hassign, List.append_nil]
      exact released_io hx
    · cases hs
  | shutdown i ret =>
    simp only [sslHeap] at hs
    split at hs
    next x hx =>
      rw [shutdown_heap_eq] at hs
      cases hs
      rw [shutsDown_shutdown]
      exact released_io hx
    · cases hs
  | destroy i ret =>
    simp only [sslHeap] at hs
    split at hs
    next x hx =>
      rcases hfree : s.free x with ⟨s₁, es₁⟩
      rw [hfree] at hs
      cases hs
      simp only [SSLHeap.careful, SSLHeap.released, hx, free_shutsDown hfree]
    next x hx =>
      rw [destructorIo_eq, shutdown_heap_eq] at hs
      cases hs
      rw [shutsDown_shutdown]
      exact released_io hx
    · cases hs

-- ---------------------------------------------------------------------------
-- Runs
-- ---------------------------------------------------------------------------

/-- In every run each SSL object is freed or held, or lost, and this just when it was
shut down. -/
theorem sslHeap_run (h : sslHeap.RunIf ok tr s) :
    Ledger s.heap (tr.flatMap SSLCall.frees) s.held ∧ s.lost = tr.flatMap SSLCall.shutsDown := by
  refine h.invariant (I := fun tr s =>
    Ledger s.heap (tr.flatMap SSLCall.frees) s.held ∧ s.lost = tr.flatMap SSLCall.shutsDown) ⟨ledger_empty, rfl⟩ ?_
  rintro tr s a s' es _ ⟨hledger, hlost⟩ _ hs
  have hstep := sslHeap_step hs
  rw [List.flatMap_append, List.flatMap_append, hstep.lost, hlost]
  exact ⟨hstep.ledger hledger, rfl⟩

theorem freedOnce_iff_lost (h : sslHeap.RunIf ok tr s) : FreedOnce tr s ↔ s.lost = [] := by
  have hcount := (sslHeap_run h).1.count
  simp only [SSLHeap.held, List.map_append, List.count_append] at hcount
  constructor
  · intro hfreed
    refine List.eq_nil_iff_forall_not_mem.mpr fun p hp => ?_
    have hmade := (sslHeap_run h).1.held_lt (List.mem_append_right _ (List.mem_append_left _ hp))
    have hpos := List.count_pos_iff.mpr (List.mem_map_of_mem (f := Prod.snd) hp)
    have hone := hfreed p.2 hmade
    have hall := hcount p.2
    rw [if_pos hmade] at hall
    omega
  · intro hlost k hk
    have hall := hcount k
    rw [hlost, if_pos hk, List.map_nil, List.count_nil] at hall
    omega

/-- What a careless step loses stays lost. -/
theorem not_freedOnce_of_careless (h : sslHeap.RunIf ok tr s) (hs : sslHeap.step s a = some (s', es))
    (hcareless : s.careful a = false) (h' : sslHeap.Steps ok s' tr' s'') (hok : ok s a) :
    ¬FreedOnce (tr ++ es ++ tr') s'' := by
  have hrun := (h.step hok hs).trans h'
  rw [freedOnce_iff_lost hrun, (sslHeap_run hrun).2, List.flatMap_append, List.flatMap_append]
  intro hlost
  have hes := (List.append_eq_nil_iff.mp (List.append_eq_nil_iff.mp hlost).1).2
  exact absurd ((careful_iff hs).mpr hes) (ne_true_of_eq_false hcareless)

theorem ssl_freed_once (h : sslHeap.RunIf (fun s a => s.careful a = true) tr s) : FreedOnce tr s := by
  rw [freedOnce_iff_lost h]
  refine h.state_invariant (I := fun s => s.lost = []) rfl ?_
  intro s a s' es hlost hcareful hs
  rw [(sslHeap_step hs).lost, hlost, (careful_iff hs).mp hcareful]
  rfl

theorem ssl_freed_once_moved : ∃ tr s, sslHeap.RunIf (fun s a => s.careful a = true) tr s ∧
    tr = [.SSL_free (8, 0)] ∧ s.heap.made = 1 ∧ s.objects = [] ∧ FreedOnce tr s := by
  have hr : ((sslHeap.only fun s a => s.careful a = true).replay sslHeap.init [.fromContext 8, .constructIo,
      .upgradeFromSSL 1 0, .moveConstructIo 1, .moveAssign 0 2, .destroy 2 0, .destroy 1 0,
      .destroy 0 0]).isSome := rfl
  have hrun := Machine.steps_of_replay_only (Option.some_get hr).symm
  exact ⟨_, _, hrun, rfl, rfl, rfl, ssl_freed_once hrun⟩

/-- An `aSSLSocketIO` is destroyed with its SSL object, as that of every connection
is: it is not freed, and no object is left. -/
theorem ssl_leaks : ∃ tr s, sslHeap.Run tr s ∧ tr = [.SSL_shutdown (8, 0)] ∧ s.heap.made = 1 ∧ s.taken = [] ∧
    s.objects = [] ∧ ¬FreedOnce tr s := by
  have hr : (sslHeap.replay sslHeap.init [.fromContext 8, .constructIo, .upgradeFromSSL 1 0, .destroy 1 0,
      .destroy 0 0]).isSome := rfl
  have hrun := Machine.steps_of_replay (Option.some_get hr).symm
  refine ⟨_, _, hrun, rfl, rfl, rfl, rfl, fun h => ?_⟩
  exact absurd (h 0 (by decide)) (by decide)

end

end Andren.Base
