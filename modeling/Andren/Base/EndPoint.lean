import Andren.Base.ArchiveDecompress
import Andren.Machine.Cells
import Andren.Machine.Decimal

/-!
# IPv4 end points

An `EndPointIPV4` keeps a socket address in memory of its own. It is set from a text and a
port and read back as such; `sockAddrIn_round_trip` says which texts are accepted and what is
read, and `getSockAddrIn_round_trip` that what is read sets the same address again.

The copies allocate and copy, the moves exchange pointers with a temporary end point. Their
users may take end points for values all the same (`endPoints_are_values`).
-/

namespace Andren.Base

open Machines

/-- Its bytes are in network order. -/
structure InAddr where
  a : UInt8
  b : UInt8
  c : UInt8
  d : UInt8
  deriving DecidableEq

def INADDR_ANY : InAddr := ⟨0, 0, 0, 0⟩

def AF_INET : UInt16 := 2

structure SockaddrIn where
  sin_family : UInt16
  sin_port : UInt16
  sin_addr : InAddr
  sin_zero : UInt64
  deriving DecidableEq

def SockaddrIn.zero : SockaddrIn := ⟨0, 0, INADDR_ANY, 0⟩

/-- On a little-endian machine the bytes are exchanged. -/
def htons (hostshort : UInt16) : UInt16 := UInt16.ofNat (hostshort.toNat % 256 * 256 + hostshort.toNat / 256)

def ntohs : UInt16 → UInt16 := htons

theorem ntohs_htons (p : UInt16) : ntohs (htons p) = p := by
  refine UInt16.toNat_inj.mp ?_
  have hp := p.toNat_lt
  have hlt : p.toNat % 256 * 256 + p.toNat / 256 < 2 ^ 16 := by omega
  have hlow : (p.toNat % 256 * 256 + p.toNat / 256) % 256 = p.toNat / 256 := by omega
  have hhigh : (p.toNat % 256 * 256 + p.toNat / 256) / 256 = p.toNat % 256 := by omega
  rw [ntohs, htons, htons, UInt16.toNat_ofNat', UInt16.toNat_ofNat', Nat.mod_eq_of_lt hlt, hlow, hhigh,
    Nat.div_add_mod', Nat.mod_eq_of_lt hp]

def inet_pton (src : Bytes) : Option InAddr :=
  match src.foldlM (Numbers.read DOT 4 255) .empty with
  | some ⟨[a, b, c], some d⟩ => some ⟨.ofNat a, .ofNat b, .ofNat c, .ofNat d⟩
  | _ => none

def inet_ntop (src : InAddr) : Bytes := Numbers.text DOT ⟨[src.a.toNat, src.b.toNat, src.c.toNat], some src.d.toNat⟩

def ANY : Bytes := [97, 110, 121]

/-- With `ndebug` the assertion is not compiled, and otherwise it ends the program. -/
def setSockAddrIn (ndebug : Bool) (handle : SockaddrIn) (ip : Bytes) (port : Int) : Option SockaddrIn := do
  let handle ←
    if ip = ANY ∨ ip = [] then some { handle with sin_addr := INADDR_ANY }
    else match inet_pton (c_str ip) with
      | some sin_addr => some { handle with sin_addr }
      | none => if ndebug then some handle else none
  pure { handle with sin_family := AF_INET, sin_port := htons (UInt16.ofNat (port % 65536).toNat) }

def getSockAddrIn (handle : SockaddrIn) : Bytes × Int :=
  (if handle.sin_addr = INADDR_ANY then ANY else inet_ntop handle.sin_addr, (ntohs handle.sin_port).toNat)

-- ---------------------------------------------------------------------------
-- Addresses as text
-- ---------------------------------------------------------------------------

theorem inet_pton_iff : inet_pton src = some x ↔ src = inet_ntop x := by
  have hsep : ¬IsDigit DOT := by decide
  unfold inet_pton inet_ntop
  constructor
  · intro h
    split at h
    · rename_i a b c d hread
      obtain ⟨hok, htext⟩ := (Numbers.reads_iff hsep (by decide) src).mp hread
      cases h
      have ha := hok.done a (by simp)
      have hb := hok.done b (by simp)
      have hc := hok.done c (by simp)
      have hd := hok.cur d rfl
      simp only [UInt8.toNat_ofNat']
      rw [htext, Nat.mod_eq_of_lt (by omega), Nat.mod_eq_of_lt (by omega), Nat.mod_eq_of_lt (by omega),
        Nat.mod_eq_of_lt (by omega)]
    · cases h
  · rintro rfl
    have hok : Numbers.Ok 4 255 ⟨[x.a.toNat, x.b.toNat, x.c.toNat], some x.d.toNat⟩ := by
      refine ⟨?_, ?_, by simp⟩
      · intro n hn
        simp only [List.mem_cons, List.not_mem_nil, or_false] at hn
        rcases hn with rfl | rfl | rfl
        · exact Nat.le_of_lt_succ x.a.toNat_lt
        · exact Nat.le_of_lt_succ x.b.toNat_lt
        · exact Nat.le_of_lt_succ x.c.toNat_lt
      · rintro n ⟨⟩
        exact Nat.le_of_lt_succ x.d.toNat_lt
    rw [(Numbers.reads_iff hsep (by decide) _).mpr ⟨hok, rfl⟩]
    simp

theorem inet_ntop_inj (h : inet_ntop x = inet_ntop y) : x = y :=
  Option.some.inj ((inet_pton_iff.mpr rfl).symm.trans (inet_pton_iff.mpr h))

inductive Shows (ip : Bytes) : Bytes → Prop
  | any : ip = ANY ∨ ip = [] → Shows ip ANY
  | zero : c_str ip = inet_ntop INADDR_ANY → Shows ip ANY
  | quad : x ≠ INADDR_ANY → c_str ip = inet_ntop x → Shows ip (c_str ip)

theorem getSockAddrIn_set (x : SockaddrIn) (family : UInt16) (a : InAddr) (port : Int) :
    getSockAddrIn { x with
      sin_family := family, sin_port := htons (UInt16.ofNat (port % 65536).toNat), sin_addr := a } =
      (if a = INADDR_ANY then ANY else inet_ntop a, port % 65536) := by
  have hlt : (port % 65536).toNat < 65536 := by omega
  have hnat : (ntohs (htons (UInt16.ofNat (port % 65536).toNat))).toNat = (port % 65536).toNat := by
    rw [ntohs_htons, UInt16.toNat_ofNat', Nat.mod_eq_of_lt hlt]
  simp only [getSockAddrIn, hnat]
  rw [Int.toNat_of_nonneg (by omega)]

theorem any_ne_ntop (ip : Bytes) (hip : ip = ANY ∨ ip = []) (x : InAddr) : c_str ip ≠ inet_ntop x := by
  intro h
  have hread := inet_pton_iff.mpr h
  rcases hip with rfl | rfl <;> cases hread

/-- An address is set from a text and a port just when the text is `any` or empty or, up to
its first NUL, four numbers with dots; it is read back in the same words, or as `any`, and with the port
modulo 2^16. -/
theorem sockAddrIn_round_trip (x : SockaddrIn) (ip : Bytes) (port : Int) (t : Bytes) (p : Int) :
    (setSockAddrIn false x ip port).map getSockAddrIn = some (t, p) ↔ Shows ip t ∧ p = port % 65536 := by
  unfold setSockAddrIn
  by_cases hany : ip = ANY ∨ ip = []
  · simp only [if_pos hany, Option.bind_eq_bind, Option.bind_some, Option.pure_def, Option.map_some,
      getSockAddrIn_set, if_true, Option.some.injEq, Prod.mk.injEq]
    constructor
    · rintro ⟨rfl, rfl⟩
      exact ⟨.any hany, rfl⟩
    · rintro ⟨hshows, rfl⟩
      refine ⟨?_, rfl⟩
      cases hshows with
      | any => rfl
      | zero => rfl
      | quad _ hquad => exact absurd hquad (any_ne_ntop ip hany _)
  · rw [if_neg hany]
    cases hpton : inet_pton (c_str ip) with
    | none =>
      simp only [Bool.false_eq_true, if_false, Option.bind_eq_bind, Option.bind_none, Option.map_none]
      refine ⟨nofun, ?_⟩
      rintro ⟨hshows, -⟩
      cases hshows with
      | any h => exact absurd h hany
      | zero hquad => exact nomatch hpton.symm.trans (inet_pton_iff.mpr hquad)
      | quad _ hquad => exact nomatch hpton.symm.trans (inet_pton_iff.mpr hquad)
    | some a =>
      have hntop := inet_pton_iff.mp hpton
      simp only [Option.bind_eq_bind, Option.bind_some, Option.pure_def, Option.map_some, getSockAddrIn_set,
        Option.some.injEq, Prod.mk.injEq]
      constructor
      · rintro ⟨rfl, rfl⟩
        refine ⟨?_, rfl⟩
        split
        · rename_i hzero
          exact .zero (hzero ▸ hntop)
        · rename_i hne
          exact hntop ▸ .quad hne hntop
      · rintro ⟨hshows, rfl⟩
        refine ⟨?_, rfl⟩
        cases hshows with
        | any h => exact absurd h hany
        | zero hquad => rw [if_pos (inet_ntop_inj (hntop.symm.trans hquad))]
        | quad hne hquad =>
          obtain rfl := inet_ntop_inj (hntop.symm.trans hquad)
          rw [if_neg hne, hntop]

theorem c_str_inet_ntop (x : InAddr) : c_str (inet_ntop x) = inet_ntop x := by
  refine List.takeWhile_eq_self_iff.mpr fun b hb => ?_
  rw [decide_eq_true_eq]
  rintro rfl
  rcases Numbers.mem_text hb with hdigit | hdot
  · revert hdigit
    decide
  · cases hdot

/-- What is read of an end point sets its address in any other. -/
theorem getSockAddrIn_round_trip (ndebug : Bool) (x y : SockaddrIn) :
    setSockAddrIn ndebug x (getSockAddrIn y).1 (getSockAddrIn y).2 =
      some { x with sin_family := AF_INET, sin_port := y.sin_port, sin_addr := y.sin_addr } := by
  have hlt := (ntohs y.sin_port).toNat_lt
  have hport : htons (UInt16.ofNat (((ntohs y.sin_port).toNat : Int) % 65536).toNat) = y.sin_port := by
    have hnat : (((ntohs y.sin_port).toNat : Int) % 65536).toNat = (ntohs y.sin_port).toNat := by omega
    rw [hnat, UInt16.ofNat_toNat]
    exact ntohs_htons y.sin_port
  simp only [setSockAddrIn, getSockAddrIn, hport]
  by_cases hzero : y.sin_addr = INADDR_ANY
  · rw [if_pos hzero, if_pos (.inl rfl), hzero]
    rfl
  · have hne : ¬(inet_ntop y.sin_addr = ANY ∨ inet_ntop y.sin_addr = []) :=
      fun hany => any_ne_ntop _ hany y.sin_addr (c_str_inet_ntop _)
    rw [if_neg hzero, if_neg hne, c_str_inet_ntop, inet_pton_iff.mpr rfl]
    rfl

-- ---------------------------------------------------------------------------
-- End points and their memory
-- ---------------------------------------------------------------------------

structure EndPoints (ν : Type) where
  heap : Cells ν SockaddrIn
  handles : List (Option ν)

inductive EndPointOp (ν : Type)
  | construct (n : ν)
  | constructIp (n : ν) (ip : Bytes) (port : Int)
  | constructRaw (n : ν) (another : SockaddrIn)
  | copyConstruct (n : ν) (src : Nat)
  /-- `handle` reads as `uninitialised` until it is first assigned. -/
  | moveConstruct (n : ν) (src : Nat) (uninitialised : Option ν)
  | copyAssign (i src : Nat)
  | moveAssign (n : ν) (i src : Nat)
  | setSockAddrIn (i : Nat) (ip : Bytes) (port : Int)
  | getSockAddrIn (i : Nat)
  | destroy (i : Nat)

inductive EndPointEv
  | got (ip : Bytes) (port : Int)
  /-- Memory is accessed or freed that is not the program's. -/
  | fault
  deriving DecidableEq

section

variable {ν : Type} [DecidableEq ν]

namespace EndPoints

def new (s : EndPoints ν) (n : ν) (x : SockaddrIn) : EndPoints ν :=
  ⟨Function.update s.heap n (some x), s.handles ++ [some n]⟩

def destroy (s : EndPoints ν) (i : Nat) : Option (EndPoints ν) := do
  let heap ← Cells.free s.heap (← s.handles[i]?)
  pure ⟨heap, s.handles.eraseIdx i⟩

/-- The call fits the objects there are, memory is allocated where it is free, and no assertion fails. -/
def fits (ndebug : Bool) (s : EndPoints ν) : EndPointOp ν → Bool
  | .construct n | .constructRaw n _ => (s.heap n).isNone
  | .constructIp n ip port => (s.heap n).isNone && (setSockAddrIn ndebug .zero ip port).isSome
  | .copyConstruct n src | .moveConstruct n src _ => (s.heap n).isNone && decide (src < s.handles.length)
  | .copyAssign i src => decide (i < s.handles.length) && decide (src < s.handles.length)
  | .moveAssign n i src =>
    (s.heap n).isNone && decide (i < s.handles.length) && decide (src < s.handles.length)
  | .setSockAddrIn i ip port => decide (i < s.handles.length) && (setSockAddrIn ndebug .zero ip port).isSome
  | .getSockAddrIn i | .destroy i => decide (i < s.handles.length)

def run (ndebug : Bool) (s : EndPoints ν) : EndPointOp ν → Option (EndPoints ν × List EndPointEv)
  | .construct n => some (s.new n .zero, [])
  | .constructIp n ip port => do
    let s := s.new n .zero
    let x ← Cells.load s.heap (some n)
    let heap ← Cells.store s.heap (some n) (← setSockAddrIn ndebug x ip port)
    pure ({ s with heap }, [])
  | .constructRaw n another => some (s.new n another, [])
  | .copyConstruct n src => do
    let x ← Cells.load s.heap (← s.handles[src]?)
    pure (s.new n x, [])
  | .moveConstruct n src uninitialised => do
    let this := s.handles.length
    let s := { s with handles := s.handles ++ [uninitialised] }
    -- the temporary `_ep` is the object behind the new one
    let s := s.new n .zero
    let handles ← Cells.swap s.handles (this + 1) src
    let handles ← Cells.swap handles (this + 1) this
    let s ← destroy { s with handles := handles.set (this + 1) none } (this + 1)
    pure (s, [])
  | .copyAssign i src => do
    let x ← Cells.load s.heap (← s.handles[src]?)
    let heap ← Cells.store s.heap (← s.handles[i]?) x
    pure ({ s with heap }, [])
  | .moveAssign n i src => do
    let _ep := s.handles.length
    let s := s.new n .zero
    let handles ← Cells.swap s.handles _ep src
    let handles ← Cells.swap handles _ep i
    let s ← destroy { s with handles } _ep
    pure (s, [])
  | .setSockAddrIn i ip port => do
    let x ← Cells.load s.heap (← s.handles[i]?)
    let heap ← Cells.store s.heap (← s.handles[i]?) (← setSockAddrIn ndebug x ip port)
    pure ({ s with heap }, [])
  | .getSockAddrIn i => do
    let x ← Cells.load s.heap (← s.handles[i]?)
    pure (s, [.got (getSockAddrIn x).1 (getSockAddrIn x).2])
  | .destroy i => do pure (← s.destroy i, [])

end EndPoints

def endPoints (ν : Type) [DecidableEq ν] (ndebug : Bool) : Machine (EndPoints ν) (EndPointOp ν) EndPointEv where
  init := ⟨fun _ => none, []⟩
  step s a := if s.fits ndebug a then some ((s.run ndebug a).getD (s, [.fault])) else none

/-- End points as values. A moved-from one is as a new one. -/
def endPointValues (ν : Type) (ndebug : Bool) : Machine (List SockaddrIn) (EndPointOp ν) EndPointEv where
  init := []
  step xs
    | .construct _ => some (xs ++ [.zero], [])
    | .constructIp _ ip port => do pure (xs ++ [← setSockAddrIn ndebug .zero ip port], [])
    | .constructRaw _ another => some (xs ++ [another], [])
    | .copyConstruct _ src => do pure (xs ++ [← xs[src]?], [])
    | .moveConstruct _ src _ => do
      let x ← xs[src]?
      pure (xs.set src .zero ++ [x], [])
    | .copyAssign i src => do
      let x ← xs[src]?
      pure (xs.set i x, [])
    | .moveAssign _ i src => do
      let x ← xs[src]?
      pure ((xs.set src .zero).set i x, [])
    | .setSockAddrIn i ip port => do
      let x ← xs[i]?
      pure (xs.set i (← setSockAddrIn ndebug x ip port), [])
    | .getSockAddrIn i => do
      let x ← xs[i]?
      pure (xs, [.got (getSockAddrIn x).1 (getSockAddrIn x).2])
    | .destroy i => some (xs.eraseIdx i, [])

-- ---------------------------------------------------------------------------
-- Each operation on its value
-- ---------------------------------------------------------------------------

variable {ndebug : Bool} {s : EndPoints ν} {xs : List SockaddrIn}

theorem setSockAddrIn_isSome (h : (setSockAddrIn ndebug .zero ip port).isSome = true) (x : SockaddrIn) :
    ∃ y, setSockAddrIn ndebug x ip port = some y := by
  unfold setSockAddrIn at h ⊢
  split at h
  · rename_i hany
    exact ⟨_, by rw [if_pos hany]; rfl⟩
  · rename_i hany
    rw [if_neg hany]
    cases hpton : inet_pton (c_str ip) with
    | some a => exact ⟨_, rfl⟩
    | none =>
      rw [hpton] at h
      cases ndebug
      · cases h
      · exact ⟨_, rfl⟩

theorem destroy_values (ho : Cells.Owns s.heap s.handles xs) (hi : i < s.handles.length) :
    ∃ s', s.destroy i = some s' ∧ Cells.Owns s'.heap s'.handles (xs.eraseIdx i) := by
  have hp := List.getElem?_eq_getElem hi
  obtain ⟨heap, hfree, ho'⟩ := ho.free hp
  exact ⟨⟨heap, s.handles.eraseIdx i⟩, by simp [EndPoints.destroy, hp, hfree], ho'⟩

theorem destroy_last (heap : Cells ν SockaddrIn) (handles : List (Option ν)) (p : Option ν) :
    EndPoints.destroy ⟨heap, handles ++ [p]⟩ handles.length = (Cells.free heap p).map (⟨·, handles⟩) := by
  simp only [EndPoints.destroy, List.getElem?_concat_length, Option.bind_eq_bind, Option.bind_some,
    Cells.eraseIdx_concat]
  cases Cells.free heap p <;> rfl

theorem write_values (ho : Cells.Owns s.heap s.handles xs) (hi : i < s.handles.length) (y : SockaddrIn) :
    ∃ heap, Cells.store s.heap s.handles[i] y = some heap ∧ Cells.Owns heap s.handles (xs.set i y) :=
  ho.store (List.getElem?_eq_getElem hi) y

theorem run_values (ho : Cells.Owns s.heap s.handles xs) (hfits : s.fits ndebug a = true) :
    ∃ s' es xs', s.run ndebug a = some (s', es) ∧ (endPointValues ν ndebug).step xs a = some (xs', es) ∧
      Cells.Owns s'.heap s'.handles xs' ∧ .fault ∉ es := by
  cases a with
  | construct n =>
    have hn : s.heap n = none := Option.isNone_iff_eq_none.mp hfits
    exact ⟨_, _, _, rfl, rfl, ho.new hn _, List.not_mem_nil⟩
  | constructIp n ip port =>
    obtain ⟨hn, hset⟩ := Bool.and_eq_true_iff.mp hfits
    obtain ⟨y, hy⟩ := Option.isSome_iff_exists.mp hset
    have hnew := ho.new (Option.isNone_iff_eq_none.mp hn) .zero
    have hlast : (s.handles ++ [some n])[s.handles.length]? = some (some n) := List.getElem?_concat_length
    obtain ⟨heap, hstore, ho'⟩ := hnew.store hlast y
    rw [ho.length, List.set_append_right _ _ (Nat.le_refl _), Nat.sub_self, List.set_cons_zero] at ho'
    refine ⟨⟨heap, s.handles ++ [some n]⟩, [], xs ++ [y], ?_, by simp [endPointValues, hy], ho',
      List.not_mem_nil⟩
    simp [EndPoints.run, EndPoints.new, Cells.load, hy, hstore]
  | constructRaw n another =>
    have hn : s.heap n = none := Option.isNone_iff_eq_none.mp hfits
    exact ⟨_, _, _, rfl, rfl, ho.new hn _, List.not_mem_nil⟩
  | copyConstruct n src =>
    obtain ⟨hn, hsrc⟩ := Bool.and_eq_true_iff.mp hfits
    have hp := List.getElem?_eq_getElem (of_decide_eq_true hsrc)
    obtain ⟨x, hx, hload⟩ := ho.load hp
    have ho' := ho.new (Option.isNone_iff_eq_none.mp hn) x
    refine ⟨s.new n x, [], xs ++ [x], ?_, by simp [endPointValues, hx], ho', List.not_mem_nil⟩
    simp [EndPoints.run, hp, hload]
  | moveConstruct n src uninitialised =>
    obtain ⟨hn, hsrc⟩ := Bool.and_eq_true_iff.mp hfits
    have hsrc : src < s.handles.length := of_decide_eq_true hsrc
    have hnew := ho.new (Option.isNone_iff_eq_none.mp hn) .zero
    obtain ⟨p, x, hp, hx, -, ho'⟩ := hnew.swap_last hsrc
    refine ⟨⟨Function.update s.heap n (some .zero), s.handles.set src (some n) ++ [p]⟩, [],
      xs.set src .zero ++ [x], ?_, by simp [endPointValues, hx], ho', List.not_mem_nil⟩
    have hlength : (s.handles.set src (some n)).length = s.handles.length := List.length_set
    -- `_ep` gets the old pointer, hands it to the new object and is left with what that one had
    have hfirst : Cells.swap (s.handles ++ [uninitialised] ++ [some n]) (s.handles.length + 1) src =
        some (s.handles.set src (some n) ++ [uninitialised] ++ [p]) := by
      have hget : (s.handles ++ [uninitialised])[src]? = some p := (List.getElem?_append_left hsrc).trans hp
      have h := Cells.swap_last hget (some n)
      rwa [List.length_append, List.set_append_left _ _ hsrc] at h
    have hsecond : Cells.swap (s.handles.set src (some n) ++ [uninitialised] ++ [p]) (s.handles.length + 1)
        s.handles.length = some (s.handles.set src (some n) ++ [p] ++ [uninitialised]) := by
      have hget : (s.handles.set src (some n) ++ [uninitialised])[(s.handles.set src (some n)).length]? =
        some uninitialised := List.getElem?_concat_length
      have h := Cells.swap_last hget p
      rwa [List.length_append, hlength, List.set_append_right _ _ (Nat.le_of_eq hlength), hlength, Nat.sub_self] at h
    have hend := destroy_last (Function.update s.heap n (some .zero)) (s.handles.set src (some n) ++ [p]) none
    rw [List.length_append, hlength, List.length_singleton] at hend
    simp only [EndPoints.run, EndPoints.new, hfirst, hsecond, Option.bind_eq_bind, Option.bind_some]
    rw [List.set_append_right _ _ (by simp)]
    simp only [List.length_append, hlength, List.length_singleton, Nat.sub_self, List.set_cons_zero, hend]
    rfl
  | copyAssign i src =>
    obtain ⟨hi, hsrc⟩ := Bool.and_eq_true_iff.mp hfits
    have hp := List.getElem?_eq_getElem (of_decide_eq_true hsrc)
    obtain ⟨x, hx, hload⟩ := ho.load hp
    obtain ⟨heap, hstore, ho'⟩ := write_values ho (of_decide_eq_true hi) x
    refine ⟨⟨heap, s.handles⟩, [], xs.set i x, ?_, by simp [endPointValues, hx], ho', List.not_mem_nil⟩
    simp [EndPoints.run, hp, hload, List.getElem?_eq_getElem (of_decide_eq_true hi), hstore]
  | moveAssign n i src =>
    simp only [EndPoints.fits, Bool.and_eq_true, decide_eq_true_eq, and_assoc] at hfits
    obtain ⟨hn, hi, hsrc⟩ := hfits
    have hnew := ho.new (Option.isNone_iff_eq_none.mp hn) .zero
    obtain ⟨p, x, hp, hx, hfirst, ho₁⟩ := hnew.swap_last hsrc
    have hlength : (s.handles.set src (some n)).length = s.handles.length := List.length_set
    obtain ⟨q, y, hq, hy, hsecond, ho₂⟩ := ho₁.swap_last (i := i) (hlength ▸ hi)
    obtain ⟨heap, hfree, ho₃⟩ := ho₂.free_last
    rw [hlength] at hsecond
    refine ⟨⟨heap, (s.handles.set src (some n)).set i p⟩, [], (xs.set src .zero).set i x, ?_,
      by simp [endPointValues, hx], ho₃, List.not_mem_nil⟩
    have hend := destroy_last (Function.update s.heap n (some .zero)) ((s.handles.set src (some n)).set i p) q
    rw [List.length_set, hlength, hfree] at hend
    simp only [EndPoints.run, EndPoints.new, hfirst, hsecond, Option.bind_eq_bind, Option.bind_some, hend]
    rfl
  | setSockAddrIn i ip port =>
    obtain ⟨hi, hset⟩ := Bool.and_eq_true_iff.mp hfits
    have hp := List.getElem?_eq_getElem (of_decide_eq_true hi)
    obtain ⟨x, hx, hload⟩ := ho.load hp
    obtain ⟨y, hy⟩ := setSockAddrIn_isSome hset x
    obtain ⟨heap, hstore, ho'⟩ := write_values ho (of_decide_eq_true hi) y
    refine ⟨⟨heap, s.handles⟩, [], xs.set i y, ?_, by simp [endPointValues, hx, hy], ho', List.not_mem_nil⟩
    simp [EndPoints.run, hp, hload, hy, hstore]
  | getSockAddrIn i =>
    have hp := List.getElem?_eq_getElem (of_decide_eq_true hfits)
    obtain ⟨x, hx, hload⟩ := ho.load hp
    refine ⟨s, _, xs, ?_, by simp only [endPointValues, hx]; rfl, ho, by simp⟩
    simp [EndPoints.run, hp, hload]
  | destroy i =>
    obtain ⟨s', hs', ho'⟩ := destroy_values ho (of_decide_eq_true hfits)
    exact ⟨s', [], xs.eraseIdx i, by simp [EndPoints.run, hs'], rfl, ho', List.not_mem_nil⟩

/-- Each end point has an address of its own, and no memory is used besides. -/
theorem endPoints_owned (h : (endPoints ν ndebug).Run tr s) :
    .fault ∉ tr ∧ ∃ xs, Cells.Owns s.heap s.handles xs := by
  refine h.invariant (I := fun tr s => .fault ∉ tr ∧ ∃ xs, Cells.Owns s.heap s.handles xs) ?_ ?_
  · exact ⟨List.not_mem_nil, [], Cells.owns_nil⟩
  · rintro tr s a s' es - ⟨hfault, xs, ho⟩ - hs
    obtain ⟨hfits, hs⟩ := Option.ite_none_right_eq_some.mp hs
    obtain ⟨s₁, es₁, xs', hrun₁, -, ho', hfault'⟩ := run_values ho hfits
    rw [hrun₁, Option.getD_some] at hs
    cases hs
    exact ⟨List.not_mem_append hfault hfault', xs', ho'⟩

/-- What the program with its pointers does and answers, end points that are values do
and answer in the same operations. -/
theorem endPoints_are_values
    (h : (endPoints ν ndebug).replay (endPoints ν ndebug).init ops = some (s, tr)) : .fault ∉ tr ∧
      ∃ xs, (endPointValues ν ndebug).replay (endPointValues ν ndebug).init ops = some (xs, tr) ∧
        Cells.Owns s.heap s.handles xs := by
  refine ⟨(endPoints_owned (Machine.steps_of_replay h)).1, ?_⟩
  refine Machine.replay_follows (R := fun xs s => Cells.Owns s.heap s.handles xs) ?_ Cells.owns_nil h
  intro xs s a s' es ho hs
  obtain ⟨hfits, hs⟩ := Option.ite_none_right_eq_some.mp hs
  obtain ⟨s₁, es₁, xs', hrun₁, hstep, ho', -⟩ := run_values ho hfits
  rw [hrun₁, Option.getD_some] at hs
  cases hs
  exact ⟨xs', hstep, ho'⟩

end

def movedEndPointOps : List (EndPointOp Nat) :=
  [.constructIp 7 [49, 46, 50, 46, 51, 46, 52] 80, .construct 3, .moveAssign 5 1 0, .moveConstruct 9 1 (some 3),
    .getSockAddrIn 1, .getSockAddrIn 2, .destroy 0]

theorem endPoints_are_values_moved : ∃ s tr,
    (endPoints Nat false).replay (endPoints Nat false).init movedEndPointOps = some (s, tr) ∧
    tr = [.got ANY 0, .got [49, 46, 50, 46, 51, 46, 52] 80] ∧ .fault ∉ tr ∧
      ∃ xs, (endPointValues Nat false).replay (endPointValues Nat false).init movedEndPointOps = some (xs, tr) ∧
        Cells.Owns s.heap s.handles xs := by
  obtain ⟨⟨s, tr⟩, hmoved⟩ := Option.isSome_iff_exists.mp
    (show ((endPoints Nat false).replay (endPoints Nat false).init movedEndPointOps).isSome = true by decide)
  have htr : ((endPoints Nat false).replay (endPoints Nat false).init movedEndPointOps).map Prod.snd =
    some [.got ANY 0, .got [49, 46, 50, 46, 51, 46, 52] 80] := by decide
  rw [hmoved] at htr
  exact ⟨s, tr, hmoved, Option.some.inj htr, endPoints_are_values hmoved⟩

end Andren.Base
