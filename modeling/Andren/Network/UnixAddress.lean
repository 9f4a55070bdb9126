import Andren.Base.Zlib
import Mathlib.Algebra.Ring.Nat

/-!
# Addresses of the Unix domain

`DataGram::bindAddr`, `DataGram::asend` and `SockStream::asyncConnect` each build a
`sockaddr_un` from a name. They clip the name to the structure, one of them a byte earlier than
the others, but take the length of the address from the name as it is. From 108 bytes on the
length goes beyond the structure (`unix_addresses_iff`).
-/

namespace Andren.Network

open Base

def AF_UNIX : UInt16 := 1

def sizeofSunPath : Nat := 108

def sizeofSockaddrUn : Nat := 110

structure SockaddrUn where
  sun_family : UInt16
  sun_path : Bytes
  deriving DecidableEq

def SockaddrUn.bytes (saddr : SockaddrUn) : Bytes :=
  [saddr.sun_family.toUInt8, (saddr.sun_family >>> 8).toUInt8] ++ saddr.sun_path

def memcpy (dest src : Bytes) (n : Nat) : Bytes := src.take n ++ dest.drop n

/-- A structure of zeros gets the family and as much of the name as `limit` allows. -/
def unixAddress (limit : Nat) (name : Bytes) : SockaddrUn :=
  ⟨AF_UNIX, memcpy (List.replicate sizeofSunPath 0) name (min limit name.length)⟩

def unixAddressSize (name : Bytes) : Nat := name.length + 1 + 2

/-- An address as it is passed on: `size` bytes from its beginning are read. -/
structure AddressCall where
  saddr : SockaddrUn
  size : Nat
  deriving DecidableEq

abbrev AddressOut := Bool × Option AddressCall

-- ---------------------------------------------------------------------------
-- The code
-- ---------------------------------------------------------------------------

/-- A socket: whether it is valid, and whether its poller and that one's event loop exist;
what `addTask` and `::bind` return. -/
structure SocketSetting where
  valid : Bool
  loop : Bool
  addTask : Bool
  bind : Int

/-- `bindAddr(sockaddr *, size_t)`. `::bind` takes the length as a `uint32_t`. -/
def bindSockaddr (x : SocketSetting) (saddr : SockaddrUn) (size : Nat) : AddressOut :=
  if x.valid then (x.bind = 0, some ⟨saddr, size % 2 ^ 32⟩) else (false, none)

/-- `asend(sockaddr *, size_t, ...)`: the address is copied into a string for the task. -/
def asendSockaddr (x : SocketSetting) (saddr : SockaddrUn) (size : Nat) : AddressOut :=
  if !x.valid then (false, none)
  else if x.loop then (x.addTask, some ⟨saddr, size⟩)
  else (false, none)

def asyncConnectSockaddr (x : SocketSetting) (saddr : SockaddrUn) (size : Nat) : AddressOut :=
  if !x.loop || !x.valid then (false, none) else (x.addTask, some ⟨saddr, size⟩)

def bindAddr (x : SocketSetting) (domainName : Bytes) : AddressOut :=
  let saddr := unixAddress (sizeofSunPath - 1) domainName
  if x.valid then bindSockaddr x saddr (unixAddressSize domainName) else (false, none)

def asend (x : SocketSetting) (domainName : Bytes) : AddressOut :=
  asendSockaddr x (unixAddress sizeofSunPath domainName) (unixAddressSize domainName)

def asyncConnect (x : SocketSetting) (unixdomain : Bytes) : AddressOut :=
  asyncConnectSockaddr x (unixAddress sizeofSunPath unixdomain) (unixAddressSize unixdomain)

-- ---------------------------------------------------------------------------
-- Consistent addresses
-- ---------------------------------------------------------------------------

def wholeAddress (name : Bytes) : Bytes := [1, 0] ++ name ++ [0]

/-- Nothing is read beyond the structure, and without a `false` the address of the whole name
is passed on. -/
structure AddressOk (name : Bytes) (out : AddressOut) : Prop where
  inBounds : ∀ call, out.2 = some call → call.size ≤ sizeofSockaddrUn
  whole : out.1 = false ∨
    ∃ call, out.2 = some call ∧ call.size = (wholeAddress name).length ∧
      call.saddr.bytes.take call.size = wholeAddress name

/-- The three agree on the address of `name`, in bounds; `x` is the setting of the datagram
socket and `y` that of the stream. -/
structure AddressesOk (x y : SocketSetting) (name : Bytes) : Prop where
  bindAddr : AddressOk name (bindAddr x name)
  asend : AddressOk name (asend x name)
  asyncConnect : AddressOk name (asyncConnect y name)

theorem length_wholeAddress (name : Bytes) : (wholeAddress name).length = unixAddressSize name := by
  simp [wholeAddress, unixAddressSize]

theorem bytes_unixAddress (hname : name.length ≤ 107) (hlimit : name.length ≤ limit) :
    (unixAddress limit name).bytes.take (unixAddressSize name) = wholeAddress name := by
  have hdrop : (List.replicate sizeofSunPath (0 : UInt8)).drop name.length =
      0 :: List.replicate (107 - name.length) 0 := by
    rw [List.drop_replicate, ← List.replicate_succ]
    congr 1
    unfold sizeofSunPath
    omega
  have hbytes : (unixAddress limit name).bytes = wholeAddress name ++ List.replicate (107 - name.length) 0 := by
    rw [unixAddress, SockaddrUn.bytes, memcpy, Nat.min_eq_right hlimit, List.take_length, hdrop]
    simp only [wholeAddress, List.append_assoc, List.singleton_append]
    rfl
  rw [hbytes, ← length_wholeAddress, List.take_left]

theorem addressOk_none (name : Bytes) : AddressOk name (false, none) := ⟨nofun, .inl rfl⟩

theorem addressOk_short (hname : name.length ≤ 107) (hlimit : name.length ≤ limit) (ret : Bool) :
    AddressOk name (ret, some ⟨unixAddress limit name, unixAddressSize name⟩) := by
  have hsize : unixAddressSize name ≤ sizeofSockaddrUn := by
    unfold unixAddressSize sizeofSockaddrUn
    omega
  exact ⟨fun call hcall => Option.some.inj hcall ▸ hsize,
    .inr ⟨_, rfl, (length_wholeAddress name).symm, bytes_unixAddress hname hlimit⟩⟩

theorem addressOk_long_iff (hname : 107 < name.length) : AddressOk name (ret, some ⟨saddr, size⟩) ↔
    size ≤ sizeofSockaddrUn ∧ ret = false := by
  constructor
  · intro h
    have hsize := h.inBounds _ rfl
    refine ⟨hsize, h.whole.resolve_right ?_⟩
    rintro ⟨call, hcall, hlen, -⟩
    cases hcall
    rw [length_wholeAddress, unixAddressSize] at hlen
    unfold sizeofSockaddrUn at hsize
    omega
  · rintro ⟨hsize, rfl⟩
    exact ⟨fun call hcall => Option.some.inj hcall ▸ hsize, .inl rfl⟩

section

variable {x : SocketSetting}

theorem not_fits_long (hname : 107 < name.length) : ¬unixAddressSize name ≤ sizeofSockaddrUn := by
  unfold unixAddressSize sizeofSockaddrUn
  omega

theorem addressOk_bindAddr (hname : name.length ≤ 107) : AddressOk name (bindAddr x name) := by
  have hmod : unixAddressSize name % 2 ^ 32 = unixAddressSize name := Nat.mod_eq_of_lt (by unfold unixAddressSize; omega)
  unfold bindAddr bindSockaddr
  cases x.valid
  · exact addressOk_none name
  · rw [hmod]
    exact addressOk_short hname hname _

theorem addressOk_bindAddr_long (hname : 107 < name.length) : AddressOk name (bindAddr x name) ↔
    x.valid = false ∨ unixAddressSize name % 2 ^ 32 ≤ sizeofSockaddrUn ∧ x.bind ≠ 0 := by
  unfold bindAddr bindSockaddr
  cases x.valid
  · exact iff_of_true (addressOk_none name) (.inl rfl)
  · simp [addressOk_long_iff hname]

theorem addressOk_asend (hname : name.length ≤ 107) : AddressOk name (asend x name) := by
  unfold asend asendSockaddr
  cases x.valid <;> cases x.loop
  · exact addressOk_none name
  · exact addressOk_none name
  · exact addressOk_none name
  · exact addressOk_short hname (Nat.le_succ_of_le hname) _

theorem addressOk_asend_long (hname : 107 < name.length) :
    AddressOk name (asend x name) ↔ x.valid = false ∨ x.loop = false := by
  unfold asend asendSockaddr
  cases x.valid <;> cases x.loop <;> simp [addressOk_none, addressOk_long_iff hname, not_fits_long hname]

/-- The two differ in the order of their checks only. -/
theorem asyncConnect_eq_asend (x : SocketSetting) (name : Bytes) : asyncConnect x name = asend x name := by
  unfold asyncConnect asyncConnectSockaddr asend asendSockaddr
  cases x.valid <;> cases x.loop <;> rfl

end

/-- The addresses are consistent if and only if the name has at most 107 bytes or none of the
three makes use of it. A length that is no `uint32_t` is cut for `::bind`, which may fail then. -/
theorem unix_addresses_iff (x y : SocketSetting) (name : Bytes) : AddressesOk x y name ↔
    name.length ≤ 107 ∨ ((y.valid = false ∨ y.loop = false) ∧ (x.valid = false ∨
      (x.loop = false ∧ unixAddressSize name % 2 ^ 32 ≤ sizeofSockaddrUn ∧ x.bind ≠ 0))) := by
  rcases Nat.lt_or_ge 107 name.length with hlong | hshort
  · have hstream := asyncConnect_eq_asend y name ▸ addressOk_asend_long (x := y) hlong
    rw [or_iff_right (Nat.not_le.mpr hlong)]
    constructor
    · intro h
      refine ⟨hstream.mp h.asyncConnect, ?_⟩
      rcases (addressOk_bindAddr_long hlong).mp h.bindAddr with hvalid | hbind
      · exact .inl hvalid
      · exact ((addressOk_asend_long hlong).mp h.asend).imp_right fun hloop => ⟨hloop, hbind⟩
    · rintro ⟨hnone, hsocket⟩
      refine ⟨(addressOk_bindAddr_long hlong).mpr ?_, (addressOk_asend_long hlong).mpr ?_, hstream.mpr hnone⟩
      · exact hsocket.imp_right And.right
      · exact hsocket.imp_right And.left
  · refine iff_of_true ⟨addressOk_bindAddr hshort, addressOk_asend hshort, ?_⟩ (.inl hshort)
    rw [asyncConnect_eq_asend]
    exact addressOk_asend hshort

/-- A name of 108 bytes: 111 bytes are read of a structure of 110. -/
theorem long_name_overruns : ∃ (x y : SocketSetting) (name : Bytes), name.length = 108 ∧
    (asend x name).1 = true ∧ ((asend x name).2.map (·.size)) = some 111 ∧ ¬AddressesOk x y name := by
  refine ⟨⟨true, true, true, 0⟩, ⟨true, true, true, 0⟩, List.replicate 108 97, List.length_replicate, rfl, ?_, ?_⟩
  · simp [asend, asendSockaddr, unixAddressSize]
  · intro h
    have hout := (addressOk_asend_long (by simp)).mp h.asend
    simp at hout

end Andren.Network
