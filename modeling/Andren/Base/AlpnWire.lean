import Andren.Base.SSLContextCreator
import Mathlib.Data.List.TakeWhile

/-!
# The protocol list as its reader sees it

`appendProtocolOnList` cuts the size of a name to a byte, and the walk of
`select_next_protocol` ends at a 0 byte. So an empty name, or one of 256 bytes, hides
what stands behind it, and any other name of more than 255 bytes comes back as
another. What was configured comes back just when every name has 1 to 255 bytes and
an `unsigned int` holds the size of the list (`next_proto_list_decodes_iff`).
-/

namespace Andren.Base

open Machines

namespace SSLContextCreator

def walkBody (input : List UInt8) (inlen : Nat) (walked : Nat × List (List UInt8)) :
    (Nat × List (List UInt8)) ⊕ Option (Nat × List (List UInt8)) :=
  match nameAt input inlen walked.1 with
  | .stop => .inr (some walked)
  | .outside => .inr none
  | .name key next => .inl (next, walked.2 ++ [key])

/-- Where the walk over the whole list ends, and the names it has read. The size is
passed as an `unsigned int`. -/
def walk (input : List UInt8) (fuel : Nat) : Option (Option (Nat × List (List UInt8))) :=
  loop (walkBody input (input.length % 2 ^ 32)) fuel (0, [])

/-- The walk consumes the whole list and yields the names that the format can carry. -/
def Decodes (c : SSLContextCreator) (protoList : List ProtocolsHandler) : Prop :=
  Returns (walk c.m_next_proto_list)
    (some (c.m_next_proto_list.length, (protoList.map ProtocolsHandler.protocol).filter (Framed ·)))

def cut (name : List UInt8) : List UInt8 := name.take (name.length % 256)

end SSLContextCreator

section

variable {pre post names : List (List UInt8)} {name : List UInt8}

open SSLContextCreator

-- ---------------------------------------------------------------------------
-- The walk
-- ---------------------------------------------------------------------------

theorem nameAt_empty (pre post : List (List UInt8)) (inlen : Nat) :
    nameAt (frames (pre ++ [] :: post)) inlen (frames pre).length = .stop := by
  unfold nameAt
  split
  · rw [getElem?_frames]
    rfl
  · rfl

theorem loop_walkBody (pre rest : List (List UInt8)) (hshort : ∀ n ∈ rest, n.length < 256)
    (hlen : (frames (pre ++ rest)).length < 2 ^ 32) :
    Returns (loop (walkBody (frames (pre ++ rest)) (frames (pre ++ rest)).length) · ((frames pre).length, pre))
      (some ((frames (pre ++ rest.takeWhile (· ≠ []))).length, pre ++ rest.takeWhile (· ≠ []))) := by
  induction rest generalizing pre with
  | nil =>
    refine ⟨1, ?_⟩
    simp only [List.takeWhile_nil, List.append_nil, loop, walkBody, nameAt_end]
  | cons name rest ih =>
    by_cases hempty : name = []
    · subst hempty
      rw [List.takeWhile_cons_of_neg (by simp), List.append_nil]
      refine ⟨1, ?_⟩
      simp only [loop, walkBody, nameAt_empty]
    · have hname : Framed name := ⟨List.length_pos_iff.mpr hempty, hshort name (.head _)⟩
      have hassoc : pre ++ [name] ++ rest = pre ++ name :: rest := by simp
      obtain ⟨fuel, hrest⟩ := ih (pre ++ [name]) (fun n hn => hshort n (.tail _ hn)) (hassoc ▸ hlen)
      rw [hassoc] at hrest
      have hread : pre ++ (name :: rest).takeWhile (· ≠ []) = pre ++ [name] ++ rest.takeWhile (· ≠ []) := by
        rw [List.takeWhile_cons_of_pos (by simpa using hempty), List.append_cons]
      rw [hread]
      refine ⟨fuel + 1, ?_⟩
      simp only [loop, walkBody, nameAt_frames hname hlen]
      exact hrest

theorem walk_frames (hshort : ∀ n ∈ names, n.length < 256) (hlen : (frames names).length < 2 ^ 32) :
    Returns (walk (frames names))
      (some ((frames (names.takeWhile (· ≠ []))).length, names.takeWhile (· ≠ []))) := by
  obtain ⟨fuel, hloop⟩ := loop_walkBody [] names hshort hlen
  refine ⟨fuel, ?_⟩
  rw [walk, Nat.mod_eq_of_lt hlen]
  exact hloop

theorem nameAt_next_lt {input : List UInt8} (h : nameAt input inlen i = .name key next) : next < 2 ^ 32 := by
  unfold nameAt at h
  split at h
  case isFalse => cases h
  case isTrue =>
    split at h
    · cases h
    · split at h
      case isFalse => cases h
      case isTrue =>
        split at h
        · cases h
        · cases h
          exact Nat.mod_lt _ (by decide)

/-- The place is an `unsigned int`, wherever the walk ends. -/
theorem walk_place_lt {input : List UInt8} (h : Returns (walk input) (some (i, keys))) : i < 2 ^ 32 := by
  refine loop_invariant _ (I := fun walked => walked.1 < 2 ^ 32)
    (Q := fun r => ∀ walked, r = some walked → walked.1 < 2 ^ 32) ?_ ?_ (by decide) h _ rfl
  · intro walked walked' _ hbody
    unfold walkBody at hbody
    split at hbody
    · cases hbody
    · cases hbody
    next hname =>
      cases hbody
      exact nameAt_next_lt hname
  · intro walked r hplace hbody walked' hr
    unfold walkBody at hbody
    split at hbody
    · cases hbody
      cases hr
      exact hplace
    · cases hbody
      cases hr
    · cases hbody

theorem walk_steady (input : List UInt8) : Steady (walk input) := loop_steady _ _

-- ---------------------------------------------------------------------------
-- What was configured
-- ---------------------------------------------------------------------------

theorem length_cut (name : List UInt8) : (cut name).length = name.length % 256 := by
  rw [cut, List.length_take, Nat.min_eq_left (Nat.mod_le ..)]

theorem cut_of_framed (h : Framed name) : cut name = name := by
  rw [cut, Nat.mod_eq_of_lt h.2, List.take_length]

theorem m_next_proto_list_cut (c : SSLContextCreator) (protoList : List ProtocolsHandler) (endType : Int) :
    (c.setSupportedProto protoList endType).m_next_proto_list =
      c.m_next_proto_list ++ frames (protoList.map fun handler => cut handler.protocol) := by
  show (protoList.foldl registerHandler c).m_next_proto_list = _
  induction protoList generalizing c with
  | nil => simp
  | cons handler protoList ih =>
    have hsize : UInt8.ofNat (cut handler.protocol).length = UInt8.ofNat handler.protocol.length := by
      rw [length_cut]
      exact UInt8.ofNat_mod_size
    rw [List.foldl_cons, ih, List.map_cons, frames_cons, frame, hsize, cut]
    simp [registerHandler, appendProtocolOnList]

/-- The frames that are written decode to what was configured just when the format
can carry every name. -/
theorem walk_cut_iff (hlen : (frames (names.map cut)).length < 2 ^ 32) :
    Returns (walk (frames (names.map cut))) (some ((frames (names.map cut)).length, names.filter (Framed ·))) ↔
      ∀ n ∈ names, Framed n := by
  have hshort : ∀ n ∈ names.map cut, n.length < 256 := by
    intro n hn
    obtain ⟨n, -, rfl⟩ := List.mem_map.mp hn
    rw [length_cut]
    exact Nat.mod_lt _ (by decide)
  have hwalk := walk_frames hshort hlen
  constructor
  · intro h
    obtain ⟨hplace, hkeys⟩ := Prod.mk.inj (Option.some.inj (hwalk.unique (walk_steady _) h))
    have hsplit := List.takeWhile_append_dropWhile (p := (· ≠ [])) (l := names.map cut)
    have hrest : (names.map cut).dropWhile (· ≠ []) = [] := by
      have hlength := congrArg (fun l => (frames l).length) hsplit
      simp only [frames_append, List.length_append, hplace] at hlength
      exact frames_eq_nil (List.length_eq_zero_iff.mp (by omega))
    rw [hrest, List.append_nil, hkeys] at hsplit
    have hall := congrArg List.length hsplit
    rw [List.length_map] at hall
    simpa using List.length_filter_eq_length_iff.mp hall
  · intro hnames
    have hcut : names.map cut = names :=
      (List.map_congr_left fun n hn => cut_of_framed (hnames n hn)).trans names.map_id
    have hfilter : names.filter (Framed ·) = names := List.filter_eq_self.mpr (by simpa using hnames)
    have hread : names.takeWhile (· ≠ []) = names :=
      List.takeWhile_eq_self_iff.mpr fun n hn => by simpa using List.length_pos_iff.mp (hnames n hn).1
    rw [hcut, hread] at hwalk
    rw [hcut, hfilter]
    exact hwalk

theorem decodes_iff {c : SSLContextCreator} {protoList : List ProtocolsHandler} (endType : Int)
    (hnil : c.m_next_proto_list = []) :
    (c.setSupportedProto protoList endType).Decodes protoList ↔
      (∀ handler ∈ protoList, Framed handler.protocol) ∧
        (c.setSupportedProto protoList endType).m_next_proto_list.length < 2 ^ 32 := by
  have hlist : (c.setSupportedProto protoList endType).m_next_proto_list =
      frames ((protoList.map ProtocolsHandler.protocol).map cut) := by
    rw [m_next_proto_list_cut, hnil, List.map_map]
    rfl
  rw [← List.forall_mem_map (f := ProtocolsHandler.protocol) (P := Framed)]
  by_cases hlen : (c.setSupportedProto protoList endType).m_next_proto_list.length < 2 ^ 32
  · rw [and_iff_left hlen, Decodes]
    rw [hlist] at hlen ⊢
    exact walk_cut_iff hlen
  · exact iff_of_false (fun h => hlen (walk_place_lt h)) fun h => hlen h.2

end

theorem next_proto_list_decodes_iff (endType : Int) (protoList : List ProtocolsHandler) (c : SSLContextCreator)
    (hc : c = (SSLContextCreator.new endType).setSupportedProtoForServer protoList ∨
      c = (SSLContextCreator.new endType).setSupportedProtoForClient protoList) :
    c.Decodes protoList ↔
      (∀ handler ∈ protoList, Framed handler.protocol) ∧ c.m_next_proto_list.length < 2 ^ 32 := by
  rcases hc with rfl | rfl
  · exact decodes_iff 1 rfl
  · exact decodes_iff 2 rfl

theorem next_proto_list_decodes_iff_h2 :
    ((SSLContextCreator.new 0).setSupportedProtoForServer [⟨[104, 50], some true⟩]).Decodes
      [⟨[104, 50], some true⟩] :=
  (next_proto_list_decodes_iff 0 [⟨[104, 50], some true⟩] _ (.inl rfl)).mpr (by decide)

/-- Behind an empty name h2 is not read. -/
theorem next_proto_list_hides_h2 :
    ((SSLContextCreator.new 0).setSupportedProtoForServer [⟨[], none⟩, ⟨[104, 50], some true⟩]).m_next_proto_list =
        [0, 2, 104, 50] ∧
      Returns (SSLContextCreator.walk [0, 2, 104, 50]) (some (0, [])) ∧
      ¬((SSLContextCreator.new 0).setSupportedProtoForServer [⟨[], none⟩, ⟨[104, 50], some true⟩]).Decodes
        [⟨[], none⟩, ⟨[104, 50], some true⟩] := by
  have hreturns : Returns (SSLContextCreator.walk [0, 2, 104, 50]) (some (0, [])) := ⟨1, rfl⟩
  refine ⟨rfl, hreturns, fun h => ?_⟩
  have hsame := hreturns.unique (walk_steady _) h
  exact absurd (congrArg Prod.fst (Option.some.inj hsame)) (by decide)

end Andren.Base
