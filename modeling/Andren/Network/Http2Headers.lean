import Andren.Machine.Fields
import Andren.Network.Http2

/-!
# The headers of HTTP/2 streams

nghttp2 reports the fields of a block one by one, each with the frame of the block, and
the session stores them with the stream of the frame. The frame of a promise is that of
the stream it was sent on, while its fields describe another one. So the headers of a
stream are the fields of its `HEADERS` frames as long as each field of a promise repeats
one of them (`headers_filed_iff`).

A stream has its body among its headers, under the name "body", and a peer may send a
header of that name (`content_apart_iff`).
-/

namespace Andren.Network

open Machines
open Std (TreeMap)

def DeriveData.headers : DeriveData → TreeMap String String
  | .request headers => headers
  | .response headers => headers

namespace Http2ndStream

def headers (x : Http2ndStream) : TreeMap String String := x.derive_data.headers

def push_data (x : Http2ndStream) (data : String) : Http2ndStream :=
  { x with derive_data := match x.derive_data with
    | .request headers => .request (headers.insert "body" (headers.getD "body" "" ++ data))
    | .response headers => .response (headers.insert "body" (headers.getD "body" "" ++ data)) }

end Http2ndStream

def Http2ndSession.header? (s : Http2ndSession) (k : Int) (name : String) : Option String :=
  s.streams[k]?.bind fun x => x.headers[name]?

def Nghttp2Frame.isHeaders (f : Nghttp2Frame) : Bool := f.type == NGHTTP2_HEADERS

def addField (p : Nghttp2Frame → Bool) (k : Int) (fields : List (String × String)) :
    Http2Ev → List (String × String)
  | .header f name value => if p f && f.stream_id == k then fields ++ [(name, value)] else fields
  | .streamClose j => if j = k then [] else fields
  | _ => fields

/-- The fields reported for the frames of stream `k` that `p` selects, since it was closed. -/
def fieldsOf (p : Nghttp2Frame → Bool) (k : Int) (tr : List Http2Ev) : List (String × String) :=
  tr.foldl (addField p k) []

/-- In every state that the callbacks `as` lead to, the headers of a stream are the fields
of its `HEADERS` frames; and no field of a promise changes those of the stream that the
promise was sent on. -/
structure HeadersFiled (as : List Http2Act) : Prop where
  filed : ∀ before tr s, before <+: as → http2Session.replay http2Session.init before = some (s, tr) →
    ∀ k name, s.session.header? k name = lastValue (fieldsOf Nghttp2Frame.isHeaders k tr) name
  kept : ∀ tr s name value f s' es, http2Session.Takes as tr s (.header name value) → s.block = some f →
    f.type = NGHTTP2_PUSH_PROMISE → http2Session.step s (.header name value) = some (s', es) →
    ∀ other, s'.session.header? f.stream_id other = s.session.header? f.stream_id other

inductive StreamPush
  | data (data : String)
  | header (name value : String)

def Http2ndStream.push (x : Http2ndStream) : StreamPush → Http2ndStream
  | .data data => x.push_data data
  | .header name value => x.push_header name value

def Http2ndStream.pushAll (x : Http2ndStream) (ps : List StreamPush) : Http2ndStream := ps.foldl push x

namespace StreamPush

def data? : StreamPush → Option String
  | .data chunk => some chunk
  | .header _ _ => none

def field? : StreamPush → Option (String × String)
  | .data _ => none
  | .header name value => some (name, value)

end StreamPush

def chunksOf (ps : List StreamPush) : List String := ps.filterMap StreamPush.data?

def fieldsPushed (ps : List StreamPush) : List (String × String) := ps.filterMap StreamPush.field?

/-- The body is what the chunks of data make up, and each header has its last value. -/
structure ContentApart (x : Http2ndStream) (ps : List StreamPush) : Prop where
  body : (x.pushAll ps).headers.getD "body" "" = String.join (chunksOf ps)
  header : ∀ name value, lastValue (fieldsPushed ps) name = some value →
    (x.pushAll ps).headers[name]? = some value

/-- The last header of the name "body", if there is one, repeats the data before it, and
no data is behind it. -/
def RepeatsBody (ps : List StreamPush) : Prop :=
  ∀ before value after, ps = before ++ .header "body" value :: after →
    lastValue (fieldsPushed after) "body" = none →
    value = String.join (chunksOf before) ∧ String.join (chunksOf after) = ""

/-- A field of a promise repeats what the stream's own fields say. -/
def RepeatsField (t : List Http2Ev) : Http2Ev → Prop
  | .header f name value => f.isHeaders = true ∨
    lastValue (fieldsOf Nghttp2Frame.isHeaders f.stream_id t) name = some value
  | _ => True

-- ---------------------------------------------------------------------------
-- The fields of a trace
-- ---------------------------------------------------------------------------

section

variable {p : Nghttp2Frame → Bool} {k : Int}

def Http2Ev.Fieldless (e : Http2Ev) : Prop := ∀ p k fields, addField p k fields e = fields

theorem fieldsOf_append (tr es : List Http2Ev) :
    fieldsOf p k (tr ++ es) = es.foldl (addField p k) (fieldsOf p k tr) := List.foldl_append

theorem fieldsOf_snoc (tr : List Http2Ev) (e : Http2Ev) :
    fieldsOf p k (tr ++ [e]) = addField p k (fieldsOf p k tr) e := fieldsOf_append tr [e]

theorem fieldsOf_quiet (hes : ∀ e ∈ es, e.Fieldless) : fieldsOf p k (tr ++ es) = fieldsOf p k tr := by
  rw [fieldsOf_append]
  induction es with
  | nil => rfl
  | cons e es ih =>
    rw [List.foldl_cons, hes e (.head _), ih fun e he => hes e (.tail _ he)]

theorem fieldsOf_close (tr : List Http2Ev) (j : Int) (hes : ∀ e ∈ es, e.Fieldless) :
    fieldsOf p k (tr ++ .streamClose j :: es) = if j = k then [] else fieldsOf p k tr := by
  rw [List.append_cons, fieldsOf_quiet hes, fieldsOf_snoc]
  rfl

theorem lastValue_fieldsOf_header (tr : List Http2Ev) (f : Nghttp2Frame) (name value other : String) :
    lastValue (fieldsOf p k (tr ++ [.header f name value])) other =
      if p f = true ∧ f.stream_id = k ∧ other = name then some value
      else lastValue (fieldsOf p k tr) other := by
  rw [fieldsOf_snoc, addField]
  by_cases hf : p f = true ∧ f.stream_id = k
  · simp [hf, lastValue_snoc]
  · simp only [Bool.and_eq_true, beq_iff_eq, hf, if_false]
    exact (if_neg fun h => hf ⟨h.1, h.2.1⟩).symm

theorem frameCalls_fieldless (f : Nghttp2Frame) (headDone : Int) :
    ∀ e ∈ (.frameRecv f headDone : Http2Ev) :: frameCalls f headDone, e.Fieldless := by
  intro e he
  unfold frameCalls at he
  cases f.endHeaders <;> cases f.endStream <;> by_cases hret : headDone = 0 <;> simp [hret] at he <;>
    grind [Http2Ev.Fieldless, addField]

theorem lastValue_of_repeats (h : Always RepeatsField tr) (k : Int) (name : String) :
    lastValue (fieldsOf (fun _ => true) k tr) name = lastValue (fieldsOf Nghttp2Frame.isHeaders k tr) name := by
  induction tr using List.reverseRecOn with
  | nil => rfl
  | append_singleton tr e ih =>
    have ih := ih h.left
    have hlast := h.last
    cases e with
    | header f name' value =>
      rw [lastValue_fieldsOf_header, lastValue_fieldsOf_header, ih]
      rcases hlast with hheaders | hrepeats
      · simp [hheaders]
      · split
        · rename_i hthis
          obtain ⟨-, rfl, rfl⟩ := hthis
          simp [hrepeats]
        · rename_i hother
          rw [if_neg fun hthis => hother ⟨rfl, hthis.2⟩]
    | streamClose j =>
      rw [fieldsOf_snoc, fieldsOf_snoc, addField, addField]
      split
      · rfl
      · exact ih
    | _ =>
      rw [fieldsOf_snoc, fieldsOf_snoc]
      exact ih

theorem repeats_of_lastValue {t : List Http2Ev}
    (hnow : ∀ k other, lastValue (fieldsOf (fun _ => true) k (t ++ [.header f name value])) other =
      lastValue (fieldsOf Nghttp2Frame.isHeaders k (t ++ [.header f name value])) other) :
    RepeatsField t (.header f name value) := by
  cases hheaders : f.isHeaders with
  | true => exact .inl hheaders
  | false =>
    have hnow := hnow f.stream_id name
    rw [lastValue_fieldsOf_header, lastValue_fieldsOf_header, if_pos ⟨rfl, rfl, rfl⟩, if_neg (by simp [hheaders])]
      at hnow
    exact .inr hnow.symm

end

-- ---------------------------------------------------------------------------
-- What a callback stores
-- ---------------------------------------------------------------------------

@[simp] theorem headers_push_frame (x : Http2ndStream) (f : Nghttp2Frame) : (x.push_frame f).headers = x.headers := by
  unfold Http2ndStream.push_frame
  split <;> rfl

@[simp] theorem headers_push_header (x : Http2ndStream) (name value : String) :
    (x.push_header name value).headers = x.headers.insert name value := by
  unfold Http2ndStream.push_header Http2ndStream.headers
  cases x.derive_data <;> rfl

section

variable {s : Http2ndSession}

theorem header?_insert (s : Http2ndSession) (j : Int) (x : Http2ndStream) (k : Int) (name : String) :
    (s.insert j x).header? k name = if j = k then x.headers[name]? else s.header? k name := by
  simp only [Http2ndSession.header?, Http2ndSession.insert, TreeMap.getElem?_insert, Std.compare_eq_iff_eq]
  split <;> rfl

theorem header?_streamData (h : EntriesDefault s) (hx : s.streamData k = some x) (name : String) :
    x.headers[name]? = s.header? k name := by
  rw [h.eq_entry hx]
  unfold Http2ndSession.entry Http2ndSession.header?
  cases s.streams[k]? with
  | none => exact TreeMap.getElem?_emptyc
  | some x => rfl

theorem header?_insert_same (h : EntriesDefault s) (hx : s.streamData j = some x)
    (hy : y.headers = x.headers) (k : Int) (name : String) : (s.insert j y).header? k name = s.header? k name := by
  rw [header?_insert, hy, header?_streamData h hx]
  split
  next heq => rw [heq]
  next => rfl

end

inductive FieldStep (s : Http2State) : Http2State → List Http2Ev → Prop
  | header : s.block = some f → (∀ k other, s'.session.header? k other =
        if f.stream_id = k ∧ other = name then some value else s.session.header? k other) →
      FieldStep s s' [.header f name value]
  | close : (∀ k other, s'.session.header? k other = if j = k then none else s.session.header? k other) →
      (∀ e ∈ es, e.Fieldless) → FieldStep s s' (.streamClose j :: es)
  | other : (∀ k other, s'.session.header? k other = s.session.header? k other) → (∀ e ∈ es, e.Fieldless) →
      FieldStep s s' es

theorem fieldStep_header (h : EntriesDefault s.session) (hblock : s.block = some f)
    (hx : s.session.streamData f.stream_id = some x) :
    FieldStep s ⟨s.session.insert f.stream_id (x.push_header name value), s.block⟩ [.header f name value] := by
  refine .header hblock fun k other => ?_
  rw [header?_insert, headers_push_header, TreeMap.getElem?_insert, header?_streamData h hx]
  by_cases hk : f.stream_id = k
  · by_cases hname : other = name
    · simp [hk, hname]
    · simp [hk, hname, Ne.symm hname]
  · simp [hk]

theorem http2Session_fields (h : EntriesDefault s.session) (hs : http2Session.step s a = some (s', es)) :
    FieldStep s s' es := by
  cases http2Session_step hs with
  | beginHeaders _ => exact .other (fun _ _ => rfl) (by simp [Http2Ev.Fieldless, addField])
  | header hblock hx => exact fieldStep_header h hblock hx
  | frameRecv hx =>
    exact .other (header?_insert_same h hx (headers_push_frame ..)) (frameCalls_fieldless _ _)
  | dataChunkRecv hx => exact .other (header?_insert_same h hx rfl) (by simp [Http2Ev.Fieldless, addField])
  | closeAbsent hnone =>
    refine .close (fun k other => ?_) nofun
    split
    next heq =>
      subst heq
      simp only [Http2ndSession.header?, hnone]
      rfl
    next => rfl
  | close _ =>
    refine .close (fun k other => ?_) (by simp [Http2Ev.Fieldless, addField])
    simp only [Http2ndSession.header?, TreeMap.getElem?_erase, Std.compare_eq_iff_eq]
    split <;> rfl

-- ---------------------------------------------------------------------------
-- The headers of a run
-- ---------------------------------------------------------------------------

def Stores (tr : List Http2Ev) (s : Http2State) : Prop :=
  ∀ k name, s.session.header? k name = lastValue (fieldsOf (fun _ => true) k tr) name

theorem Stores.step (h : Stores tr s) (hs : FieldStep s s' es) : Stores (tr ++ es) s' := by
  intro k other
  cases hs with
  | header _ hnow => simp [hnow, lastValue_fieldsOf_header, h k]
  | close hnow hes =>
    rw [hnow, fieldsOf_close tr _ hes]
    split
    · rfl
    · exact h k other
  | other hnow hes => rw [hnow, fieldsOf_quiet hes, h]

theorem http2_stores (h : http2Session.Run tr s) : Stores tr s := by
  refine h.invariant (I := Stores) ?_ ?_
  · intro k name
    simp [Http2ndSession.header?, show http2Session.init.session.streams = ∅ from rfl, fieldsOf]
  · intro tr s a s' es hr ih _ hs
    exact ih.step (http2Session_fields (http2_entries_default hr) hs)

def FiledIn (tr : List Http2Ev) (s : Http2State) : Prop :=
  ∀ k name, s.session.header? k name = lastValue (fieldsOf Nghttp2Frame.isHeaders k tr) name

theorem filedIn_iff (h : http2Session.Run tr s) : FiledIn tr s ↔ ∀ k name,
    lastValue (fieldsOf (fun _ => true) k tr) name = lastValue (fieldsOf Nghttp2Frame.isHeaders k tr) name := by
  have hstores := http2_stores h
  exact forall₂_congr fun k name => by rw [hstores k name]

theorem fieldless_repeats (he : e.Fieldless) (t : List Http2Ev) : RepeatsField t e := by
  cases e with
  | header f name value =>
    have hadd := he (fun _ => true) f.stream_id []
    simp [addField] at hadd
  | _ => trivial

theorem repeats_of_step (hs : FieldStep s s' es) (h : http2Session.Run (tr ++ es) s')
    (hfiled : FiledIn (tr ++ es) s') : AlwaysFrom RepeatsField tr es := by
  cases hs with
  | header _ _ => exact ⟨repeats_of_lastValue ((filedIn_iff h).mp hfiled), trivial⟩
  | close _ hes => exact ⟨trivial, alwaysFrom_of_forall fun e he => fieldless_repeats (hes e he)⟩
  | other _ hes => exact alwaysFrom_of_forall fun e he => fieldless_repeats (hes e he)

theorem filedIn_of_repeats (h : http2Session.Run tr s) (hrepeats : Always RepeatsField tr) : FiledIn tr s :=
  (filedIn_iff h).mpr (lastValue_of_repeats hrepeats)

theorem kept_of_filed (hfiled : FiledIn tr s) (hfiled' : FiledIn (tr ++ es) s')
    (hstep : http2Session.step s (.header name value) = some (s', es)) (hblock : s.block = some f)
    (hpromise : f.type = NGHTTP2_PUSH_PROMISE) (k : Int) (other : String) :
    s'.session.header? k other = s.session.header? k other := by
  have hnot : f.isHeaders = false := by
    rw [Nghttp2Frame.isHeaders, hpromise]
    rfl
  cases http2Session_step hstep with
  | header hblock' _ =>
    obtain rfl := Option.some.inj (hblock.symm.trans hblock')
    rw [hfiled', hfiled, lastValue_fieldsOf_header, if_neg (by simp [hnot])]

/-- The headers of the streams are the fields of their `HEADERS` frames, and promises
leave them alone, if and only if each field of a promise repeats what they say. -/
theorem headers_filed_iff (as : List Http2Act) (tr : List Http2Ev) (s : Http2State)
    (h : http2Session.replay http2Session.init as = some (s, tr)) :
    HeadersFiled as ↔ Always RepeatsField tr := by
  induction as using List.reverseRecOn generalizing tr s with
  | nil =>
    cases h
    refine iff_of_true ⟨?_, fun tr s name value f s' es htakes => absurd htakes Machine.not_takes_nil⟩ always_nil
    rintro before tr s hprefix h
    obtain rfl := List.prefix_nil.mp hprefix
    exact filedIn_of_repeats (Machine.steps_of_replay h) (by cases h; exact always_nil)
  | append_singleton as a ih =>
    obtain ⟨s₀, tr₀, es, hr, hs, rfl⟩ := Machine.replay_snoc.mp h
    have hrun₀ := Machine.steps_of_replay hr
    have hrun := Machine.steps_of_replay h
    have hfields := http2Session_fields (http2_entries_default hrun₀) hs
    rw [always_append, ← ih _ _ hr]
    constructor
    · intro hheaders
      refine ⟨⟨fun before tr s hle => hheaders.filed before tr s (hle.trans (List.prefix_append ..)),
        fun tr s name value f s' es htakes => hheaders.kept tr s name value f s' es
          (Machine.takes_snoc.mpr (.inl htakes))⟩, ?_⟩
      exact repeats_of_step hfields hrun (hheaders.filed _ _ _ List.prefix_rfl h)
    · rintro ⟨hheaders, hrepeats⟩
      have hfiled₀ : FiledIn tr₀ s₀ := hheaders.filed _ _ _ List.prefix_rfl hr
      have hfiled : FiledIn (tr₀ ++ es) s :=
        filedIn_of_repeats hrun (always_append.mpr ⟨(ih _ _ hr).mp hheaders, hrepeats⟩)
      refine ⟨?_, ?_⟩
      · intro before tr s' hprefix hbefore
        rcases List.prefix_concat_iff.mp hprefix with rfl | hprefix
        · cases h.symm.trans hbefore
          exact hfiled
        · exact hheaders.filed before tr s' hprefix hbefore
      · intro tr s₁ name value f s' es' htakes hblock hpromise hstep other
        rcases Machine.takes_snoc.mp htakes with htakes | ⟨rfl, hr₁⟩
        · exact hheaders.kept tr s₁ name value f s' es' htakes hblock hpromise hstep other
        · cases hr.symm.trans hr₁
          cases hs.symm.trans hstep
          exact kept_of_filed hfiled₀ hfiled hstep hblock hpromise f.stream_id other

theorem blocks_headers_filed : ∃ as tr s, http2Session.replay http2Session.init as = some (s, tr) ∧
    .header ⟨NGHTTP2_PUSH_PROMISE, 4, 1, .headers⟩ ":path" "/" ∈ tr ∧ HeadersFiled as := by
  have hr : (http2Session.replay http2Session.init
    [.beginHeaders ⟨NGHTTP2_HEADERS, 4, 1, .request⟩ 0, .header ":path" "/",
      .beginHeaders ⟨NGHTTP2_HEADERS, 4, 3, .request⟩ 0, .header ":path" "/a", .header ":path" "/b",
      .beginHeaders ⟨NGHTTP2_PUSH_PROMISE, 4, 1, .headers⟩ 0, .header ":path" "/"]).isSome := rfl
  have hreplay := (Option.some_get hr).symm
  refine ⟨_, _, _, hreplay, by decide, (headers_filed_iff _ _ _ hreplay).mpr ?_⟩
  refine always_iff_alwaysFrom.mpr ?_
  exact ⟨trivial, .inl rfl, trivial, .inl rfl, .inl rfl, trivial, .inr (by decide), trivial⟩

/-- The path of a promised stream becomes a header of the stream that the promise was sent on. -/
theorem promise_changes_headers : ∃ as tr s, http2Session.replay http2Session.init as = some (s, tr) ∧
    tr = [.beginHeaders ⟨NGHTTP2_PUSH_PROMISE, 4, 1, .headers⟩,
      .header ⟨NGHTTP2_PUSH_PROMISE, 4, 1, .headers⟩ ":path" "/style.css"] ∧
    s.session.header? 1 ":path" = some "/style.css" ∧ ¬HeadersFiled as := by
  have hr : (http2Session.replay http2Session.init [.beginHeaders ⟨NGHTTP2_PUSH_PROMISE, 4, 1, .headers⟩ 0,
    .header ":path" "/style.css"]).isSome := rfl
  have hreplay := (Option.some_get hr).symm
  have hpath := http2_stores (Machine.steps_of_replay hreplay) 1 ":path"
  refine ⟨_, _, _, hreplay, rfl, hpath.trans (by decide), fun h => ?_⟩
  have hfiled := h.filed _ _ _ List.prefix_rfl hreplay 1 ":path"
  rw [hpath] at hfiled
  revert hfiled
  decide

-- ---------------------------------------------------------------------------
-- The content of a stream
-- ---------------------------------------------------------------------------

@[simp] theorem headers_push_data (x : Http2ndStream) (data : String) :
    (x.push_data data).headers = x.headers.insert "body" (x.headers.getD "body" "" ++ data) := by
  unfold Http2ndStream.push_data Http2ndStream.headers
  cases x.derive_data <;> rfl

section

variable {x : Http2ndStream}

@[simp] theorem push_data_eq (x : Http2ndStream) (data : String) : x.push (.data data) = x.push_data data := rfl

@[simp] theorem push_header_eq (x : Http2ndStream) (name value : String) :
    x.push (.header name value) = x.push_header name value := rfl

@[simp] theorem pushAll_nil (x : Http2ndStream) : x.pushAll [] = x := rfl

@[simp] theorem pushAll_cons (x : Http2ndStream) (p : StreamPush) (ps : List StreamPush) :
    x.pushAll (p :: ps) = (x.push p).pushAll ps := rfl

@[simp] theorem pushAll_append (x : Http2ndStream) (ps ps' : List StreamPush) :
    x.pushAll (ps ++ ps') = (x.pushAll ps).pushAll ps' := List.foldl_append

@[simp] theorem chunksOf_data (data : String) (ps : List StreamPush) :
    chunksOf (.data data :: ps) = data :: chunksOf ps := rfl

@[simp] theorem chunksOf_header (name value : String) (ps : List StreamPush) :
    chunksOf (.header name value :: ps) = chunksOf ps := rfl

@[simp] theorem chunksOf_append (ps ps' : List StreamPush) : chunksOf (ps ++ ps') = chunksOf ps ++ chunksOf ps' :=
  List.filterMap_append

@[simp] theorem fieldsPushed_data (data : String) (ps : List StreamPush) :
    fieldsPushed (.data data :: ps) = fieldsPushed ps := rfl

@[simp] theorem fieldsPushed_header (name value : String) (ps : List StreamPush) :
    fieldsPushed (.header name value :: ps) = (name, value) :: fieldsPushed ps := rfl

@[simp] theorem fieldsPushed_append (ps ps' : List StreamPush) :
    fieldsPushed (ps ++ ps') = fieldsPushed ps ++ fieldsPushed ps' := List.filterMap_append

theorem headers_pushAll_ne (hname : name ≠ "body") (x : Http2ndStream) (ps : List StreamPush) :
    (x.pushAll ps).headers[name]? = (lastValue (fieldsPushed ps) name).or x.headers[name]? := by
  induction ps generalizing x with
  | nil => rfl
  | cons p ps ih =>
    rw [pushAll_cons, ih]
    cases p with
    | data data => simp [TreeMap.getElem?_insert, Ne.symm hname]
    | header other value =>
      by_cases h : name = other
      · simp [lastValue_cons, h]
      · simp [lastValue_cons, TreeMap.getElem?_insert, h, Ne.symm h]

theorem body_pushAll (h : lastValue (fieldsPushed ps) "body" = none) (x : Http2ndStream) :
    (x.pushAll ps).headers.getD "body" "" = x.headers.getD "body" "" ++ String.join (chunksOf ps) := by
  induction ps generalizing x with
  | nil => simp [chunksOf]
  | cons p ps ih =>
    cases p with
    | data data => simp [ih h, String.join_cons, String.append_assoc]
    | header name value =>
      simp only [fieldsPushed_header, lastValue_cons, Option.or_eq_none_iff, ite_eq_right_iff,
        reduceCtorEq, imp_false] at h
      simp [ih h.1, TreeMap.getD_insert, Ne.symm h.2]

theorem mem_pushAll {x : Http2ndStream} (h : "body" ∈ x.headers) (ps : List StreamPush) :
    "body" ∈ (x.pushAll ps).headers := by
  induction ps generalizing x with
  | nil => exact h
  | cons p ps ih => cases p <;> exact ih (by simp [h])

theorem split_of_lastValue (h : lastValue (fieldsPushed ps) "body" = some value) : ∃ before after,
    ps = before ++ .header "body" value :: after ∧ lastValue (fieldsPushed after) "body" = none := by
  induction ps with
  | nil => cases h
  | cons p ps ih =>
    by_cases hrest : lastValue (fieldsPushed ps) "body" = some value
    · obtain ⟨before, after, rfl, hnone⟩ := ih hrest
      exact ⟨p :: before, after, rfl, hnone⟩
    · cases p with
      | data data => exact absurd h hrest
      | header name value' =>
        rw [fieldsPushed_header, lastValue_cons] at h
        cases hlast : lastValue (fieldsPushed ps) "body" with
        | some other =>
          rw [hlast] at h hrest
          exact absurd h hrest
        | none =>
          rw [hlast, Option.none_or] at h
          obtain ⟨rfl, heq⟩ := Option.ite_none_right_eq_some.mp h
          obtain rfl := Option.some.inj heq
          exact ⟨[], ps, rfl, hlast⟩

/-- A header "body" replaces what there was, and later data goes behind it. -/
theorem body_pushAll_split (hafter : lastValue (fieldsPushed after) "body" = none) (x : Http2ndStream)
    (before : List StreamPush) :
    (x.pushAll (before ++ .header "body" value :: after)).headers["body"]? =
      some (value ++ String.join (chunksOf after)) := by
  have hmem : "body" ∈ (((x.pushAll before).push_header "body" value).pushAll after).headers :=
    mem_pushAll (by simp) after
  have hgetD := body_pushAll hafter ((x.pushAll before).push_header "body" value)
  rw [headers_push_header, TreeMap.getD_insert_self] at hgetD
  rw [pushAll_append, pushAll_cons, push_header_eq, TreeMap.getElem?_eq_some_getD hmem, hgetD]

theorem lastValue_split (hafter : lastValue (fieldsPushed after) "body" = none) (before : List StreamPush)
    (value : String) :
    lastValue (fieldsPushed (before ++ .header "body" value :: after)) "body" = some value := by
  simp [lastValue_append, lastValue_cons, hafter]

theorem contentApart_of_no_body (hx : x.headers = ∅) (h : lastValue (fieldsPushed ps) "body" = none) :
    ContentApart x ps := by
  refine ⟨?_, fun name value hvalue => ?_⟩
  · simp [body_pushAll h, hx]
  · have hname : name ≠ "body" := by
      rintro rfl
      cases h.symm.trans hvalue
    rw [headers_pushAll_ne hname, hvalue, Option.some_or]

/-- Body and headers are apart if and only if the last header "body", if there is one,
says what the body is without it. -/
theorem content_apart_iff (x : Http2ndStream) (hx : x.headers = ∅) (ps : List StreamPush) :
    ContentApart x ps ↔ RepeatsBody ps := by
  constructor
  · rintro ⟨hbody, hheader⟩ before value after rfl hafter
    have hlast := hheader "body" value (lastValue_split hafter before value)
    rw [body_pushAll_split hafter, Option.some.injEq, String.append_eq_left_iff] at hlast
    rw [TreeMap.getD_eq_getD_getElem?, body_pushAll_split hafter, hlast] at hbody
    simp only [Option.getD_some, String.append_empty, chunksOf_append, chunksOf_header, String.join_append,
      hlast] at hbody
    exact ⟨hbody, hlast⟩
  · intro hrepeats
    cases hlast : lastValue (fieldsPushed ps) "body" with
    | none => exact contentApart_of_no_body hx hlast
    | some value =>
      obtain ⟨before, after, rfl, hafter⟩ := split_of_lastValue hlast
      obtain ⟨hvalue, hempty⟩ := hrepeats before value after rfl hafter
      have hbody : (x.pushAll (before ++ .header "body" value :: after)).headers["body"]? =
          some (value ++ String.join (chunksOf after)) := body_pushAll_split hafter x before
      rw [hempty, String.append_empty] at hbody
      refine ⟨?_, fun name value' hvalue' => ?_⟩
      · rw [TreeMap.getD_eq_getD_getElem?, hbody]
        simp [hempty, String.join_append, hvalue]
      · by_cases hname : name = "body"
        · subst hname
          exact hbody.trans (hlast.symm.trans hvalue')
        · rw [headers_pushAll_ne hname, hvalue', Option.some_or]

end

theorem content_apart_trailer : ContentApart .new [.data "hel", .header "etag" "a", .data "lo", .header "etag" "b"] :=
  (content_apart_iff .new rfl _).mpr <| by
    intro before value after heq
    have hmem : StreamPush.header "body" value ∈
        [.data "hel", .header "etag" "a", .data "lo", .header "etag" "b"] := heq ▸ by simp
    simp at hmem

/-- A trailer called "body" takes the place of the body. -/
theorem trailer_replaces_body :
    (Http2ndStream.new.pushAll [.data "hello", .header "body" "x"]).headers.getD "body" "" = "x" ∧
      ¬ContentApart .new [.data "hello", .header "body" "x"] := by
  have hbody : (Http2ndStream.new.pushAll [.data "hello", .header "body" "x"]).headers.getD "body" "" = "x" := by
    simp
  refine ⟨hbody, fun h => ?_⟩
  have hdata := h.body
  rw [hbody] at hdata
  revert hdata
  decide

end Andren.Network
