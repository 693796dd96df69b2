/-
# Websocket streams

`stream/websocket.hpp`, the server's end.  `do_accept` reads the header of the upgrade into a
cache and hands it to the delegate; what was received behind the header stays in the cache,
and `do_read` is to hand it out before it reads from the delegate.

Beast is a parameter.  A caller's buffer is the memory it had before the call, as long as the
buffer: `do_read` returns a count, and the caller finds the memory as the call left it.

`delivers_iff`: the callers find the bytes of the cache if and only if there are none.  The two
arguments of `buffer_copy` are exchanged: the caller's buffer is copied over the cache.
-/
import Pichi.HttpStream

namespace Pichi

open Transfer

variable {σ : Type}

/-! ## Streams -/

/-- `beast::websocket::stream` with its next layer.  `readHeader` is `http::async_read_header`,
which is given the cache and returns the request and the cache behind it. -/
structure WebsocketDelegate (σ : Type) where
  readHeader : Bytes → σ → Result ((Http.Request × Bytes) × σ)
  accept : Http.Request → σ → Result σ
  readSome : ℕ → σ → Result Bytes × σ

/-- `stream::Websocket`. -/
structure Websocket (σ : Type) where
  path : Bytes
  host : Bytes
  delegate : σ
  buf : Bytes

namespace Websocket

/-- `assertTrue(bool, error_code)`. -/
def assertTrue (b : Bool) (ec : ErrorCode) : Result Unit :=
  if b then .ok () else .error (.thrown (.systemError ⟨ec, ""⟩))

/-- `http::error::bad_target`. -/
def badTarget : ErrorCode := .http 13

/-- `http::error::bad_value`. -/
def badValue : ErrorCode := .http 18

/-- `asio::buffer_copy`: the memory of the target behind it. -/
def bufferCopy (target source : Bytes) : Bytes :=
  source.take target.length ++ target.drop source.length

/-- `do_accept`. -/
def doAccept (D : WebsocketDelegate σ) (ws : Websocket σ) : Result (Websocket σ) := do
  let ((header, buf), delegate) ← D.readHeader ws.buf ws.delegate
  assertTrue (header.target = ws.path) badTarget
  if ws.host ≠ [] then
    assertTrue ((header.find .host).getD [] = ws.host) badValue
  return { ws with buf, delegate := ← D.accept header delegate }

/-- `do_read` into the memory `b`: the count, the memory behind the call, and the stream. -/
def doRead (D : WebsocketDelegate σ) (b : Bytes) (ws : Websocket σ) :
    Result (ℕ × Bytes) × Websocket σ :=
  if ws.buf.length = 0 then
    match D.readSome b.length ws.delegate with
    | (.ok got, delegate) => (.ok (got.length, bufferCopy b got), { ws with delegate })
    | (.error e, delegate) => (.error e, { ws with delegate })
  else
    let copied := min ws.buf.length b.length
    -- the target is the cache
    let buf := bufferCopy ws.buf b
    (.ok (copied, b), { ws with buf := buf.drop copied })

/-- Calls of `do_read` until the cache is empty: what the callers find in their buffers, as
far as the counts say. -/
def readCached (D : WebsocketDelegate σ) : List Bytes → Websocket σ → Bytes × Websocket σ
  | [], ws => ([], ws)
  | b :: bs, ws =>
    if ws.buf = [] then ([], ws)
    else
      match doRead D b ws with
      | (.ok (n, memory), ws) =>
        (memory.take n ++ (readCached D bs ws).1, (readCached D bs ws).2)
      | (.error _, ws) => ([], ws)

/-- The callers find the bytes of the cache, and the others stay in the cache. -/
def Delivers (D : WebsocketDelegate σ) (ws : Websocket σ) (bs : List Bytes) : Prop :=
  (readCached D bs ws).1 = ws.buf.take bs.flatten.length
    ∧ (readCached D bs ws).2 = { ws with buf := ws.buf.drop bs.flatten.length }

/-! ## What is delivered -/

/-- What is consumed is what was overwritten. -/
theorem drop_bufferCopy (target source : Bytes) :
    (bufferCopy target source).drop (min target.length source.length)
      = target.drop source.length := by
  have hlength : (source.take target.length).length = min target.length source.length :=
    List.length_take
  rw [bufferCopy, ← hlength, List.drop_left]

/-- A call with bytes in the cache: the count is right, the cache loses as many bytes, and the
caller's memory is as before. -/
theorem doRead_of_cached (D : WebsocketDelegate σ) (b : Bytes) {ws : Websocket σ}
    (h : ws.buf ≠ []) :
    doRead D b ws
      = (.ok (min ws.buf.length b.length, b), { ws with buf := ws.buf.drop b.length }) := by
  have hlength : ¬ws.buf.length = 0 := fun heq => h (List.eq_nil_of_length_eq_zero heq)
  rw [doRead, if_neg hlength]
  simp only [drop_bufferCopy]

/-- **What the callers find** is what was in their buffers before.  The cache is worked through
in order, and nothing is read from the delegate. -/
theorem readCached_eq (D : WebsocketDelegate σ) (bs : List Bytes) : ∀ ws : Websocket σ,
    readCached D bs ws
      = (bs.flatten.take ws.buf.length, { ws with buf := ws.buf.drop bs.flatten.length }) := by
  induction bs with
  | nil =>
      intro ws
      rw [readCached, List.flatten_nil, List.take_nil, List.length_nil, List.drop_zero]
  | cons b bs ih =>
      intro ws
      rw [readCached]
      split
      · rename_i hnil
        rw [hnil, List.length_nil, List.take_zero, List.drop_nil, ← hnil]
      · rename_i hne
        rw [doRead_of_cached D b hne]
        simp only
        rw [ih]
        rw [List.flatten_cons, List.take_append, List.length_append, List.length_drop,
          List.drop_drop, ← List.take_eq_take_min]

/-- The calls deliver if and only if the callers' buffers held the due bytes before. -/
theorem delivers_iff_take (D : WebsocketDelegate σ) (ws : Websocket σ) (bs : List Bytes) :
    Delivers D ws bs ↔ bs.flatten.take ws.buf.length = ws.buf.take bs.flatten.length := by
  rw [Delivers, readCached_eq]
  exact and_iff_left rfl

/-- **When the bytes of the cache are delivered**, into buffers of any sizes and whatever was in
them: if and only if nothing is left in the cache, or nothing is asked for. -/
theorem delivers_iff (D : WebsocketDelegate σ) (ws : Websocket σ) (sizes : List ℕ) :
    (∀ bs : List Bytes, bs.map List.length = sizes → Delivers D ws bs)
      ↔ ws.buf = [] ∨ ∀ n ∈ sizes, n = 0 := by
  constructor
  · intro hall
    by_contra hnot
    obtain ⟨hne, hsome⟩ := not_or.mp hnot
    push Not at hsome
    obtain ⟨n, hn, hpos⟩ := hsome
    obtain ⟨x, left, hbuf⟩ := List.exists_cons_of_ne_nil hne
    -- buffers filled with another byte than the first one of the cache
    let bs : List Bytes := sizes.map fun n => List.replicate n (x + 1)
    have hlength : List.length ∘ (fun n => List.replicate n (x + 1)) = id := by
      funext n
      exact List.length_replicate
    have hsizes : bs.map List.length = sizes := by
      show (sizes.map _).map _ = _
      rw [List.map_map, hlength, List.map_id]
    obtain ⟨b, hb, hblength⟩ : ∃ b ∈ bs, b ≠ [] :=
      ⟨List.replicate n (x + 1), List.mem_map_of_mem hn, by simpa using hpos⟩
    have hflat : bs.flatten ≠ [] := fun hnil => hblength (List.flatten_eq_nil_iff.mp hnil b hb)
    obtain ⟨y, rest, hcons⟩ := List.exists_cons_of_ne_nil hflat
    have hy : y = x + 1 := by
      have hmem : y ∈ bs.flatten := by simp [hcons]
      simp only [bs, List.mem_flatten, List.mem_map] at hmem
      obtain ⟨_, ⟨m, -, rfl⟩, hmem⟩ := hmem
      exact List.eq_of_mem_replicate hmem
    have htake := (delivers_iff_take D ws bs).mp (hall bs hsizes)
    rw [hbuf, hcons, List.length_cons, List.length_cons, List.take_succ_cons,
      List.take_succ_cons] at htake
    have hhead : y = x := (List.cons.inj htake).1
    rw [hy] at hhead
    exact absurd hhead (by simp)
  · rintro (hnil | hzero) bs hsizes
    · rw [delivers_iff_take, hnil, List.length_nil, List.take_zero, List.take_nil]
    · have hflat : bs.flatten = [] := by
        rw [List.flatten_eq_nil_iff]
        intro b hb
        exact List.eq_nil_of_length_eq_zero (hzero _ (hsizes ▸ List.mem_map_of_mem hb))
      rw [delivers_iff_take, hflat, List.length_nil, List.take_zero, List.take_nil]

/-- A client that sends `hi` together with the upgrade, and a delegate that has accepted it. -/
def Example.delegate : WebsocketDelegate (Source UInt8) where
  readHeader cache src := do
    let (cache, src) ← Http.Example.readHeader (src.all.length + 1) { readable := cache } src
    return ((⟨.other (lit "GET"), lit "/ws", [(.host, lit "a")], 11⟩, cache.readable), src)
  accept _ src := .ok src
  readSome n src :=
    match src.readSome n with
    | some (got, src) => (.ok got, src)
    | none => (.error Http.eof, src)

def Example.upgrade : Source UInt8 :=
  ⟨[lit "GET /ws HTTP/1.1\r\nHost: a\r\n\r\nhi"], by decide⟩

/-- A buffer of two zeros stays one: the count is two, the bytes are lost. -/
theorem delivers_counterexample :
    ∃ ws, doAccept Example.delegate ⟨lit "/ws", lit "a", Example.upgrade, []⟩ = .ok ws
      ∧ ws.buf = lit "hi"
      ∧ (doRead Example.delegate [0, 0] ws).1 = .ok (2, [0, 0])
      ∧ ¬∀ bs : List Bytes, bs.map List.length = [2] → Delivers Example.delegate ws bs := by
  have haccept : ∃ ws, doAccept Example.delegate ⟨lit "/ws", lit "a", Example.upgrade, []⟩ = .ok ws
      ∧ ws.buf = lit "hi" := ⟨_, rfl, rfl⟩
  obtain ⟨ws, haccept, hbuf⟩ := haccept
  refine ⟨ws, haccept, hbuf, ?_, ?_⟩
  · rw [doRead_of_cached _ _ (by rw [hbuf]; decide), hbuf]
    rfl
  · intro hall
    have htake := (delivers_iff_take _ _ _).mp (hall [[0, 0]] rfl)
    rw [hbuf] at htake
    exact absurd htake (by decide)

end Websocket

end Pichi
