/-
  `read_from_file` of `apps/controller.c` against a TCP stream.

  `read_from_file(fd, len, data)` clears the buffer, calls `read(fd, data, len - 1)` until it
  returns something other than 0, and asserts that it returned `len - 1` bytes.  So

  * a SHORT read ends in the assert, although the rest of the message is on its way, and
  * a CLOSED peer makes `read` return 0 for ever, and the loop never ends.

  `Tolerates msgs k seg` is what a control channel should give: one side writes `msgs`, the first
  `k` bytes of them arrive before the peer closes, `seg j` bounds the result of the `j`-th `read`,
  and the other side makes the matching calls in order.  `tolerates_iff` says exactly when the code
  achieves it: no read of a message that arrives is cut short, and the peer does not close just
  before the first byte of a message that is still awaited.

  A call that does not return is not hidden: `readLoop` carries fuel, and "terminates" is
  "some fuel suffices".
-/
import QemuStudy.Controller.Message

namespace QemuStudy.Controller

/-! ## The code -/

/-- The bytes that will still arrive before the peer closes, and how many `read`s have returned. -/
structure Stream where
  rest : List UInt8
  reads : Nat

/-- How a call can fail to return. -/
inductive Stop
  | assertFailed
  | outOfFuel
  deriving DecidableEq, Repr

/-- `while (1) { read_len = read(fd, data, len - 1); if (read_len) break; }`, `req` being `len - 1`.
    Once the stream is used up every `read` returns 0. -/
def readLoop (seg : Nat → Nat) (req : Nat) : Nat → Stream → Except Stop (List UInt8 × Stream)
  | 0, _ => .error .outOfFuel
  | fuel + 1, s =>
    let chunk := readSome (seg s.reads) req s.rest
    let s' : Stream := ⟨s.rest.drop chunk.length, s.reads + 1⟩
    if chunk.length ≠ 0 then .ok (chunk, s') else readLoop seg req fuel s'

/-- `read_from_file(fd, len, data)`. -/
def readFromFile (seg : Nat → Nat) (len fuel : Nat) (data : Buff) (s : Stream) :
    Except Stop (Buff × Stream) := do
  let data := memset (len + 1) data
  let r ← readLoop seg (len - 1) fuel s
  if r.1.length = len - 1 then return (store r.1 data, r.2) else throw .assertFailed

/-! ## What a session of matching calls should do -/

section Session

variable (msgs : List Msg) (k : Nat) (seg : Nat → Nat)

/-- The bytes of the first `j` messages. -/
def offset (j : Nat) : Nat := (wire (msgs.take j)).length

/-- `buff` and the stream just before the `j`-th call, all earlier calls having returned. -/
inductive BeforeCall : Nat → Buff → Stream → Prop
  | start (data : Buff) : BeforeCall 0 data ⟨(wire msgs).take k, 0⟩
  | next {j fuel : Nat} {m : Msg} {data data' : Buff} {s s' : Stream} :
      BeforeCall j data s → msgs[j]? = some m →
      readFromFile seg m.sizeof fuel data s = .ok (data', s') → BeforeCall (j + 1) data' s'

/-- Every call that is made terminates, and a call whose message arrives returns that message. -/
def Tolerates : Prop :=
  ∀ j data s m, BeforeCall msgs k seg j data s → msgs[j]? = some m →
    (∃ fuel, readFromFile seg m.sizeof fuel data s ≠ .error .outOfFuel) ∧
    (offset msgs (j + 1) ≤ k → ∃ fuel data' s',
      readFromFile seg m.sizeof fuel data s = .ok (data', s') ∧ cstr data' = m.bytes)

end Session

/-! ## One call -/

theorem readLoop_nil (seg : Nat → Nat) (req fuel reads : Nat) :
    readLoop seg req fuel ⟨[], reads⟩ = .error .outOfFuel := by
  induction fuel generalizing reads with
  | zero => rfl
  | succ fuel ih =>
    rw [readLoop]
    simp only [readSome_nil, List.length_nil, ne_eq, not_true_eq_false, if_false, List.drop_nil]
    exact ih _

theorem readLoop_of_ne_nil (seg : Nat → Nat) (req fuel : Nat) {s : Stream} (h : s.rest ≠ []) :
    readLoop seg req (fuel + 1) s = .ok (readSome (seg s.reads) req s.rest,
      ⟨s.rest.drop (readSome (seg s.reads) req s.rest).length, s.reads + 1⟩) := by
  rw [readLoop]
  have hne := readSome_ne_nil (seg s.reads) req h
  rw [if_pos (by simpa using hne)]

/-- At the end of the stream the call never comes back. -/
theorem readFromFile_nil (seg : Nat → Nat) (len fuel : Nat) (data : Buff) (reads : Nat) :
    readFromFile seg len fuel data ⟨[], reads⟩ = .error .outOfFuel := by
  rw [readFromFile, readLoop_nil]; rfl

/-- Otherwise the first `read` decides: the call returns if it got everything, else the assert
    fails. -/
theorem readFromFile_of_ne_nil (seg : Nat → Nat) (m : Msg) (fuel : Nat) (data : Buff) {s : Stream}
    (h : s.rest ≠ []) :
    readFromFile seg m.sizeof (fuel + 1) data s =
      if (readSome (seg s.reads) m.bytes.length s.rest).length = m.bytes.length then
        .ok (store (readSome (seg s.reads) m.bytes.length s.rest) (memset (m.sizeof + 1) data),
          ⟨s.rest.drop m.bytes.length, s.reads + 1⟩)
      else .error .assertFailed := by
  have hlen : m.sizeof - 1 = m.bytes.length := rfl
  rw [readFromFile, hlen, readLoop_of_ne_nil seg m.bytes.length fuel h]
  show (if _ then _ else _) = _
  split
  · rename_i hfull
    rw [hfull]; rfl
  · rfl

/-- A call that returns took exactly its message's length off the stream, in one `read` that was
    not cut short. -/
theorem readFromFile_ok {seg : Nat → Nat} {m : Msg} {fuel : Nat} {data data' : Buff}
    {s s' : Stream} (h : readFromFile seg m.sizeof fuel data s = .ok (data', s')) :
    s' = ⟨s.rest.drop m.bytes.length, s.reads + 1⟩ ∧ m.bytes.length ≤ s.rest.length ∧
      m.bytes.length ≤ seg s.reads := by
  obtain ⟨rest, reads⟩ := s
  by_cases hnil : rest = []
  · rw [hnil, readFromFile_nil] at h; cases h
  · cases fuel with
    | zero => cases h
    | succ fuel =>
      rw [readFromFile_of_ne_nil seg m fuel data hnil] at h
      split at h
      · rename_i hfull
        have hone := m.one_lt_length
        rw [readSome, List.length_take] at hfull
        cases h
        exact ⟨rfl, by omega, by omega⟩
      · cases h

/-- A call whose message is at the head of the stream and is not cut short returns it. -/
theorem readFromFile_whole (seg : Nat → Nat) (m : Msg) (data : Buff) {s : Stream} {r : List UInt8}
    (hs : s.rest = m.bytes ++ r) (hseg : m.bytes.length ≤ seg s.reads) :
    ∃ data' s', readFromFile seg m.sizeof 1 data s = .ok (data', s') ∧ cstr data' = m.bytes := by
  have hone := m.one_lt_length
  have hne : s.rest ≠ [] := by
    intro h0
    rw [h0] at hs
    have := congrArg List.length hs
    simp at this
    omega
  refine ⟨store m.bytes (memset (m.sizeof + 1) data),
    ⟨s.rest.drop m.bytes.length, s.reads + 1⟩, ?_, ?_⟩
  · rw [readFromFile_of_ne_nil seg m 0 data hne, hs, readSome_whole hseg, if_pos rfl]
  · rw [cstr_store_memset (by rw [Msg.sizeof]; omega), takeWhile_bytes]

/-! ## The session -/

section Session

variable {msgs : List Msg} {k : Nat} {seg : Nat → Nat}

theorem offset_succ {j : Nat} {m : Msg} (h : msgs[j]? = some m) :
    offset msgs (j + 1) = offset msgs j + m.bytes.length := by
  have htake : msgs.take (j + 1) = msgs.take j ++ [m] := by rw [List.take_add_one, h]; rfl
  rw [offset, htake, wire_append, List.length_append, offset]
  simp

/-- The stream from the `j`-th message on. -/
theorem wire_drop_offset {j : Nat} {m : Msg} (h : msgs[j]? = some m) :
    ∃ r, (wire msgs).drop (offset msgs j) = m.bytes ++ r := by
  obtain ⟨hj, hm⟩ := List.getElem?_eq_some_iff.mp h
  refine ⟨wire (msgs.drop (j + 1)), ?_⟩
  have hsplit : wire msgs = wire (msgs.take j) ++ wire (msgs.drop j) := by
    rw [← wire_append, List.take_append_drop]
  rw [hsplit, offset, List.drop_left, List.drop_eq_getElem_cons hj, hm, wire_cons]

/-- **Between calls** the stream stands at a message boundary, one `read` per message. -/
theorem BeforeCall.state {j : Nat} {data : Buff} {s : Stream}
    (h : BeforeCall msgs k seg j data s) :
    s.reads = j ∧ s.rest = ((wire msgs).take k).drop (offset msgs j) ∧ offset msgs j ≤ k := by
  induction h with
  | start data => simp [offset]
  | @next j fuel m data data' s s' _ hm hcall ih =>
    obtain ⟨hreads, hrest, hle⟩ := ih
    obtain ⟨hs', hlen, -⟩ := readFromFile_ok hcall
    rw [hrest, List.length_drop, List.length_take] at hlen
    have hone := m.one_lt_length
    rw [hs', offset_succ hm]
    refine ⟨by rw [hreads], ?_, by omega⟩
    rw [hrest, List.drop_drop]

/-- The rest of the stream before a call whose message arrives completely. -/
theorem BeforeCall.rest_of_le {j : Nat} {data : Buff} {s : Stream} {m : Msg}
    (h : BeforeCall msgs k seg j data s) (hm : msgs[j]? = some m)
    (hle : offset msgs (j + 1) ≤ k) : ∃ r, s.rest = m.bytes ++ r := by
  obtain ⟨-, hrest, -⟩ := h.state
  obtain ⟨r, hr⟩ := wire_drop_offset hm
  rw [offset_succ hm] at hle
  refine ⟨r.take (k - offset msgs j - m.bytes.length), ?_⟩
  rw [hrest, List.drop_take, hr, List.take_append, List.take_of_length_le (by omega)]

/-- If the session tolerates the stream, every call up to the last complete message is made. -/
theorem Tolerates.reached (h : Tolerates msgs k seg) :
    ∀ j, j ≤ msgs.length → offset msgs j ≤ k → ∃ data s, BeforeCall msgs k seg j data s := by
  intro j
  induction j with
  | zero => intro _ _; exact ⟨[], _, BeforeCall.start []⟩
  | succ j ih =>
    intro hj hle
    obtain ⟨m, hm⟩ : ∃ m, msgs[j]? = some m := ⟨_, List.getElem?_eq_getElem (by omega)⟩
    have hoff := offset_succ hm
    obtain ⟨data, s, hbefore⟩ := ih (by omega) (by omega)
    obtain ⟨fuel, data', s', hcall, -⟩ := (h j data s m hbefore hm).2 hle
    exact ⟨data', s', hbefore.next hm hcall⟩

/-- **What the control channel really tolerates.**  The matching calls all terminate and return
    their messages if and only if no `read` of an arriving message is cut short and the peer does
    not close exactly where a message that is still awaited would begin. -/
theorem tolerates_iff (msgs : List Msg) (k : Nat) (seg : Nat → Nat) :
    Tolerates msgs k seg ↔
      (∀ j m, msgs[j]? = some m → offset msgs (j + 1) ≤ k → m.bytes.length ≤ seg j) ∧
      (∀ j, j < msgs.length → k ≠ offset msgs j) := by
  constructor
  · intro h
    refine ⟨fun j m hm hle => ?_, fun j hj hk => ?_⟩
    · have hlen := (List.getElem?_eq_some_iff.mp hm).1
      have hoff := offset_succ hm
      obtain ⟨data, s, hbefore⟩ := h.reached j (by omega) (by omega)
      obtain ⟨fuel, data', s', hcall, -⟩ := (h j data s m hbefore hm).2 hle
      have hseg := (readFromFile_ok hcall).2.2
      rwa [hbefore.state.1] at hseg
    · -- the peer closed at this boundary: the next call spins
      obtain ⟨data, s, hbefore⟩ := h.reached j (by omega) (by omega)
      obtain ⟨fuel, hfuel⟩ :=
        (h j data s _ hbefore (List.getElem?_eq_getElem hj)).1
      obtain ⟨-, hrest, -⟩ := hbefore.state
      rw [hk, List.drop_take, Nat.sub_self, List.take_zero] at hrest
      obtain ⟨rest, reads⟩ := s
      cases hrest
      exact hfuel (readFromFile_nil _ _ _ _ _)
  · rintro ⟨hseg, hclose⟩ j data s m hbefore hm
    obtain ⟨hreads, hrest, hle⟩ := hbefore.state
    have hj := (List.getElem?_eq_some_iff.mp hm).1
    have hwhole : offset msgs (j + 1) ≤ k → ∃ data' s',
        readFromFile seg m.sizeof 1 data s = .ok (data', s') ∧ cstr data' = m.bytes := by
      intro hk
      obtain ⟨r, hr⟩ := hbefore.rest_of_le hm hk
      exact readFromFile_whole seg m data hr (hreads ▸ hseg j m hm hk)
    refine ⟨⟨1, ?_⟩, fun hk => ⟨1, hwhole hk⟩⟩
    -- something of the message arrives, so the first `read` ends the loop
    have hne : s.rest ≠ [] := by
      obtain ⟨r, hr⟩ := wire_drop_offset hm
      have hone := m.one_lt_length
      have hk := hclose j hj
      intro h0
      rw [hrest, List.drop_take, hr] at h0
      have h1 := congrArg List.length h0
      rw [List.length_take, List.length_append, List.length_nil] at h1
      omega
    rw [readFromFile_of_ne_nil seg m 0 data hne]
    split <;> simp

/-- The first `read` brings 4 of the 11 bytes of `shm_migrate`, or the peer closes before it sent
    anything: in both cases the session fails. -/
theorem short_read_not_tolerated :
    ¬ Tolerates [.shmMigrate] 11 (fun _ => 4) ∧ ¬ Tolerates [.shmMigrate] 0 (fun _ => 11) := by
  constructor
  · intro h
    obtain ⟨fuel, data, s, hcall, -⟩ :=
      (h 0 [] _ .shmMigrate (BeforeCall.start []) rfl).2 (by decide)
    exact absurd (readFromFile_ok hcall).2.2 (by decide)
  · intro h
    obtain ⟨fuel, hfuel⟩ := (h 0 [] _ .shmMigrate (BeforeCall.start []) rfl).1
    exact hfuel (readFromFile_nil _ _ _ _ _)

end Session

end QemuStudy.Controller
