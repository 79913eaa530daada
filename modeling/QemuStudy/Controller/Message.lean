/-
  The control messages of `apps/controller.c` and the C buffer they are read into.

  A message is a bare string: `write_to_file` sends its `strlen` bytes with neither a terminator
  nor a length, and the reader asks for `sizeof(literal) - 1` bytes and compares the result with
  `strcmp`.  Nothing on the wire separates two messages, and one of them, `shm_migrate`, is a
  prefix of another, `shm_migrate_switchover`.

  * `Msg` enumerates the literals, `Msg.bytes` is what `write` sends;
  * `readSome` is one `read()`: of the pending bytes it takes at least one (if there is any) and at
    most the requested number, and everything between is the network's choice;
  * `memset`, `store` and `cstr` are what happens to `buff`.
-/
import Mathlib.Data.List.Basic
import Mathlib.Data.List.TakeWhile

namespace QemuStudy.Controller

/-! ## Messages -/

/-- The string literals passed to `write_to_file`. -/
inductive Msg
  | qemuMigrate
  | qemuPreCopyFinish
  | qemuVmRestart
  | qemuPostCopyFinish
  | shmMigrate
  | shmMigrateSwitchover
  | startTargetVm
  | shmPreCopyFinish
  | completeVmImage
  | shmLoadVmImage
  | switchoverFinished
  deriving DecidableEq, Repr

def Msg.text : Msg → String
  | .qemuMigrate => "qemu_migrate"
  | .qemuPreCopyFinish => "qemu_pre_copy_finish"
  | .qemuVmRestart => "qemu_vm_restart"
  | .qemuPostCopyFinish => "qemu_post_copy_finish"
  | .shmMigrate => "shm_migrate"
  | .shmMigrateSwitchover => "shm_migrate_switchover"
  | .startTargetVm => "start_target_vm"
  | .shmPreCopyFinish => "shm_pre_copy_finish"
  | .completeVmImage => "complete_vm_image"
  | .shmLoadVmImage => "shm_load_vm_image"
  | .switchoverFinished => "switchover_finished"

/-- The `strlen(data)` bytes that `write_to_file` sends. -/
def Msg.bytes (m : Msg) : List UInt8 := m.text.toList.map fun c => c.toNat.toUInt8

/-- `sizeof` of the literal: its characters and the terminating NUL. -/
def Msg.sizeof (m : Msg) : Nat := m.bytes.length + 1

/-- The bytes on the wire after several messages. -/
def wire (ms : List Msg) : List UInt8 := ms.flatMap Msg.bytes

theorem Msg.one_lt_length (m : Msg) : 1 < m.bytes.length := by cases m <;> decide

theorem Msg.bytes_ne_nil (m : Msg) : m.bytes ≠ [] :=
  List.ne_nil_of_length_pos (Nat.lt_trans Nat.zero_lt_one m.one_lt_length)

/-- No two literals are the same text. -/
theorem Msg.bytes_injective {m m' : Msg} (h : m.bytes = m'.bytes) : m = m' := by
  cases m <;> cases m' <;> first | rfl | exact absurd h (by decide)

theorem Msg.bytes_ne_zero (m : Msg) : ∀ b ∈ m.bytes, b ≠ 0 := by
  have hall : m.bytes.all (fun b => b != 0) = true := by cases m <;> decide
  intro b hb
  simpa using List.all_eq_true.mp hall b hb

/-- A completed image cannot be mistaken for a finished pre-copy, whatever follows on the wire. -/
theorem Msg.complete_ne_preCopy {l r : List UInt8} :
    Msg.completeVmImage.bytes ++ l ≠ Msg.shmPreCopyFinish.bytes ++ r := by
  intro h
  have h0 := congrArg List.head? h
  rw [List.head?_append_of_ne_nil _ (by decide), List.head?_append_of_ne_nil _ (by decide)] at h0
  exact absurd h0 (by decide)

@[simp] theorem wire_nil : wire [] = [] := rfl

@[simp] theorem wire_cons (m : Msg) (ms : List Msg) : wire (m :: ms) = m.bytes ++ wire ms := rfl

@[simp] theorem wire_append (ms ms' : List Msg) : wire (ms ++ ms') = wire ms ++ wire ms' :=
  List.flatMap_append

/-- Whole messages never vanish on the wire. -/
theorem wire_eq_nil {ms : List Msg} (h : wire ms = []) : ms = [] := by
  cases ms with
  | nil => rfl
  | cons m ms =>
    have := m.one_lt_length
    rw [wire_cons, List.append_eq_nil_iff] at h
    rw [h.1] at this
    simp at this

/-! ## One `read()` -/

/-- What `read(fd, data, req)` may return of the `pending` bytes; `k` is the network's choice.
    `[]` only if nothing is pending. -/
def readSome (k req : Nat) (pending : List UInt8) : List UInt8 := pending.take (max 1 (min k req))

theorem readSome_nil (k req : Nat) : readSome k req [] = [] := by simp [readSome]

theorem readSome_ne_nil (k req : Nat) {pending : List UInt8} (h : pending ≠ []) :
    readSome k req pending ≠ [] := by
  intro hr
  rcases List.take_eq_nil_iff.mp hr with h0 | hp
  · omega
  · exact h hp

theorem readSome_length_le {k req : Nat} (hreq : 1 ≤ req) (pending : List UInt8) :
    (readSome k req pending).length ≤ req := by
  rw [readSome, List.length_take]; omega

/-- The bytes read leave the stream in order. -/
theorem readSome_append_drop (k req : Nat) (pending : List UInt8) :
    readSome k req pending ++ pending.drop (readSome k req pending).length = pending := by
  rw [readSome, List.length_take]
  rcases Nat.le_total (max 1 (min k req)) pending.length with h | h
  · rw [Nat.min_eq_left h, List.take_append_drop]
  · rw [Nat.min_eq_right h, List.drop_length, List.append_nil, List.take_of_length_le h]

/-- A `read` that is not cut short returns the message at the head of the stream. -/
theorem readSome_whole {k : Nat} {m : Msg} (hk : m.bytes.length ≤ k) (r : List UInt8) :
    readSome k m.bytes.length (m.bytes ++ r) = m.bytes := by
  have := m.one_lt_length
  rw [readSome, show max 1 (min k m.bytes.length) = m.bytes.length by omega, List.take_left]

/-! ## The buffer -/

def DATA_LEN : Nat := 1024

/-- `char buff[DATA_LEN]`. -/
abbrev Buff := List UInt8

/-- `memset(data, 0, n)`. -/
def memset (n : Nat) (data : Buff) : Buff := List.replicate n 0 ++ data.drop n

/-- The bytes `read` puts at the front of `data`. -/
def store (chunk : List UInt8) (data : Buff) : Buff := chunk ++ data.drop chunk.length

/-- `data` as a C string, as `strcmp` sees it. -/
def cstr (data : Buff) : List UInt8 := data.takeWhile (· ≠ 0)

/-- After `memset(data, 0, n)` anything shorter that is read is terminated by a NUL. -/
theorem cstr_store_memset {n : Nat} {chunk : List UInt8} (h : chunk.length < n) (data : Buff) :
    cstr (store chunk (memset n data)) = chunk.takeWhile (· ≠ 0) := by
  have hdrop : (memset n data).drop chunk.length
      = 0 :: (List.replicate (n - chunk.length - 1) 0 ++ data.drop n) := by
    rw [memset, List.drop_append_of_le_length (by simp; omega), List.drop_replicate,
      show n - chunk.length = (n - chunk.length - 1) + 1 by omega, List.replicate_succ]
    rfl
  rw [cstr, store, hdrop, List.takeWhile_append]
  split
  · rename_i hall
    rw [List.takeWhile_cons_of_neg (by simp), List.append_nil]
    exact ((List.takeWhile_prefix _).eq_of_length hall).symm
  · rfl

theorem takeWhile_bytes (m : Msg) : m.bytes.takeWhile (· ≠ 0) = m.bytes := by
  rw [List.takeWhile_eq_self_iff]
  intro b hb
  simpa using m.bytes_ne_zero b hb

/-- `strcmp` after the length assert leaves one possibility: the bytes read are the message. -/
theorem eq_bytes_of_cstr {m : Msg} {chunk : List UInt8} (hlen : chunk.length = m.bytes.length)
    (hstr : chunk.takeWhile (· ≠ 0) = m.bytes) : chunk = m.bytes := by
  have hpre := List.takeWhile_prefix (p := fun b : UInt8 => decide (b ≠ 0)) (l := chunk)
  rw [hstr] at hpre
  exact (hpre.eq_of_length hlen.symm).symm

end QemuStudy.Controller
