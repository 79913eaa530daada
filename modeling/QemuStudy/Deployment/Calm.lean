/-
  Every orderly run is calm: what a step keeps.

  Nothing stops a party (`Calm.not_stop`): commands and system calls succeed, every `read` returns
  exactly the message it asks for, so both of its asserts hold, and `assert(sigusr1_count)` is
  reached only after the handler that sets it.  A signal that is due finds its handler.  So nobody
  ends, and each field of `Calm` is kept by every step.  `Deployment.Turns` does the same for the
  destination of the QEMU modes and concludes.

  That a `connect` succeeds and a `read` returns what the peer has sent takes addresses that lead to
  the right parties (`Proper`).
-/
import QemuStudy.Deployment.Streams

namespace QemuStudy.Deployment

open QemuStudy.Controller (Role Signal Fd Msg End otherEnd readSome readSome_whole readSome_nil wire
  cstr takeWhile_bytes length_le_dataLen DATA_LEN)
open QemuStudy.Threads
open QemuStudy.Runs

/-! ## The code -/

section Code

variable {md : Mode}

/-- Directly before a length assert stands its `read`, and before a chosen write the choice. -/
def Instr.precedes : Instr → Instr → Bool
  | .read _ m', .assertLen m => m' = m
  | .choose clear set, .write _ .chosen => clear = .qemuVmRestart ∧ set = .qemuPostCopyFinish
  | _, .assertLen _ => false
  | _, .write _ .chosen => false
  | _, _ => true

/-- Neighbours in the code of any thread: one check of the finite table of programs. -/
theorem precedes_of_suffix {r : Role} {o : Option Signal} {i j : Instr} {t : List Instr}
    (h : i :: j :: t <:+ code md r o) : i.precedes j = true := by
  have hall : ((code md r o).zip (code md r o).tail).all (fun x => x.1.precedes x.2) = true := by
    cases md <;> cases r <;> rcases o with _ | _ | _ <;> decide
  have hij : [i, j] <:+: code md r o := (show [i, j] <+: i :: j :: t from ⟨t, rfl⟩).isInfix.trans
    h.isInfix
  exact List.all_eq_true.mp hall (i, j) (Text.mem_zip_tail_iff_infix.mpr hij)

/-- So whoever comes to a length assert has just read that message. -/
theorem read_before_assertLen {r : Role} {o : Option Signal} {i : Instr} {m : Msg}
    {t : List Instr} (h : i :: .assertLen m :: t <:+ code md r o) : ∃ fd, i = .read fd m := by
  have hp := precedes_of_suffix h
  cases i with
  | read fd m' =>
    obtain rfl : m' = m := of_decide_eq_true hp
    exact ⟨fd, rfl⟩
  | _ => cases hp

/-- No handler starts with a length assert: a fresh thread has read nothing yet. -/
theorem handler_ne_assertLen (r : Role) (s : Signal) (m : Msg) (t : List Instr) :
    code md r (some s) ≠ .assertLen m :: t := by
  intro heq
  have hhead := congrArg List.head? heq
  cases md <;> cases r <;> cases s <;> cases hhead

/-- `assert(sigusr1_count)` stands in one handler, the one for a complete image. -/
theorem assertCount_thread {r : Role} {o : Option Signal} (hi : .assertCount ∈ code md r o) :
    md = .shm ∧ r = .src ∧ o = some .usr1 := by
  revert hi
  cases md <;> cases r <;> rcases o with _ | _ | _ <;> decide

end Code

/-! ## No assert fails -/

/-- With the whole message pending and a `read` that is not cut short, the message is what comes
    out, and `read_len` is its length. -/
theorem exec_read_whole {s : Settings} {r : Role} {c : Env} {fd : Fd} {m : Msg} {v v' : Vars}
    {l l' : Locals} {w w' : World} {d : Data} {rest : List UInt8} (hk : DATA_LEN ≤ c.k)
    (hinbox : w.inbox (r, fd) = m.bytes ++ rest)
    (hexec : exec s r c (.read fd m) v l w = .done v' l' w' d) :
    d.bytes = m.bytes ∧ l'.readLen = m.bytes.length := by
  have hchunk : readSome c.k (m.sizeof - 1) (w.inbox (r, fd)) = m.bytes := by
    rw [hinbox]
    exact readSome_whole ((length_le_dataLen m).trans hk) rest
  simp only [exec, hchunk] at hexec
  split at hexec
  · cases hexec
  · rw [if_neg m.bytes_ne_nil] at hexec
    cases hexec
    exact ⟨rfl, rfl⟩

/-- A `read` that is done found something. -/
theorem inbox_of_read {s : Settings} {r : Role} {c : Env} {fd : Fd} {m : Msg} {v v' : Vars}
    {l l' : Locals} {w w' : World} {d : Data}
    (hexec : exec s r c (.read fd m) v l w = .done v' l' w' d) : w.inbox (r, fd) ≠ [] := by
  intro hnil
  simp only [exec, hnil, readSome_nil] at hexec
  split at hexec <;> cases hexec

section Steps

variable {md : Mode} {st : Role → Settings} {σ : Net}
  (h : Reach (machine (fun _ => md) st).step (Orderly md) (start (fun _ => md) st) σ)
  (hc : Calm md st σ)

include h hc

/-- A source that is to check `sigusr1_count` has set it. -/
theorem Calm.count_at_assert {r : Role} {o : Option Signal} {t : List Instr}
    (htop : (σ.proc r).todoOf o = .assertCount :: t) : (σ.proc r).vars.count = true := by
  have hcode : .assertCount ∈ code md r o :=
    (Reach.each todo_suffix_kept h r (hc.alive r) o).subset (htop ▸ List.mem_cons_self)
  obtain ⟨rfl, rfl, rfl⟩ := assertCount_thread hcode
  rcases Reach.once h (hc.alive .src) (hc.once .src (some .usr1)) with ⟨-, -, hnil⟩ | ⟨h1, -⟩
  · rw [hnil] at htop
    cases htop
  · obtain ⟨l₁, l₂, hlog⟩ := List.append_of_mem (mem_of_starts (by rw [h1]; exact one_ne_zero))
    obtain ⟨σ₁, -, ⟨hdue, -⟩, rfl, -, -⟩ := at_started h hlog
    refine (count_iff_did h (hc.alive .src)).mpr (Did.mono ?_ hdue)
    rw [hlog]
    exact List.subset_append_left _ _

/-- **No instruction stops the process.** -/
theorem Calm.not_stop (hst : Proper st) {r : Role} {c : Env}
    {o : Option Signal} {i : Instr} {t : List Instr} (hrun : Orderly md σ (.run r c))
    (hnext : (σ.proc r).top = some (o, i)) (htop : (σ.proc r).todoOf o = i :: t) :
    (machine (fun _ => md) st).exec r c i (σ.proc r).vars
      ((machine (fun _ => md) st).locOf (σ.proc r) o) σ.world ≠ .stop := by
  obtain ⟨hfail, hlistening⟩ := hrun.2 o i hnext
  have hok : i.mayFail = false → c.ok = true := by
    intro hi
    exact hfail.resolve_right (by rw [hi]; exact Bool.false_ne_true)
  have hno : ∀ {x : Outcome Vars Locals World Data}, i.mayFail = false →
      (∃ v l w d, x = .done v l w d) → (if c.ok = true then x else .stop) ≠ .stop := by
    rintro x hi ⟨v, l, w, d, rfl⟩
    rw [if_pos (hok hi)]
    simp
  intro hstop
  replace hstop : exec (st r) r c i (σ.proc r).vars
    ((machine (fun _ => md) st).locOf (σ.proc r) o) σ.world = .stop := hstop
  cases i with
  | signal | spawn | check | socket | bind | listen =>
    exact hno rfl ⟨_, _, _, _, rfl⟩ hstop
  | retry =>
    simp only [exec] at hstop
    split at hstop <;> cases hstop
  | accept =>
    simp only [exec] at hstop
    split at hstop
    · cases hstop
    · exact hno rfl ⟨_, _, _, _, rfl⟩ hstop
  | connect fd ip port =>
    obtain ⟨rfl, hfd, hdial⟩ := connect_code (next_mem_code h (hc.alive r) htop)
    have hanswer := answering_of_proper hst h hfd (hlistening fd rfl) c.k
    rw [dials_of_dial (st .backup) hfd hdial] at hanswer
    simp only [exec, hanswer, if_pos (hok rfl)] at hstop
    cases hstop
  | write fd arg =>
    simp only [exec, hok rfl, Bool.true_eq_false, if_false] at hstop
    split at hstop <;> cases hstop
  | read fd m =>
    simp only [exec, hok rfl, Bool.true_eq_false, if_false] at hstop
    split at hstop <;> cases hstop
  | assertLen m =>
    have hlen : ((machine (fun _ => md) st).locOf (σ.proc r) o).readLen = m.sizeof - 1 :=
      hc.lens r o m t htop
    simp only [exec] at hstop
    rw [if_pos hlen] at hstop
    cases hstop
  | assertStrcmp m =>
    obtain ⟨fd, d, hx, hstr⟩ := buff_at_strcmp h (hc.alive r) htop
    simp only [exec] at hstop
    rw [if_pos (by rw [hstr, hc.whole r o fd m d hx, takeWhile_bytes])] at hstop
    cases hstop
  | assertCount =>
    simp only [exec] at hstop
    rw [if_pos (hc.count_at_assert h htop)] at hstop
    cases hstop
  | _ => cases hstop

/-! ## What a step keeps -/

variable (hst : Proper st) {σ' : Net} {x : Choice} (hx : Orderly md σ x)
  (hchange : Change (machine (fun _ => md) st) σ σ' x)

include hst hx hchange

/-- Nobody ends: an instruction does not stop its process, and a signal that is due has a
    handler. -/
theorem Calm.alive_step (r : Role) :
    (σ'.proc r).alive = true := by
  have hframe : ∀ {r' : Role}, (σ'.proc r').alive = true → (∀ r, r ≠ r' → σ'.proc r = σ.proc r) →
      (σ'.proc r).alive = true := by
    intro r' hlive hf
    by_cases hr : r = r'
    · rw [hr]
      exact hlive
    · rw [hf r hr]
      exact hc.alive r
  cases hchange with
  | quiet _ _ hsame =>
    rw [(hsame r).alive]
    exact hc.alive r
  | drifts _ _ hproc =>
    rw [hproc]
    exact hc.alive r
  | does _ _ _ _ _ hlive hf _ _ => exact hframe hlive hf
  | starts _ _ _ _ _ hlive hf _ _ => exact hframe hlive hf
  | stops _ htop hexec _ _ _ _ hnext => exact absurd hexec (hc.not_stop h hst hx hnext htop)
  | kills _ hhandles _ _ _ _ =>
    have hhandled := decide_eq_true (installed_of_due h (hc.alive _) hx.1)
    rw [show (machine (fun _ => md) st).handles _ _ = true from hhandled] at hhandles
    cases hhandles

omit h hst in
/-- A signal is raised only if its handler has not run yet. -/
theorem Calm.once_step (r : Role) (o : Option Signal) :
    starts r o σ'.log ≤ 1 := by
  cases hchange with
  | quiet _ hlog _ => rw [hlog]; exact hc.once r o
  | drifts _ hlog _ => rw [hlog]; exact hc.once r o
  | does _ _ _ _ _ _ _ _ hlog =>
    rw [hlog, starts_append_of_not_start rfl]
    exact hc.once r o
  | stops _ _ _ _ _ _ hlog =>
    rw [hlog, starts_append_of_not_start rfl]
    exact hc.once r o
  | kills _ _ _ _ _ hlog =>
    rw [hlog, starts_append_of_not_start rfl]
    exact hc.once r o
  | @starts r' s _ _ _ _ _ _ _ _ hlog =>
    rw [hlog, starts_append_start]
    by_cases hs : r' = r ∧ some s = o
    · obtain ⟨rfl, rfl⟩ := hs
      rw [if_pos ⟨rfl, rfl⟩, hx.2]
    · rw [if_neg hs]
      exact hc.once r o

/-- A `read` returns the message it asks for and nothing else, because everything that asks for it
    is pending (`Calm.inbox_at_read`). -/
theorem Calm.whole_step (ht : md.isShm = false → Turns md st σ) (r : Role)
    (o : Option Signal) (fd : Fd) (m : Msg) (d : Data)
    (hd : (⟨r, o, .did (.read fd m) d⟩ : Entry) ∈ σ'.log) : d.bytes = m.bytes := by
  have hold : ∀ {e : Entry}, σ'.log = σ.log ++ [e] → e ≠ ⟨r, o, .did (.read fd m) d⟩ →
      d.bytes = m.bytes := by
    intro e hlog hne
    rw [hlog] at hd
    rcases List.mem_append.mp hd with hd | hd
    · exact hc.whole r o fd m d hd
    · exact absurd (List.mem_singleton.mp hd).symm hne
  cases hchange with
  | quiet _ hlog _ => exact hc.whole r o fd m d (hlog ▸ hd)
  | drifts _ hlog _ => exact hc.whole r o fd m d (hlog ▸ hd)
  | stops _ _ _ _ _ _ hlog => exact hold hlog (by simp)
  | kills _ _ _ _ _ hlog => exact hold hlog (by simp)
  | starts _ _ _ _ _ _ _ _ hlog => exact hold hlog (by simp)
  | @does r' c o' i t v l w d' _ htop hexec _ _ _ _ _ hlog =>
    by_cases he : (⟨r', o', .did i d'⟩ : Entry) = ⟨r, o, .did (.read fd m) d⟩
    · cases he
      obtain ⟨rest, hrest⟩ := hc.inbox_at_read h hst ht htop (inbox_of_read (s := st r) hexec)
      exact (exec_read_whole (s := st r) hx.1 hrest hexec).1
    · exact hold hlog he

/-- The length that an assert will look at is that of the message. -/
theorem Calm.lens_step (ht : md.isShm = false → Turns md st σ) (r : Role)
    (o : Option Signal) (m : Msg) (t : List Instr)
    (htodo : (σ'.proc r).todoOf o = .assertLen m :: t) :
    ((machine (fun _ => md) st).locOf (σ'.proc r) o).readLen = m.bytes.length := by
  have hkeep : σ'.proc r = σ.proc r →
      ((machine (fun _ => md) st).locOf (σ'.proc r) o).readLen = m.bytes.length := by
    intro heq
    rw [heq] at htodo ⊢
    exact hc.lens r o m t htodo
  have hdead : ∀ {r' : Role}, (σ'.proc r').alive = false → r' ≠ r := by
    rintro r' hd rfl
    rw [hc.alive_step h hst hx hchange r'] at hd
    cases hd
  cases hchange with
  | quiet _ _ hsame =>
    rw [(hsame r).todo] at htodo
    rw [(hsame r).loc o (by rw [htodo]; exact List.cons_ne_nil _ _)]
    exact hc.lens r o m t htodo
  | drifts _ _ hproc => exact hkeep (by rw [hproc])
  | stops _ _ _ hd hframe _ _ => exact hkeep (hframe r (hdead hd).symm)
  | kills _ _ hd hframe _ _ => exact hkeep (hframe r (hdead hd).symm)
  | @does r' c o' i t' v l w d _ htop hexec hmoved _ _ hframe _ _ =>
    by_cases hr : r = r'
    · subst hr
      rw [hmoved.todo] at htodo
      by_cases ho : o = o'
      · -- the instruction before the assert is the `read`
        subst ho
        rw [Function.update_self] at htodo
        subst htodo
        have hsuffix := Reach.each todo_suffix_kept h r (hc.alive r) o
        rw [htop] at hsuffix
        obtain ⟨fd, rfl⟩ := read_before_assertLen hsuffix
        obtain ⟨rest, hrest⟩ := hc.inbox_at_read h hst ht htop (inbox_of_read (s := st r) hexec)
        rw [hmoved.loc]
        exact (exec_read_whole (s := st r) hx.1 hrest hexec).2
      · rw [Function.update_of_ne ho] at htodo
        rw [hmoved.frame o ho]
        exact hc.lens r o m t htodo
    · exact hkeep (hframe r hr)
  | @starts r' s _ _ _ hmoved _ _ hframe _ _ =>
    by_cases hr : r = r'
    · subst hr
      rw [hmoved.todo] at htodo
      by_cases ho : o = some s
      · subst ho
        rw [Function.update_self] at htodo
        exact absurd htodo (handler_ne_assertLen r s m t)
      · rw [Function.update_of_ne ho] at htodo
        rw [hmoved.frame o ho]
        exact hc.lens r o m t htodo
    · exact hkeep (hframe r hr)

end Steps

end QemuStudy.Deployment
