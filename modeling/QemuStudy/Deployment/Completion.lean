/-
  A deployment in an orderly environment completes, in every mode.

  `Deployment.Calm` has shown that nobody stops.  Here: nobody waits for ever either.  A party that
  cannot move is at one of four instructions (`Blocked`): in its idle loop, in `accept` before
  anybody has connected, in a `read` with nothing to read, or before a `connect` to a party that
  does not listen yet.  If everybody waits and no signal is due, the backup has reported
  (`reported_of_waits`): a party that waits in a `read` has not been sent its whole script
  (`Waits.not_all_sent`), but a backup that waits for an answer has sent the peer all of its script
  (`Waits.peer_idle`), and a peer that idles has said all it has to say (`Waits.peer_spoken`).

  `work` counts what is left: the instructions and returns of all stacks, and the handlers that have
  not been started.  No orderly step makes it larger, and a turn that is `Ready` makes it smaller.
  By the rule for fair runs (`FairRun.reaches`) every fair run comes to the report
  (`deployment_completes`), if the addresses lead to the right parties (`Proper`).
-/
import QemuStudy.Deployment.Turns

namespace QemuStudy.Deployment

open QemuStudy.Controller (Role Signal Fd Msg End otherEnd readSome readSome_ne_nil wire wire_eq_nil
  eq_of_wire_eq DATA_LEN)
open QemuStudy.Threads
open QemuStudy.Runs

/-! ## What is left to do -/

/-- The signals there are. -/
def signals : List (Role × Signal) :=
  [(.backup, .usr1), (.backup, .usr2), (.src, .usr1), (.src, .usr2), (.dst, .usr1), (.dst, .usr2)]

/-- What the start of a handler will add, and the start itself. -/
def startWork (md : Mode) (log : List Entry) (x : Role × Signal) : Nat :=
  if starts x.1 (some x.2) log = 0 then (code md x.1 (some x.2)).length + 2 else 0

/-- Instructions and returns on all stacks, and the handlers to come. -/
def work (md : Mode) (σ : Net) : Nat :=
  ([Role.backup, .src, .dst].map fun r => (σ.proc r).size).sum +
    (signals.map (startWork md σ.log)).sum

section Work

variable {md : Mode} {st : Role → Settings} {σ : Net}

theorem sum_update_size (f : Role → Proc Signal Instr Vars Locals) (r : Role)
    (p : Proc Signal Instr Vars Locals) :
    ([Role.backup, .src, .dst].map fun r' => (Function.update f r p r').size).sum + (f r).size
      = ([Role.backup, .src, .dst].map fun r' => (f r').size).sum + p.size := by
  cases r <;> simp [Function.update] <;> omega

/-- Running a party changes `work` by what it changes on its stack. -/
theorem work_run (md : Mode) (st : Role → Settings) (σ : Net) (r : Role) (c : Env) :
    work md ((machine (fun _ => md) st).step σ (.run r c)) + (σ.proc r).size
      = work md σ + ((machine (fun _ => md) st).runProc r c σ.world (σ.proc r)).1.size := by
  have hstarts : ∀ x : Role × Signal,
      startWork md ((machine (fun _ => md) st).step σ (.run r c)).log x = startWork md σ.log x := by
    intro x
    rw [startWork, startWork, starts_run]
  have hsum := sum_update_size σ.proc r
    ((machine (fun _ => md) st).runProc r c σ.world (σ.proc r)).1
  rw [work, work, List.map_congr_left fun x _ => hstarts x]
  have hproc : ((machine (fun _ => md) st).step σ (.run r c)).proc = Function.update σ.proc r
      ((machine (fun _ => md) st).runProc r c σ.world (σ.proc r)).1 := rfl
  rw [hproc]
  omega

/-- A signal that is due starts its handler, and brings the end closer by one. -/
theorem work_signal (hst : Proper st)
    (h : Reach (machine (fun _ => md) st).step (Orderly md) (start (fun _ => md) st) σ) {r : Role}
    {s : Signal} (hdue : Orderly md σ (.signal r s)) :
    work md ((machine (fun _ => md) st).step σ (.signal r s)) + 1 = work md σ := by
  have hc := Calm.of_reach hst h
  have hfree : ¬ ((σ.proc r).alive = false ∨ some s ∈ (σ.proc r).stack.map Frame.origin) := by
    rintro (hdead | hframe)
    · rw [hc.alive r] at hdead
      cases hdead
    · have := Reach.starts_pos h r s hframe
      rw [hdue.2] at this
      exact absurd this (lt_irrefl 0)
  have hhandles : (machine (fun _ => md) st).handles (σ.proc r).vars s = true :=
    decide_eq_true (installed_of_due h (hc.alive r) hdue.1)
  have hres : (machine (fun _ => md) st).deliver r s (σ.proc r)
      = (⟨⟨some s, code md r (some s), Locals.fresh⟩ :: (σ.proc r).stack, (σ.proc r).vars,
          (σ.proc r).alive⟩, some ⟨r, some s, .started⟩) := by
    rw [Machine.deliver, if_neg hfree, if_pos hhandles]
    rfl
  have hlog : ((machine (fun _ => md) st).step σ (.signal r s)).log
      = σ.log ++ [⟨r, some s, .started⟩] := by
    rw [Machine.step, hres]
    rfl
  have hproc : ((machine (fun _ => md) st).step σ (.signal r s)).proc
      = Function.update σ.proc r ⟨⟨some s, code md r (some s), Locals.fresh⟩ :: (σ.proc r).stack,
          (σ.proc r).vars, (σ.proc r).alive⟩ := by
    rw [Machine.step, hres]
  have hsum := sum_update_size σ.proc r ⟨⟨some s, code md r (some s), Locals.fresh⟩ ::
    (σ.proc r).stack, (σ.proc r).vars, (σ.proc r).alive⟩
  have hsize : Proc.size (⟨⟨some s, code md r (some s), Locals.fresh⟩ :: (σ.proc r).stack,
      (σ.proc r).vars, (σ.proc r).alive⟩ : Proc Signal Instr Vars Locals)
      = (σ.proc r).size + (code md r (some s)).length + 1 := by
    show (code md r (some s)).length + 1 + (σ.proc r).size = _
    omega
  have hstart : (signals.map (startWork md (σ.log ++ [⟨r, some s, .started⟩]))).sum
      + ((code md r (some s)).length + 2) = (signals.map (startWork md σ.log)).sum := by
    have hfresh := hdue.2
    cases r <;> cases s <;> (simp [signals, startWork, starts_append_start, hfresh]; omega)
  rw [work, work, hlog, hproc]
  omega

end Work

/-! ## Turns -/

/-- Who acts: a party, or QEMU by raising a signal. -/
inductive Turn
  | run (r : Role)
  | signal (r : Role) (s : Signal)
  deriving DecidableEq, Repr

/-- A turn in which the command or system call succeeds. -/
def Turn.of : Turn → Choice → Prop
  | .run r, x => ∃ c : Env, c.ok = true ∧ x = .run r c
  | .signal r s, x => x = .signal r s

/-- Party `r` has to wait before it can do `i`. -/
def Blocked (w : World) (r : Role) : Instr → Prop
  | .idle => True
  | .accept => w.calls r = []
  | .read fd _ => w.inbox (r, fd) = []
  | .connect fd _ _ => w.listening (otherEnd (r, fd)).1 = false
  | _ => False

/-- The turn will get the deployment on. -/
def Ready (md : Mode) (σ : Net) : Turn → Prop
  | .run r => ∀ o i, (σ.proc r).top = some (o, i) → ¬ Blocked σ.world r i
  | .signal r s => Orderly md σ (.signal r s)

/-- Whoever succeeds and need not wait gets on. -/
theorem blocked_of_again {s : Settings} {r : Role} {c : Env} {i : Instr} {v : Vars} {l : Locals}
    {w : World} (hok : c.ok = true) (h : exec s r c i v l w = .again) : Blocked w r i := by
  cases i with
  | idle => trivial
  | accept =>
    simp only [exec, hok, if_true] at h
    split at h
    · assumption
    · cases h
  | read fd m =>
    simp only [exec, hok, Bool.true_eq_false, if_false] at h
    split at h
    · rename_i hchunk
      by_contra hne
      exact readSome_ne_nil c.k (m.sizeof - 1) hne hchunk
    · cases h
  | connect fd ip port =>
    simp only [exec] at h
    split at h
    · split at h <;> cases h
    · cases h
  | write fd arg =>
    simp only [exec] at h
    split at h
    · cases h
    · split at h <;> cases h
  | signal | spawn | retry | check | socket | bind | listen =>
    simp only [exec, hok, if_true] at h
    cases h
  | assertLen | assertStrcmp | assertCount =>
    simp only [exec] at h
    split at h <;> cases h
  | _ => cases h

theorem blocked_drift (w : World) (n : Nat) (r : Role) (i : Instr) :
    Blocked { w with now := n } r i ↔ Blocked w r i := by
  cases i <;> rfl

theorem due_drift (md : Mode) (σ : Net) (w : World) (r : Role) (s : Signal) :
    due md ⟨w, σ.proc, σ.log⟩ r s ↔ due md σ r s := by
  cases md <;> cases r <;> cases s <;> rfl

/-- Who is ready can have a turn. -/
theorem Ready.can {md : Mode} {σ : Net} {a : Turn} (ha : Ready md σ a) :
    ∃ x, a.of x ∧ Orderly md σ x := by
  cases a with
  | run r =>
    refine ⟨.run r ⟨DATA_LEN, true⟩, ⟨_, rfl, rfl⟩, le_rfl, fun o i hnext => ⟨Or.inl rfl, ?_⟩⟩
    intro fd hfd
    cases i with
    | connect fd' ip port =>
      obtain rfl := Option.some.inj hfd
      exact (Bool.not_eq_false _).mp (ha o _ hnext)
    | _ => cases hfd
  | signal r s => exact ⟨_, rfl, ha⟩

section Progress

variable {md : Mode} {st : Role → Settings} {σ : Net} (hst : Proper st)
  (h : Reach (machine (fun _ => md) st).step (Orderly md) (start (fun _ => md) st) σ)

include hst h

/-- The main threads idle in the end, they do not return. -/
theorem main_busy (r : Role) : (σ.proc r).todoOf none ≠ [] := by
  intro hnil
  rcases Reach.once h ((Calm.of_reach hst h).alive r) (o := none) le_rfl with ⟨h0, -⟩ | ⟨-, hcode⟩
  · cases h0
  · rw [hnil, List.append_nil] at hcode
    have hidle : .idle ∈ didOf r none σ.log := by
      rw [hcode]
      change .idle ∈ code md r none
      cases md <;> cases r <;> decide
    obtain ⟨d, hd⟩ := mem_didOf.mp hidle
    obtain ⟨l₁, l₂, hlog⟩ := List.append_of_mem hd
    obtain ⟨_, _, _, _, _, _, _, _, _, _, _, hexec⟩ := at_did h hlog
    cases hexec

/-- Running a party gets the deployment on or changes nothing. -/
theorem run_moves {r : Role} {c : Env} (hx : Orderly md σ (.run r c)) :
    work md ((machine (fun _ => md) st).step σ (.run r c)) < work md σ ∨
      (machine (fun _ => md) st).step σ (.run r c) = σ := by
  rcases runProc_moves (M := machine (fun _ => md) st) (r := r) (c := c) (w := σ.world)
    (p := σ.proc r) with hlt | hsame | ⟨o, i, t, hnext, htop, hstop⟩
  · have := work_run md st σ r c
    exact Or.inl (by omega)
  · exact Or.inr (step_run_idle hsame)
  · exact absurd hstop ((Calm.of_reach hst h).not_stop h hst hx hnext htop)

/-- No step makes the way longer. -/
theorem work_step {x : Choice} (hx : Orderly md σ x) :
    work md ((machine (fun _ => md) st).step σ x) ≤ work md σ := by
  cases x with
  | run r c =>
    rcases run_moves hst h hx with hlt | hsame
    · exact hlt.le
    · rw [hsame]
  | signal r s => exact (Nat.lt_of_succ_le (work_signal hst h hx).le).le
  | drift c => exact le_rfl

/-- Such a turn gets the deployment on. -/
theorem Ready.helps {a : Turn} {x : Choice} (ha : Ready md σ a) (hof : a.of x)
    (hx : Orderly md σ x) :
    work md ((machine (fun _ => md) st).step σ x) < work md σ := by
  have hc := Calm.of_reach hst h
  cases a with
  | signal r s =>
    obtain rfl : x = .signal r s := hof
    exact Nat.lt_of_succ_le (work_signal hst h hx).le
  | run r =>
    obtain ⟨c, hok, rfl⟩ := hof
    have hwork := work_run md st σ r c
    have hsize : ((machine (fun _ => md) st).runProc r c σ.world (σ.proc r)).1.size
        < (σ.proc r).size := by
      rcases Proc.next_cases (Reach.based h r) (main_busy hst h r) with
        ⟨o, l, f, fs, hstack⟩ | ⟨o, i, t, hnext, htop⟩
      · exact runProc_return (hc.alive r) hstack
      · cases hexec : (machine (fun _ => md) st).exec r c i (σ.proc r).vars
            ((machine (fun _ => md) st).locOf (σ.proc r) o) σ.world with
        | done v l w d => exact runProc_done (hc.alive r) hnext hexec
        | again => exact absurd (blocked_of_again (s := st r) hok hexec) (ha o i hnext)
        | stop => exact absurd hexec (hc.not_stop h hst hx hnext htop)
    omega

/-- Whatever happens, who is ready stays so until the deployment has got on. -/
theorem Ready.stays {a : Turn} {x : Choice} (ha : Ready md σ a) (hx : Orderly md σ x) :
    work md ((machine (fun _ => md) st).step σ x) < work md σ ∨
      Ready md ((machine (fun _ => md) st).step σ x) a := by
  cases x with
  | run r c =>
    refine (run_moves hst h hx).imp_right fun hsame => ?_
    rw [hsame]
    exact ha
  | signal r s => exact Or.inl (Nat.lt_of_succ_le (work_signal hst h hx).le)
  | drift c =>
    refine Or.inr ?_
    cases a with
    | run r => exact fun o i hnext hb => ha o i hnext ((blocked_drift _ _ r i).mp hb)
    | signal r s => exact ⟨(due_drift md σ _ r s).mpr ha.1, ha.2⟩

end Progress

/-! ## Who waits where -/

def Instr.waits : Instr → Bool
  | .idle | .accept | .read _ _ | .connect _ _ _ => true
  | _ => false

theorem Blocked.waits {w : World} {r : Role} {i : Instr} (hb : Blocked w r i) :
    i.waits = true := by
  cases i with
  | idle | accept | read | connect => rfl
  | _ => exact hb.elim

/-- Party `r` waits in thread `o`, at `i`. -/
structure Waits (md : Mode) (σ : Net) (r : Role) (o : Option Signal) (i : Instr) : Prop where
  next : (σ.proc r).top = some (o, i)
  point : i ∈ (code md r o).filter Instr.waits
  blocked : Blocked σ.world r i
  /-- what it has done -/
  done : didOf r o σ.log = (code md r o).takeWhile (· ≠ i)

/-- The backup has run its handler to the end, with all it prints. -/
def Reported (md : Mode) (σ : Net) : Prop :=
  didOf .backup (some .usr1) σ.log = code md .backup (some .usr1)

section Code

variable {md : Mode} {r : Role} {o : Option Signal} {i : Instr}

theorem count_point (hi : i ∈ (code md r o).filter Instr.waits) : (code md r o).count i ≤ 1 := by
  have hall : ∀ j ∈ (code md r o).filter Instr.waits, (code md r o).count j ≤ 1 := by
    cases md <;> cases r <;> rcases o with _ | _ | _ <;> decide
  exact hall i hi

/-- Source and destination listen before they wait. -/
theorem listen_before_point (hr : r ≠ .backup) (hi : i ∈ (code md r o).filter Instr.waits) :
    .listen ∈ (code md r o).takeWhile (· ≠ i) := by
  have hall : r ≠ .backup → ∀ j ∈ (code md r o).filter Instr.waits,
      .listen ∈ (code md r o).takeWhile (· ≠ j) := by
    cases md <;> cases r <;> rcases o with _ | _ | _ <;> decide
  exact hall hr i hi

/-- Where source and destination wait. -/
theorem point_peer (hr : r ≠ .backup) (hi : i ∈ (code md r o).filter Instr.waits) :
    o = none ∧ (i = .accept ∨ i = .idle ∨ ∃ m, i = .read .connfd m) := by
  have hall : r ≠ .backup → ∀ j ∈ (code md r o).filter Instr.waits,
      o = none ∧ (j = .accept ∨ j = .idle ∨ j.readsOn .connfd = true) := by
    cases md <;> cases r <;> rcases o with _ | _ | _ <;> decide
  obtain ⟨ho, hcases⟩ := hall hr i hi
  refine ⟨ho, hcases.imp_right (Or.imp_right fun hread => ?_)⟩
  cases i with
  | read fd m =>
    obtain rfl : fd = .connfd := of_decide_eq_true hread
    exact ⟨m, rfl⟩
  | _ => cases hread

/-- Where the backup waits. -/
theorem point_backup (hi : i ∈ (code md .backup o).filter Instr.waits) :
    (o = none ∧ ((∃ fd, fd ≠ .connfd ∧ i = dial fd) ∨ i = .idle)) ∨
      (o = some .usr1 ∧ ∃ fd m, fd ≠ .connfd ∧ i = .read fd m) := by
  have hall : ∀ j ∈ (code md .backup o).filter Instr.waits,
      (o = none ∧ (j = dial .srcfd ∨ j = dial .dstfd ∨ j = .idle)) ∨
        (o = some .usr1 ∧ (j.readsOn .srcfd = true ∨ j.readsOn .dstfd = true)) := by
    cases md <;> rcases o with _ | _ | _ <;> decide
  rcases hall i hi with ⟨ho, rfl | rfl | rfl⟩ | ⟨ho, hread⟩
  · exact Or.inl ⟨ho, Or.inl ⟨_, by decide, rfl⟩⟩
  · exact Or.inl ⟨ho, Or.inl ⟨_, by decide, rfl⟩⟩
  · exact Or.inl ⟨ho, Or.inr rfl⟩
  · refine Or.inr ⟨ho, ?_⟩
    cases i with
    | read fd m =>
      refine ⟨fd, m, ?_, rfl⟩
      rintro rfl
      rcases hread with hread | hread <;> cases hread
    | _ => rcases hread with hread | hread <;> cases hread

/-- A backup that waits for an answer has sent the peer its whole script. -/
theorem texts_before_point {fd : Fd} {m : Msg}
    (hi : .read fd m ∈ (code md .backup (some .usr1)).filter Instr.waits) :
    ((code md .backup (some .usr1)).takeWhile (· ≠ .read fd m)).flatMap (Instr.texts fd)
      = script md (otherEnd (.backup, fd)).1 (otherEnd (.backup, fd)).2 := by
  have hall : ∀ j ∈ (code md .backup (some .usr1)).filter Instr.waits,
      ∀ fd ∈ [Fd.connfd, .srcfd, .dstfd], j.readsOn fd = true →
      ((code md .backup (some .usr1)).takeWhile (· ≠ j)).flatMap (Instr.texts fd)
        = script md (otherEnd (.backup, fd)).1 (otherEnd (.backup, fd)).2 := by
    cases md <;> decide
  exact hall _ hi fd (by cases fd <;> decide) (by simp [Instr.readsOn])

/-- Before it waits for the destination, the backup of a QEMU mode has heard from the source. -/
theorem asks_before_point (hmd : md.isShm = false) {m : Msg}
    (hi : .read .dstfd m ∈ (code md .backup (some .usr1)).filter Instr.waits) :
    ((code md .backup (some .usr1)).takeWhile (· ≠ .read .dstfd m)).flatMap (Instr.asks .srcfd)
      ≠ [] := by
  have hall : md.isShm = false → ∀ j ∈ (code md .backup (some .usr1)).filter Instr.waits,
      j.readsOn .dstfd = true →
      ((code md .backup (some .usr1)).takeWhile (· ≠ j)).flatMap (Instr.asks .srcfd) ≠ [] := by
    cases md <;> decide
  exact hall hmd _ hi (by simp [Instr.readsOn])

theorem gate_before_idle : gate md r ∈ (code md r none).takeWhile (· ≠ .idle) := by
  cases md <;> cases r <;> decide

theorem setCount_of_usr2 : .setCount ∈ code .shm .src (some .usr2) := by decide

end Code

section Waiting

variable {md : Mode} {st : Role → Settings} {σ : Net} {r : Role} {o : Option Signal} {i : Instr}

theorem Waits.did (hw : Waits md σ r o i) {j : Instr}
    (hj : j ∈ (code md r o).takeWhile (· ≠ i)) : ∃ d, (⟨r, o, .did j d⟩ : Entry) ∈ σ.log := by
  rw [← hw.done] at hj
  exact mem_didOf.mp hj

variable (hst : Proper st)
  (h : Reach (machine (fun _ => md) st).step (Orderly md) (start (fun _ => md) st) σ)

include hst h

/-- A party that is not ready waits. -/
theorem waits_of_not_ready (hr : ¬ Ready md σ (.run r)) : ∃ o i, Waits md σ r o i := by
  have hc := Calm.of_reach hst h
  rw [Ready] at hr
  push Not at hr
  obtain ⟨o, i, hnext, hb⟩ := hr
  rcases Proc.next_cases (Reach.based h r) (main_busy hst h r) with
    ⟨o', l, f, fs, hstack⟩ | ⟨o', i', t, hnext', htop⟩
  · rw [Proc.top, hstack] at hnext
    cases hnext
  · rw [hnext] at hnext'
    cases hnext'
    have hcode : i ∈ code md r o :=
      (Reach.each todo_suffix_kept h r (hc.alive r) o).subset (htop ▸ List.mem_cons_self)
    have hpoint := List.mem_filter.mpr ⟨hcode, hb.waits⟩
    exact ⟨o, i, hnext, hpoint, hb,
      Reach.didOf_at h (hc.alive r) (hc.once r o) htop (count_point hpoint)⟩

/-- While main waits, a handler has run completely or not at all. -/
theorem Waits.handler (hw : Waits md σ r none i) (s : Signal)
    (hs : starts r (some s) σ.log ≠ 0) : didOf r (some s) σ.log = code md r (some s) := by
  have hc := Calm.of_reach hst h
  have hidle := Proc.main_alone (Reach.based h r) (wf_of_reach h r) hw.next s
  rcases Reach.once h (hc.alive r) (hc.once r (some s)) with ⟨h0, -⟩ | ⟨-, hcode⟩
  · exact absurd h0 hs
  · rw [hidle, List.append_nil] at hcode
    exact hcode

/-- **Who waits in a `read` has not been sent its whole script.** -/
theorem Waits.not_all_sent {fd : Fd} {m : Msg} (hw : Waits md σ r o (.read fd m)) :
    sentAt (otherEnd (r, fd)) σ.log ≠ wire (script md r fd) := by
  have hcode := (List.mem_filter.mp hw.point).1
  obtain rfl := reader_of_touchesBuff hcode rfl
  have hblocked : σ.world.inbox (r, fd) = [] := hw.blocked
  have hflow := flow_of_proper hst h (r, fd)
  rw [hblocked, List.append_nil, (Calm.of_reach hst h).takenAt_eq h, hw.done] at hflow
  -- what it has taken is shorter by the message it waits for
  obtain ⟨u, t, hsplit⟩ := List.append_of_mem hcode
  have hnot : .read fd m ∉ u := by
    have hcount := count_point hw.point
    rw [hsplit, List.count_append, List.count_cons_self] at hcount
    exact List.count_eq_zero.mp (by omega)
  have hscript : script md r fd
      = u.flatMap (Instr.asks fd) ++ m :: t.flatMap (Instr.asks fd) := by
    rw [script, hsplit, List.flatMap_append, List.flatMap_cons]
    simp [Instr.asks]
  rw [hsplit, takeWhile_ne_split hnot] at hflow
  intro hall
  have heq := eq_of_wire_eq (M := script md r fd) (by rw [hscript]; exact List.prefix_append _ _)
    (List.prefix_refl _) (hflow.symm.trans hall)
  rw [hscript] at heq
  exact absurd (congrArg List.length heq) (by simp)

omit hst in
/-- Source and destination listen when they wait. -/
theorem Waits.listening (hw : Waits md σ r o i) (hr : r ≠ .backup) :
    σ.world.listening r = true := by
  obtain ⟨d, hd⟩ := hw.did (listen_before_point hr hw.point)
  exact (Grounded.of_reach h).listening.mpr ⟨o, d, hd⟩

/-- A backup that has installed its handler has connected to both. -/
theorem connected_of_signal (hsignal : Did .backup (.signal .usr1) σ.log) {r : Role}
    (hr : r ≠ .backup) : σ.world.calls r ≠ [] := by
  have hdial : ∀ fd, fd ≠ .connfd → Did .backup (dial fd) σ.log := fun fd hfd =>
    hsignal.before h fun o ho => connect_before_signal hfd ho
  cases r with
  | backup => exact absurd rfl hr
  | src => exact calls_of_dial hst h (hdial .srcfd (by decide))
  | dst => exact calls_of_dial hst h (hdial .dstfd (by decide))

omit hst in
/-- Unless it waits to connect, the backup has installed its handler. -/
theorem Waits.signal (hw : Waits md σ .backup o i) (hi : ∀ fd, i ≠ dial fd) :
    Did .backup (.signal .usr1) σ.log := by
  rcases point_backup hw.point with ⟨rfl, ⟨fd, -, hfd⟩ | rfl⟩ | ⟨rfl, fd, m, -, rfl⟩
  · exact absurd hfd (hi fd)
  · obtain ⟨d, hd⟩ := hw.did gate_before_idle
    exact ⟨none, d, hd⟩
  · -- its handler is at work
    obtain ⟨l₁, l₂, hlog⟩ := List.append_of_mem (mem_of_starts (Reach.starts_of_top h hw.next))
    obtain ⟨σ₁, hr, hdue, rfl, hlive, -⟩ := at_started h hlog
    refine (gate_of_due hr hlive hdue.1).mono ?_
    rw [hlog]
    exact List.subset_append_left _ _

/-- The peer of a backup that waits for an answer idles. -/
theorem Waits.peer_idle {fd : Fd} {m : Msg} (hfd : fd ≠ .connfd)
    (hb : Waits md σ .backup (some .usr1) (.read fd m))
    (hp : Waits md σ (otherEnd (.backup, fd)).1 o i) (haccept : i ≠ .accept) :
    o = none ∧ i = .idle := by
  have hpeer : (otherEnd (.backup, fd)).1 ≠ .backup ∧ (otherEnd (.backup, fd)).2 = .connfd := by
    revert hfd
    cases fd <;> decide
  obtain ⟨rfl, rfl | rfl | ⟨m', rfl⟩⟩ := point_peer hpeer.1 hp.point
  · exact absurd rfl haccept
  · exact ⟨rfl, rfl⟩
  · -- it cannot wait for more, the backup has sent everything
    refine absurd ?_ (hp.not_all_sent hst h)
    have hother : otherEnd ((otherEnd (.backup, fd)).1, .connfd) = (.backup, fd) := by
      rw [← hpeer.2, Prod.mk.eta, otherEnd_otherEnd]
    have hnone : didOf .backup (some .usr2) σ.log = [] :=
      List.prefix_nil.mp ((Calm.of_reach hst h).didOf_initial h .backup (some .usr2))
    rw [hother, (Calm.of_reach hst h).sentAt_literal h (Or.inr (by decide)), spoken, hnone,
      List.flatMap_nil, List.nil_append, hb.done, texts_before_point hb.point, hpeer.2]

/-! ## Nobody waits for ever -/

variable (hdue : ∀ r s, ¬ Orderly md σ (.signal r s))

include hdue

/-- While main waits, a handler whose signal was due has run. -/
theorem Waits.handled (hw : Waits md σ r none i) {s : Signal} (hs : due md σ r s) :
    didOf r (some s) σ.log = code md r (some s) :=
  hw.handler hst h s fun h0 => hdue r s ⟨hs, h0⟩

/-- **A peer that idles has said all it has to say**; the destination of a QEMU mode only after
    `migrate`. -/
theorem Waits.peer_spoken (hw : Waits md σ r none .idle) (hr : r ≠ .backup)
    (hmigrate : md.isShm = false → r = .dst → Did .src (.check .migrate) σ.log) :
    sentAt (r, .connfd) σ.log
      = wire (script md .backup (otherEnd (r, .connfd)).2) := by
  have hc := Calm.of_reach hst h
  obtain ⟨d, hd⟩ := hw.did gate_before_idle
  have hgate : Did r (gate md r) σ.log := ⟨none, d, hd⟩
  by_cases hlit : Literal md r
  · have hscript : script md .backup (otherEnd (r, .connfd)).2 = lines md r .connfd := by
      clear hw hmigrate hdue h hc hd hgate
      revert hr hlit
      cases md <;> cases r <;> decide
    rw [hc.sentAt_literal h hlit, hscript]
    have hsecond : didOf r (some .usr2) σ.log = code md r (some .usr2) := by
      by_cases hcode : code md r (some .usr2) = []
      · rw [hcode]
        exact List.prefix_nil.mp (hcode ▸ hc.didOf_initial h r (some .usr2))
      · obtain ⟨rfl, rfl⟩ := second_handler hlit hcode
        exact hw.handled hst h hdue hgate
    have hfirst : due md σ r .usr1 := by
      cases md with
      | shm =>
        cases r with
        | backup => exact absurd rfl hr
        | dst => exact hgate
        | src =>
          obtain ⟨d', hd'⟩ := mem_didOf.mp (hsecond ▸ setCount_of_usr2)
          exact ⟨_, d', hd'⟩
      | qemuPrecopy | qemuPostcopy =>
        cases r with
        | backup => exact absurd rfl hr
        | src => exact hgate
        | dst => exact absurd hlit (by decide)
    rw [spoken, lines, hsecond, hw.handled hst h hdue hfirst]
  · obtain ⟨hmd, hdst⟩ := not_or.mp hlit
    replace hmd : md.isShm = false := Bool.not_eq_true _ ▸ hmd
    obtain rfl := not_not.mp hdst
    have hidle := Proc.main_alone (Reach.based h .dst) (wf_of_reach h .dst) hw.next
    have hgate' : gate md .dst = .accept := if_neg (by rw [hmd]; exact Bool.false_ne_true)
    have hwrote : ∀ s, .write .connfd .chosen ∈ didOf .dst (some s) σ.log := by
      intro s
      rw [hw.handled hst h hdue (s := s) ?_]
      · exact write_chosen_mem hmd s
      · rw [due_qemu hmd]
        exact ⟨⟨hmigrate hmd rfl, hgate' ▸ hgate⟩, hidle (other s)⟩
    have htwo : dstWrites σ.log = 2 := by
      rw [dstWrites, if_pos (hwrote .usr1), if_pos (hwrote .usr2)]
    rw [(Turns.of_reach hmd hst h).said, htwo, show (otherEnd (.dst, .connfd)).2 = .dstfd from rfl,
      script_dst hmd]
    rfl

omit hst hdue in
/-- A source that has sent something in a QEMU mode has executed `migrate`. -/
theorem migrate_of_src_sent (hmd : md.isShm = false) (hne : sentAt (.src, .connfd) σ.log ≠ []) :
    Did .src (.check .migrate) σ.log := by
  obtain ⟨o, i, d, hd, hi, -⟩ := exists_of_bytesOf_ne_nil hne
  obtain ⟨arg, rfl⟩ := write_of_sendsOn hi
  obtain ⟨s, rfl, -⟩ := write_handler (by decide) (in_code h hd)
  obtain ⟨l₁, l₂, hlog⟩ := List.append_of_mem hd
  have hgate := gate_before h hlog
  rw [show gate md .src = .check .migrate from if_neg (by rw [hmd]; exact Bool.false_ne_true)]
    at hgate
  refine hgate.mono ?_
  rw [hlog]
  exact List.subset_append_left _ _

/-- A backup that waits for an answer does not wait for ever. -/
theorem Waits.not_reading {fd : Fd} {m : Msg} (hfd : fd ≠ .connfd)
    (hb : Waits md σ .backup (some .usr1) (.read fd m))
    (hp : Waits md σ (otherEnd (.backup, fd)).1 o i) (haccept : i ≠ .accept) : False := by
  obtain ⟨rfl, rfl⟩ := hb.peer_idle hst h hfd hp haccept
  have hpeer : (otherEnd (.backup, fd)).1 ≠ .backup ∧ (otherEnd (.backup, fd)).2 = .connfd := by
    revert hfd
    cases fd <;> decide
  refine hb.not_all_sent hst h ?_
  have hother : (otherEnd ((otherEnd (.backup, fd)).1, .connfd)).2 = fd := by
    rw [← hpeer.2, Prod.mk.eta, otherEnd_otherEnd]
  have hspoken := hp.peer_spoken hst h hdue hpeer.1 fun hmd hdst => ?_
  · rw [hother, ← hpeer.2, Prod.mk.eta] at hspoken
    exact hspoken
  · -- the backup has read the source's message, so `migrate` has been executed
    obtain rfl : fd = .dstfd := by
      revert hdst hfd
      cases fd <;> decide
    refine migrate_of_src_sent h hmd fun hnil => ?_
    have hflow := flow_of_proper hst h (.backup, .srcfd)
    rw [show otherEnd (.backup, .srcfd) = (.src, .connfd) from rfl, hnil,
      (Calm.of_reach hst h).takenAt_eq h, show reader .backup = some .usr1 from rfl,
      hb.done] at hflow
    exact asks_before_point hmd hb.point
      (wire_eq_nil (List.append_eq_nil_iff.mp hflow.symm).1)

/-- **If everybody waits and no signal is due, the backup has reported.** -/
theorem reported_of_waits (hwait : ∀ r, ∃ o i, Waits md σ r o i) : Reported md σ := by
  obtain ⟨ob, ib, hb⟩ := hwait .backup
  -- nobody waits in `connect`: source and destination listen
  have hconnect : ∀ fd, ib ≠ dial fd := by
    rintro fd rfl
    obtain ⟨-, ⟨fd', hfd, heq⟩ | heq⟩ | ⟨-, _, _, -, heq⟩ := point_backup hb.point
    · obtain rfl := dial_injective heq
      have hpeer : (otherEnd (.backup, fd)).1 ≠ .backup := by
        revert hfd
        cases fd <;> decide
      obtain ⟨o, i, hp⟩ := hwait (otherEnd (.backup, fd)).1
      have hblocked : σ.world.listening (otherEnd (.backup, fd)).1 = false := by
        have hwaits := hb.blocked
        cases fd <;> exact hwaits
      rw [hp.listening h hpeer] at hblocked
      cases hblocked
    · cases fd <;> cases heq
    · cases fd <;> cases heq
  -- nor in `accept`: the backup has connected
  have hsignal := hb.signal h hconnect
  have hnot : ∀ {r : Role} {o : Option Signal} {i : Instr}, r ≠ .backup → Waits md σ r o i →
      i ≠ .accept := by
    rintro r o _ hr hw rfl
    exact connected_of_signal hst h hsignal hr hw.blocked
  rcases point_backup hb.point with ⟨rfl, ⟨fd, -, hfd⟩ | rfl⟩ | ⟨rfl, fd, m, hfd, rfl⟩
  · exact absurd hfd (hconnect fd)
  · have hinstalled := installed_of_did h ((Calm.of_reach hst h).alive .backup) hsignal
    exact hb.handled hst h hdue (by cases md <;> exact hinstalled)
  · have hpeer : (otherEnd (.backup, fd)).1 ≠ .backup := by
      revert hfd
      cases fd <;> decide
    obtain ⟨o, i, hp⟩ := hwait (otherEnd (.backup, fd)).1
    exact (hb.not_reading hst h hdue hfd hp (hnot hpeer hp)).elim

end Waiting

/-! ## Completion -/

/-- A run in an orderly environment in which nobody is passed over for ever, and in which a command
    that is tried again and again succeeds in the end. -/
abbrev OrderlyRun (md : Mode) (st : Role → Settings) :=
  FairRun (machine (fun _ => md) st).step (Orderly md) Turn.of (start (fun _ => md) st)

theorem ready_or_reported {md : Mode} {st : Role → Settings} (hst : Proper st) {σ : Net}
    (h : Reach (machine (fun _ => md) st).step (Orderly md) (start (fun _ => md) st) σ) :
    Reported md σ ∨ ∃ a, Ready md σ a := by
  by_contra hcon
  push Not at hcon
  obtain ⟨hnot, hnone⟩ := hcon
  exact hnot (reported_of_waits hst h (fun r s => hnone (.signal r s)) fun r =>
    waits_of_not_ready hst h (hnone (.run r)))

/-- A report is final. -/
theorem Reported.next {md : Mode} {st : Role → Settings} (hst : Proper st) {σ : Net}
    (h : Reach (machine (fun _ => md) st).step (Orderly md) (start (fun _ => md) st) σ) {x : Choice}
    (hx : Orderly md σ x) (hr : Reported md σ) :
    Reported md ((machine (fun _ => md) st).step σ x) := by
  have hnext := Reach.next h hx
  have hpre := (Calm.of_reach hst hnext).didOf_initial hnext .backup (some .usr1)
  rcases records (M := machine (fun _ => md) st) σ x with hlog | ⟨e, hlog⟩
  · rw [Reported, hlog]
    exact hr
  · rw [hlog, didOf_append, hr] at hpre
    rw [Reported, hlog, didOf_append, hr]
    exact (hpre.eq_of_length_le (by simp))

/-- **A migration completes**, in every mode and every order of steps, if the addresses lead to the
    right parties: no party ends, and from some moment on the backup has been through its handler,
    with the report at its end. -/
theorem deployment_completes {md : Mode} {st : Role → Settings} (hst : Proper st)
    (ρ : OrderlyRun md st) :
    (∀ n r, ((ρ.state n).proc r).alive = true) ∧
      ∃ n, ∀ m, n ≤ m → Reported md (ρ.state m) := by
  refine ⟨fun n r => (Calm.of_reach hst (ρ.reach n)).alive r, ?_⟩
  obtain ⟨n, -, hn⟩ := ρ.reaches (work md) (Ready md) (Reported md)
    (fun _ _ h hx => work_step hst h hx) (fun _ h => ready_or_reported hst h)
    (fun _ _ _ ha => ha.can)
    (fun _ _ _ h ha hof hx => ha.helps hst h hof hx) (fun _ _ _ h ha hx => ha.stays hst h hx) 0
  refine ⟨n, fun m hm => ?_⟩
  induction m, hm using Nat.le_induction with
  | base => exact hn
  | succ m _ ih => exact ih.next hst (ρ.reach m) (ρ.lawful m)

/-! ### Such runs -/

/-- In the end everybody idles. -/
def roundRobin (n : Nat) : Choice :=
  .run (if n % 3 = 0 then .backup else if n % 3 = 1 then .src else .dst) ⟨DATA_LEN, true⟩

/-- Everybody idles, and no signal is due. -/
def Settled (md : Mode) (σ : Net) : Prop :=
  (∀ r ∈ [Role.backup, .src, .dst], (σ.proc r).top = some (none, .idle)) ∧
    ∀ x ∈ signals, ¬ Orderly md σ (.signal x.1 x.2)

instance (md : Mode) (σ : Net) : Decidable (Settled md σ) := inferInstanceAs (Decidable (_ ∧ _))

/-- A fair run that begins with `cs`, after which everybody idles. -/
def playRun (md : Mode) (cs : List Choice)
    (hplay : Playable (machine (fun _ => md) fun _ => Settings.shipped).step (Orderly md)
      (start (fun _ => md) fun _ => Settings.shipped) cs)
    (hsettled : Settled md (played md cs)) : OrderlyRun md fun _ => Settings.shipped :=
  have hidle : ∀ r, ((played md cs).proc r).top = some (none, .idle) := fun r =>
    hsettled.1 r (by cases r <;> decide)
  have hnone : ∀ r s, ¬ Orderly md (played md cs) (.signal r s) := fun r s =>
    hsettled.2 (r, s) (by cases r <;> cases s <;> decide)
  have hquiet : ∀ r, (machine (fun _ => md) fun _ => Settings.shipped).step
      (played md cs) (.run r ⟨DATA_LEN, true⟩) = played md cs := fun r =>
    step_run_idle (runProc_again (hidle r) rfl)
  have hlawful : ∀ r, Orderly md (played md cs) (.run r ⟨DATA_LEN, true⟩) := by
    refine fun r => ⟨le_rfl, fun o i hnext => ⟨Or.inl rfl, ?_⟩⟩
    rw [hidle r] at hnext
    cases hnext
    exact fun fd hfd => (nomatch hfd)
  have hturn : ∀ a : Turn, (∃ x, a.of x ∧ Orderly md (played md cs) x) →
      ∀ n : Nat, ∃ m, n ≤ m ∧ a.of (roundRobin m) := by
    intro a ha n
    cases a with
    | signal r s =>
      obtain ⟨x, rfl, hx⟩ := ha
      exact absurd hx (hnone r s)
    | run r =>
      cases r with
      | backup => exact ⟨3 * n, by omega, ⟨DATA_LEN, true⟩, rfl, by simp [roundRobin]⟩
      | src => exact ⟨3 * n + 1, by omega, ⟨DATA_LEN, true⟩, rfl, by simp [roundRobin, Nat.add_mod]⟩
      | dst => exact ⟨3 * n + 2, by omega, ⟨DATA_LEN, true⟩, rfl, by simp [roundRobin, Nat.add_mod]⟩
  .play cs _ hplay (.rest roundRobin (fun _ => hlawful _) (fun _ => hquiet _) hturn)

theorem postcopyPlay_playable :
    Playable (machine (fun _ => .qemuPostcopy) fun _ => Settings.shipped).step
      (Orderly .qemuPostcopy) (start (fun _ => .qemuPostcopy) fun _ => Settings.shipped)
      postcopyPlay := by
  decide +kernel

theorem shmPlay_playable :
    Playable (machine (fun _ => .shm) fun _ => Settings.shipped).step (Orderly .shm)
      (start (fun _ => .shm) fun _ => Settings.shipped) shmPlay := by
  decide +kernel

def postcopyRun : OrderlyRun .qemuPostcopy fun _ => Settings.shipped :=
  playRun .qemuPostcopy postcopyPlay postcopyPlay_playable (by decide +kernel)

def shmRun : OrderlyRun .shm fun _ => Settings.shipped :=
  playRun .shm shmPlay shmPlay_playable (by decide +kernel)

theorem deployment_completes_played : (Proper fun _ => Settings.shipped) ∧
    (∃ n, ∀ m, n ≤ m → Reported .qemuPostcopy (postcopyRun.state m)) ∧
      ∃ n, ∀ m, n ≤ m → Reported .shm (shmRun.state m) :=
  ⟨proper_shipped, (deployment_completes proper_shipped postcopyRun).2,
    (deployment_completes proper_shipped shmRun).2⟩

end QemuStudy.Deployment
