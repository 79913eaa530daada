/-
  The environment the controller is written for, and what its signals imply.

  `Orderly` says: commands and system calls succeed (except where the source tries again or does not
  look), a `read` returns everything it asks for if that much is pending, a party is started in time
  to be connected to, and every signal is raised once and when it is due.  The schedule is
  arbitrary.

  When a signal is due depends on the mode (`due`):

  * everywhere, the backup's SIGUSR1 once it has installed the handler;
  * in a QEMU mode, the source's SIGUSR1 after `migrate`, and after that the two of the destination,
    one handler after the other, in either order;
  * in shared-memory mode, the source's SIGUSR2 (end of pre-copy) after `shm_migrate_switchover`,
    its SIGUSR1 (image complete) after the handler of SIGUSR2, and the destination's SIGUSR1 after
    `migrate_incoming_shm`.

  In each case the main thread of the party has then come to a certain instruction (`gate_of_due`),
  so the handler is installed (`installed_of_due`) and what it writes is sent (`handler_sends`).
-/
import QemuStudy.Controller.Orderly
import QemuStudy.Deployment.Authentic
import QemuStudy.Lib.Progress

namespace QemuStudy.Deployment

open QemuStudy.Controller (Role Signal Fd Msg End otherEnd DATA_LEN)
open QemuStudy.Threads
open QemuStudy.Runs

/-! ## The environment -/

/-- The other signal. -/
def other : Signal → Signal
  | .usr1 => .usr2
  | .usr2 => .usr1

/-- The source code tries again or does not look. -/
def Instr.mayFail : Instr → Bool
  | .retry _ | .pidFile => true
  | _ => false

/-- When a signal is due in a QEMU mode. -/
def qemuDue (σ : Net) : Role → Signal → Prop
  | .backup, .usr1 => .usr1 ∈ (σ.proc .backup).vars.installed
  | .src, .usr1 => Did .src (.check .migrate) σ.log
  | .dst, s => (Did .src (.check .migrate) σ.log ∧ Did .dst .accept σ.log) ∧
      (σ.proc .dst).todoOf (some (other s)) = []
  | .backup, .usr2 | .src, .usr2 => False

/-- When a signal is due in shared-memory mode; `setCount` ends the handler of SIGUSR2. -/
def shmDue (σ : Net) : Role → Signal → Prop
  | .backup, .usr1 => .usr1 ∈ (σ.proc .backup).vars.installed
  | .src, .usr2 => Did .src (.system .shmMigrateSwitchover) σ.log
  | .src, .usr1 => Did .src .setCount σ.log
  | .dst, .usr1 => Did .dst (.retry .migrateIncomingShm) σ.log
  | .backup, .usr2 | .dst, .usr2 => False

def due : Mode → Net → Role → Signal → Prop
  | .shm => shmDue
  | .qemuPrecopy | .qemuPostcopy => qemuDue

def Orderly (md : Mode) (σ : Net) : Choice → Prop
  | .run r c => DATA_LEN ≤ c.k ∧ ∀ o i, (σ.proc r).top = some (o, i) →
      (c.ok = true ∨ i.mayFail = true) ∧
      ∀ fd ∈ i.connects, σ.world.listening (otherEnd (r, fd)).1 = true
  | .signal r s => due md σ r s ∧ starts r (some s) σ.log = 0
  | .drift _ => True

instance due.decidable : ∀ (md : Mode) (σ : Net) (r : Role) (s : Signal), Decidable (due md σ r s)
  | .shm, σ, .backup, .usr1 => inferInstanceAs (Decidable (_ ∈ (σ.proc .backup).vars.installed))
  | .shm, σ, .src, .usr2 => inferInstanceAs (Decidable (Did .src _ σ.log))
  | .shm, σ, .src, .usr1 => inferInstanceAs (Decidable (Did .src _ σ.log))
  | .shm, σ, .dst, .usr1 => inferInstanceAs (Decidable (Did .dst _ σ.log))
  | .shm, _, .backup, .usr2 | .shm, _, .dst, .usr2 => inferInstanceAs (Decidable False)
  | .qemuPrecopy, σ, .backup, .usr1 | .qemuPostcopy, σ, .backup, .usr1 =>
    inferInstanceAs (Decidable (_ ∈ (σ.proc .backup).vars.installed))
  | .qemuPrecopy, σ, .src, .usr1 | .qemuPostcopy, σ, .src, .usr1 =>
    inferInstanceAs (Decidable (Did .src _ σ.log))
  | .qemuPrecopy, _, .dst, _ | .qemuPostcopy, _, .dst, _ =>
    inferInstanceAs (Decidable ((_ ∧ _) ∧ _))
  | .qemuPrecopy, _, .backup, .usr2 | .qemuPostcopy, _, .backup, .usr2 =>
    inferInstanceAs (Decidable False)
  | .qemuPrecopy, _, .src, .usr2 | .qemuPostcopy, _, .src, .usr2 =>
    inferInstanceAs (Decidable False)

instance Orderly.decidable (md : Mode) (σ : Net) : ∀ x, Decidable (Orderly md σ x)
  | .run r c =>
    decidable_of_iff (DATA_LEN ≤ c.k ∧ ∀ x ∈ (σ.proc r).top.toList,
      (c.ok = true ∨ x.2.mayFail = true) ∧
        ∀ fd ∈ x.2.connects, σ.world.listening (otherEnd (r, fd)).1 = true) <| by
      simp only [Orderly, Option.mem_toList, Prod.forall, Option.mem_def]
  | .signal _ _ => inferInstanceAs (Decidable (_ ∧ _))
  | .drift _ => inferInstanceAs (Decidable True)

theorem due_qemu {md : Mode} (hmd : md.isShm = false) : due md = qemuDue := by
  cases md with
  | shm => cases hmd
  | qemuPrecopy | qemuPostcopy => rfl

/-! ## The code of the handlers -/

/-- Where the main thread of a party stands at least, when a signal for it is due. -/
def gate (md : Mode) : Role → Instr
  | .backup => .signal .usr1
  | .src => if md.isShm then .system .shmMigrateSwitchover else .check .migrate
  | .dst => if md.isShm then .retry .migrateIncomingShm else .accept

section Code

variable {md : Mode} {r : Role} {o : Option Signal}

theorem signal_upto_gate {s : Signal} (hs : code md r (some s) ≠ [])
    (hi : gate md r ∈ code md r o) :
    .signal s = gate md r ∨ .signal s ∈ (code md r o).takeWhile (· ≠ gate md r) := by
  revert hs hi
  cases md <;> cases r <;> cases s <;> rcases o with _ | _ | _ <;> decide

theorem accept_upto_gate (hr : r ≠ .backup) (hi : gate md r ∈ code md r o) :
    .accept = gate md r ∨ .accept ∈ (code md r o).takeWhile (· ≠ gate md r) := by
  revert hr hi
  cases md <;> cases r <;> rcases o with _ | _ | _ <;> decide

/-- A signal that can be due has a handler. -/
theorem code_of_due {σ : Net} {s : Signal} (h : due md σ r s) : code md r (some s) ≠ [] := by
  cases md <;> cases r <;> cases s <;> first | exact h.elim | exact List.cons_ne_nil _ _

theorem setCount_shm (hi : .setCount ∈ code .shm r o) : r = .src ∧ o = some .usr2 := by
  revert hi
  cases r <;> rcases o with _ | _ | _ <;> decide

/-- Source and destination write in handlers only. -/
theorem write_handler (hr : r ≠ .backup) {fd : Fd} {arg : Arg} (hi : .write fd arg ∈ code md r o) :
    ∃ s, o = some s ∧ fd = .connfd := by
  have hnone : o = none ∨ fd ≠ .connfd → ∀ i ∈ code md r o, i.sendsOn fd = false := by
    revert hr
    cases md <;> cases r <;> rcases o with _ | _ | _ <;> cases fd <;> decide
  have hsends : Instr.sendsOn fd (.write fd arg) = true := by simp [Instr.sendsOn]
  by_contra hcon
  rw [hnone ?_ _ hi] at hsends
  · cases hsends
  · rcases o with _ | s
    · exact Or.inl rfl
    · exact Or.inr fun hfd => hcon ⟨s, rfl, hfd⟩

end Code

/-! ## What a signal implies -/

section Signals

variable {md : Mode} {st : Role → Settings} {σ : Net}
  (h : Reach (machine (fun _ => md) st).step (Orderly md) (start (fun _ => md) st) σ)

include h

theorem in_code {r : Role} {o : Option Signal} {i : Instr} {d : Data}
    (hx : (⟨r, o, .did i d⟩ : Entry) ∈ σ.log) : i ∈ code md r o := by
  have hcode := mem_code h hx
  exact hcode

/-- A handler does something only after its signal was due. -/
theorem due_before {r : Role} {s : Signal} {i : Instr} {d : Data} {l₁ l₂ : List Entry}
    (hlog : σ.log = l₁ ++ ⟨r, some s, .did i d⟩ :: l₂) :
    ∃ σ₁, Reach (machine (fun _ => md) st).step (Orderly md) (start (fun _ => md) st) σ₁ ∧
      due md σ₁ r s ∧ (σ₁.proc r).alive = true ∧ σ₁.log ⊆ l₁ := by
  obtain ⟨l₃, l₄, hl₁⟩ := List.append_of_mem (started_before h hlog)
  rw [hl₁, List.append_assoc, List.cons_append] at hlog
  obtain ⟨σ₁, hr, hdue, hl, hlive, -⟩ := at_started h hlog
  refine ⟨σ₁, hr, hdue.1, hlive, ?_⟩
  rw [hl, hl₁]
  exact List.subset_append_left _ _

/-- Party `r` has done `j` by the time it has done `i`, if every thread does. -/
theorem Did.upto {r : Role} {i j : Instr} (hi : Did r i σ.log)
    (hcode : ∀ o, i ∈ code md r o → j = i ∨ j ∈ (code md r o).takeWhile (· ≠ i)) :
    Did r j σ.log := by
  by_cases hj : j = i
  · rw [hj]
    exact hi
  · exact hi.before h fun o ho => (hcode o ho).resolve_left hj

/-- **Who is signalled has come to its gate.** -/
theorem gate_of_due {r : Role} {s : Signal} (hlive : (σ.proc r).alive = true)
    (hdue : due md σ r s) : Did r (gate md r) σ.log := by
  cases r with
  | backup =>
    have hinstalled : .usr1 ∈ (σ.proc .backup).vars.installed := by
      cases md <;> cases s <;> first | exact hdue | exact hdue.elim
    exact (SetUp.of_reach h .backup hlive).installed .usr1 hinstalled
  | dst => cases md <;> cases s <;> first | exact hdue | exact hdue.1.2 | exact hdue.elim
  | src =>
    by_cases hmd : md = .shm
    · subst hmd
      cases s with
      | usr2 => exact hdue
      | usr1 =>
        -- `sigusr1_count` was set in the handler of SIGUSR2, which had been due
        obtain ⟨o, d, hd⟩ := hdue
        obtain ⟨-, rfl⟩ := setCount_shm (in_code h hd)
        obtain ⟨l₁, l₂, hlog⟩ := List.append_of_mem hd
        obtain ⟨σ₁, -, hdue₁, -, hsub⟩ := due_before h hlog
        refine Did.mono (List.Subset.trans hsub ?_) hdue₁
        rw [hlog]
        exact List.subset_append_left _ _
    · cases md <;> cases s <;> first | exact absurd rfl hmd | exact hdue | exact hdue.elim

/-- A signal that is due finds its handler. -/
theorem installed_of_due {r : Role} {s : Signal} (hlive : (σ.proc r).alive = true)
    (hdue : due md σ r s) : s ∈ (σ.proc r).vars.installed :=
  installed_of_did h hlive <| (gate_of_due h hlive hdue).upto h fun _ ho =>
    signal_upto_gate (code_of_due hdue) ho

/-- A handler does something only after its party has come to its gate. -/
theorem gate_before {r : Role} {s : Signal} {i : Instr} {d : Data} {l₁ l₂ : List Entry}
    (hlog : σ.log = l₁ ++ ⟨r, some s, .did i d⟩ :: l₂) : Did r (gate md r) l₁ := by
  obtain ⟨σ₁, hr, hdue, hlive, hsub⟩ := due_before h hlog
  exact (gate_of_due hr hlive hdue).mono hsub

/-- **Nothing a handler writes is lost.** -/
theorem handler_sends {r : Role} {o : Option Signal} {fd : Fd} {arg : Arg} {d : Data}
    (hx : (⟨r, o, .did (.write fd arg) d⟩ : Entry) ∈ σ.log) : d.bytes ≠ [] := by
  by_cases hr : r = .backup
  · subst hr
    exact backup_sends h hx
  · obtain ⟨s, rfl, rfl⟩ := write_handler hr (in_code h hx)
    obtain ⟨l₁, l₂, hlog⟩ := List.append_of_mem hx
    have hgate := gate_before h hlog
    obtain ⟨σ₁, c, t, v, l, w, hr₁, -, rfl, hlive, -, hexec⟩ := at_did h hlog
    have hassigned := fds_of_did hr₁ hlive .connfd rfl
      (hgate.upto hr₁ fun _ ho => accept_upto_gate hr ho)
    cases machine_effect hexec with
    | plain hp => cases hp
    | write _ _ _ => exact (Arg.eval _ _).bytes_ne_nil
    | writeNowhere _ _ hno =>
      rw [hassigned] at hno
      cases hno

end Signals

end QemuStudy.Deployment
