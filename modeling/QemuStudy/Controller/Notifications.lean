/-
  The two notification protocols built on `sigusr1_count`, in every run in which SIGUSR1 and
  SIGUSR2 reach the connected process once each.

  1. QEMU destination (`qemuDst`): the bytes sent should be `qemu_vm_restart` and then
     `qemu_post_copy_finish`, in whatever order the two signals come.  `dst_notifications_iff`: that
     is so if and only if neither signal arrives between the other handler's evaluation of
     `!sigusr1_count ? … : …` and its `sigusr1_count = 1`.  The window holds a `usleep` and a shell
     command; a signal inside it sends `qemu_vm_restart` twice (`dst_restarts_twice`).

  2. Shared-memory source (`shmSrc`): SIGUSR2 (pre-copy finished), some time later SIGUSR1 (image
     complete).  `src_completion_iff`: the assert holds and `shm_pre_copy_finish`,
     `complete_vm_image` are sent if and only if SIGUSR1 arrives after `sigusr1_count = 1`.  Before
     that, the source aborts although its signals came in the right order (`src_aborts`).

  A run is complete when both signals have arrived and no handler is active (`Solo.Settled`).
-/
import QemuStudy.Controller.Handlers

namespace QemuStudy.Controller

open QemuStudy.Runs

/-! ## The QEMU destination -/

/-- Some signal arrives between a handler's test of the flag and its setting of it. -/
def Interrupted (log : List Event) : Prop :=
  ∃ s s', [⟨some s, .evaluated⟩, arrival s', ⟨some s, .countSet⟩].Sublist log

instance (log : List Event) : Decidable (Interrupted log) :=
  inferInstanceAs (Decidable (∃ s s' : Signal,
    [⟨some s, .evaluated⟩, arrival s', ⟨some s, .countSet⟩].Sublist log))

/-- The nine steps of a handler, and the second signal after each of them. -/
theorem qemuDst_schedules (s s' : Signal) (hne : s ≠ s') : ∀ j ≤ 9,
    output .connfd (View.second qemuDst s s' j 18).log
        = wire [.qemuVmRestart, .qemuPostCopyFinish] ↔
      ¬ Interrupted (View.second qemuDst s s' j 18).log := by
  cases s <;> cases s'
  · exact absurd rfl hne
  · decide +kernel
  · decide +kernel
  · exact absurd rfl hne

/-- **The destination's notifications are right exactly when no signal falls into a window.** -/
theorem dst_notifications_iff {σ : Solo}
    (h : Reach (Solo.step qemuDst) Once (Solo.start qemuDst) σ) (hset : σ.Settled) :
    output .connfd σ.log = wire [.qemuVmRestart, .qemuPostCopyFinish] ↔ ¬ Interrupted σ.log := by
  obtain ⟨hcalm, hsch⟩ := Reach.scheduled (fun _ => True) (by decide) (by decide)
    (by decide) (fun σ s hs => hs) (fun σ s _ _ => trivial) h
  obtain ⟨s, s', -, hne, j, hj, hview⟩ := settled_view (M := 9) (N := 18)
    (by decide) (by decide) hsch hset
  have hwin : Interrupted σ.log ↔ Interrupted σ.view.log :=
    exists_congr fun a => exists_congr fun b => sublist_view (by simp [arrival])
  rw [← hcalm.output_view, hwin, hview]
  exact qemuDst_schedules s s' hne j hj

/-- Signal `s`, `j` steps, signal `s'`, `i` steps. -/
def interrupts (s s' : Signal) (j i : Nat) : List Move :=
  .signal s :: List.replicate j (.run noEnv) ++ .signal s' :: List.replicate i (.run noEnv)

/-- The second signal after the first handler has returned. -/
theorem dst_notifications_in_turn :
    let σ := (interrupts .usr1 .usr2 9 9).foldl (Solo.step qemuDst) (Solo.start qemuDst)
    Reach (Solo.step qemuDst) Once (Solo.start qemuDst) σ ∧ σ.Settled ∧
      (output .connfd σ.log = wire [.qemuVmRestart, .qemuPostCopyFinish] ↔
        ¬ Interrupted σ.log) := by
  intro σ
  have hreach : Reach (Solo.step qemuDst) Once (Solo.start qemuDst) σ :=
    Reach.start.play (by decide)
  have hset : σ.Settled := ⟨by decide, by decide, by decide⟩
  exact ⟨hreach, hset, dst_notifications_iff hreach hset⟩

/-- SIGUSR2 arrives when the SIGUSR1 handler has written its message and not yet set the flag:
    both handlers announce a restart. -/
theorem dst_restarts_twice :
    ∃ σ, Reach (Solo.step qemuDst) Once (Solo.start qemuDst) σ ∧ σ.Settled ∧
      output .connfd σ.log = wire [.qemuVmRestart, .qemuVmRestart] ∧
      output .connfd σ.log ≠ wire [.qemuVmRestart, .qemuPostCopyFinish] := by
  refine ⟨(interrupts .usr1 .usr2 4 18).foldl (Solo.step qemuDst) (Solo.start qemuDst),
    Reach.start.play (by decide), ⟨by decide, by decide, by decide⟩, by decide, by decide⟩

/-! ## The shared-memory source -/

/-- `assert(sigusr1_count)` never fails, and both messages are sent in order. -/
def CompletedInOrder (log : List Event) : Prop :=
  (∀ e ∈ log, e.action ≠ .failed .assertCount) ∧
    output .connfd log = wire [.shmPreCopyFinish, .completeVmImage]

instance (log : List Event) : Decidable (CompletedInOrder log) :=
  inferInstanceAs (Decidable (_ ∧ _))

theorem shmSrc_schedules : ∀ j ≤ 7,
    CompletedInOrder (View.second shmSrc .usr2 .usr1 j 14).log ↔
      [⟨some .usr2, .countSet⟩, arrival .usr1].Sublist
        (View.second shmSrc .usr2 .usr1 j 14).log := by
  decide +kernel

theorem Calm.completedInOrder_view {σ : Solo} (h : Calm σ) :
    CompletedInOrder σ.log ↔ CompletedInOrder σ.view.log := by
  rw [CompletedInOrder, CompletedInOrder, h.output_view]
  refine and_congr_left fun _ => ⟨fun hall e he => hall e (List.mem_of_mem_filter he), ?_⟩
  intro hall e he
  cases ho : e.origin with
  | none => exact (h.log e he ho).2
  | some s => exact hall e (List.mem_filter.mpr ⟨he, by simp [ho]⟩)

/-- **The source completes exactly when SIGUSR1 arrives after the flag is set.** -/
theorem src_completion_iff {σ : Solo}
    (h : Reach (Solo.step shmSrc) InOrder (Solo.start shmSrc) σ) (hset : σ.Settled) :
    CompletedInOrder σ.log ↔ [⟨some .usr2, .countSet⟩, arrival .usr1].Sublist σ.log := by
  have honce : ∀ (σ : Solo) s, InOrder σ (.signal s) → arrival s ∉ σ.log := by
    intro σ s hs
    cases s with
    | usr1 => exact hs.1
    | usr2 => exact hs
  have hlead : ∀ (σ : Solo) s, InOrder σ (.signal s) → (∀ a, arrival a ∉ σ.log) → s = .usr2 := by
    intro σ s hs hno
    cases s with
    | usr1 => exact absurd hs.2 (hno .usr2)
    | usr2 => rfl
  obtain ⟨hcalm, hsch⟩ := Reach.scheduled (fun s => s = .usr2) (by decide) (by decide)
    (by decide) honce hlead h
  obtain ⟨s, s', rfl, hne, j, hj, hview⟩ := settled_view (M := 7) (N := 14)
    (by decide) (by decide) hsch hset
  obtain rfl : s' = .usr1 := by
    cases s' with
    | usr1 => rfl
    | usr2 => exact absurd rfl hne
  rw [hcalm.completedInOrder_view, sublist_view (by simp [arrival]), hview]
  exact shmSrc_schedules j hj

/-- SIGUSR1 after the SIGUSR2 handler has returned. -/
theorem src_completion_in_turn :
    let σ := (interrupts .usr2 .usr1 6 7).foldl (Solo.step shmSrc) (Solo.start shmSrc)
    Reach (Solo.step shmSrc) InOrder (Solo.start shmSrc) σ ∧ σ.Settled ∧
      (CompletedInOrder σ.log ↔
        [⟨some .usr2, .countSet⟩, arrival .usr1].Sublist σ.log) := by
  intro σ
  have hreach : Reach (Solo.step shmSrc) InOrder (Solo.start shmSrc) σ :=
    Reach.start.play (by decide)
  have hset : σ.Settled := ⟨by decide, by decide, by decide⟩
  exact ⟨hreach, hset, src_completion_iff hreach hset⟩

/-- SIGUSR1 arrives when `shm_pre_copy_finish` has been written and the flag is not yet set: the
    source aborts and never announces the image. -/
theorem src_aborts :
    ∃ σ, Reach (Solo.step shmSrc) InOrder (Solo.start shmSrc) σ ∧ σ.Settled ∧
      (⟨some .usr1, .failed .assertCount⟩ : Event) ∈ σ.log ∧
      output .connfd σ.log = wire [.shmPreCopyFinish] ∧ ¬ CompletedInOrder σ.log := by
  refine ⟨(interrupts .usr2 .usr1 4 14).foldl (Solo.step shmSrc) (Solo.start shmSrc),
    Reach.start.play (by decide), ⟨by decide, by decide, by decide⟩, by decide, by decide,
    by decide⟩

end QemuStudy.Controller
