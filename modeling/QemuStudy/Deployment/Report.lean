/-
  What the numbers of the report mean.

  The backup reads the monotonic clock in its handler, and prints differences: pre-copy, downtime,
  post-copy, and the instants of start and end.  Every instruction is recorded with the time at
  which it was done, so the readings can be compared with what happened elsewhere.

  1. A clock variable of the backup holds the time of its only reading (`stamp_eq`), and readings
     are in the order of the code (`stamp_mono`).
  2. What the backup had matched before a reading had been sent before it (`sent_before_reading`),
     and a reading it took before it sent an order is earlier than what the order causes
     (`reading_before_order`).
  3. What a signal is for had happened before its handler ran (`before_of_due`).

  `report_brackets_migration` and `report_brackets_switchover` put these together, for the QEMU
  modes and for the shared-memory mode.  In shared-memory mode the reading that ends pre-copy comes
  before the destination loads the image, so the "vm downtime" contains the load.  In a QEMU mode
  nothing of this kind holds: the backup reads its two peers one after the other, so its "vm
  downtime" begins when it has read the first announcement, even if the second had arrived before.
-/
import QemuStudy.Deployment.Completion
import QemuStudy.Deployment.Times

namespace QemuStudy.Deployment

open QemuStudy.Controller (Role Signal Fd Msg End otherEnd)
open QemuStudy.Threads
open QemuStudy.Runs

/-! ## The code -/

section Code

variable {md : Mode}

theorem migrate_once : (code md .src none).count (.check .migrate) ≤ 1 := by
  cases md <;> decide

/-- Every clock of the backup is read once. -/
theorem clock_once (x : Clock) : (code md .backup (some .usr1)).count (.clock x) ≤ 1 := by
  cases md <;> cases x <;> decide

theorem migrate_main {o : Option Signal} (hi : .check .migrate ∈ code md .src o) : o = none := by
  revert hi
  cases md <;> rcases o with _ | _ | _ <;> decide

/-- The backup reads its clocks in the handler. -/
theorem clock_handler {o : Option Signal} {x : Clock} (hi : .clock x ∈ code md .backup o) :
    o = some .usr1 := by
  revert hi
  cases md <;> rcases o with _ | _ | _ <;> cases x <;> decide

/-- What a QEMU destination announces comes on its own descriptor. -/
theorem fd_of_read_dst (hmd : md.isShm = false) {o : Option Signal} {fd : Fd} {m : Msg}
    (hm : m ∈ dstScript) (hi : .read fd m ∈ code md .backup o) : fd = .dstfd := by
  have hall : ∀ j ∈ code md .backup o, ∀ fd' ∈ [Fd.connfd, .srcfd, .dstfd], ∀ m' ∈ j.asks fd',
      m' ∈ dstScript → fd' = .dstfd := by
    clear hi
    revert hmd
    cases md <;> rcases o with _ | _ | _ <;> decide
  exact hall _ hi fd (by cases fd <;> decide) m (by simp [Instr.asks]) hm

end Code

/-! ## Readings -/

/-- A clock variable of the backup. -/
def reading (σ : Net) (x : Clock) : Nat := (σ.proc .backup).vars.stamp x

section Readings

variable {md : Mode} {st : Role → Settings} {σ : Net}
  (h : Reach (machine (fun _ => md) st).step (Orderly md) (start (fun _ => md) st) σ)

include h

/-- What a signal is for had happened before its handler ran. -/
theorem before_of_due {r : Role} {s : Signal} {i : Instr} {d : Data} (r' : Role) (g : Instr)
    (hx : (⟨r, some s, .did i d⟩ : Entry) ∈ σ.log)
    (hdue : ∀ σ, due md σ r s → Did r' g σ.log) :
    ∃ o d', Before σ.log ⟨r', o, .did g d'⟩ ⟨r, some s, .did i d⟩ := by
  obtain ⟨l₁, l₂, hlog⟩ := List.append_of_mem hx
  obtain ⟨σ₁, -, hdue₁, -, hsub⟩ := due_before h hlog
  obtain ⟨o, d', hd'⟩ := (hdue σ₁ hdue₁).mono hsub
  exact ⟨o, d', l₁, l₂, hlog, hd'⟩

variable (hst : Proper st)

include hst

/-- An instruction that occurs once is recorded once. -/
theorem data_unique {r : Role} {o : Option Signal} {i : Instr} {d d' : Data}
    (hcount : (code md r o).count i ≤ 1) (hx : (⟨r, o, .did i d⟩ : Entry) ∈ σ.log)
    (hx' : (⟨r, o, .did i d'⟩ : Entry) ∈ σ.log) : d = d' := by
  have hle : (didOf r o σ.log).count i ≤ 1 :=
    (((Calm.of_reach hst h).didOf_initial h r o).sublist.count_le i).trans hcount
  exact eq_of_count_didOf_le_one hle hx hx'

/-- The clock variables hold the readings. -/
theorem stamp_eq {x : Clock} {d : Data}
    (hx : (⟨.backup, some .usr1, .did (.clock x) d⟩ : Entry) ∈ σ.log) :
    reading σ x = d.time := by
  obtain ⟨o, d', hd', hstamp⟩ :=
    stamp_of_reach h ((Calm.of_reach hst h).alive .backup) ⟨_, d, hx⟩
  obtain rfl := clock_handler (in_code h hd')
  rw [reading, hstamp, data_unique h hst (clock_once x) hx hd']

/-- Clock readings of the handler in the order of its code. -/
theorem stamp_mono {x y : Clock} {d : Data}
    (hy : (⟨.backup, some .usr1, .did (.clock y) d⟩ : Entry) ∈ σ.log)
    (hxy : .clock x ∈ (code md .backup (some .usr1)).takeWhile (· ≠ .clock y)) :
    reading σ x ≤ reading σ y := by
  obtain ⟨d', hb⟩ := before_in_thread h hy hxy
  rw [stamp_eq h hst hb.left, stamp_eq h hst hy]
  exact hb.time_le h

/-- A literal that the backup matched before a reading had been sent before it. -/
theorem sent_before_reading {x : Clock} {d : Data} {m : Msg} {r' : Role} {s : Signal} {fd' : Fd}
    (hm : senderOf m = some (r', s, fd'))
    (hx : (⟨.backup, some .usr1, .did (.clock x) d⟩ : Entry) ∈ σ.log)
    (hcmp : .assertStrcmp m ∈ (code md .backup (some .usr1)).takeWhile (· ≠ .clock x)) :
    ∃ d', (⟨r', some s, .did (.write fd' (.text m)) d'⟩ : Entry) ∈ σ.log ∧
      d'.time ≤ reading σ x := by
  obtain ⟨d₁, hb⟩ := before_in_thread h hx hcmp
  obtain ⟨-, d', -, hsent⟩ := handler_before_match h hm hb.left
  refine ⟨d', hsent.left, ?_⟩
  rw [stamp_eq h hst hx]
  exact (hsent.time_le h).trans (hb.time_le h)

/-- The same for what the destination of a QEMU mode has chosen to announce. -/
theorem chosen_before_reading (hmd : md.isShm = false) {x : Clock} {d : Data} {m : Msg}
    (hm : m ∈ dstScript)
    (hx : (⟨.backup, some .usr1, .did (.clock x) d⟩ : Entry) ∈ σ.log)
    (hcmp : .assertStrcmp m ∈ (code md .backup (some .usr1)).takeWhile (· ≠ .clock x)) :
    ∃ s d', d'.bytes = m.bytes ∧
      (⟨.dst, some s, .did (.write .connfd .chosen) d'⟩ : Entry) ∈ σ.log ∧
      d'.time ≤ reading σ x := by
  obtain ⟨d₁, hb⟩ := before_in_thread h hx hcmp
  obtain ⟨fd, hread, o, arg, d', hbytes, hsent⟩ := before_of_matched h hb.left
  obtain rfl := fd_of_read_dst hmd hm hread
  have hcode : .write .connfd arg ∈ code md .dst o := in_code h hsent.left
  obtain ⟨s, rfl, -⟩ := write_handler (by decide) hcode
  obtain rfl := dst_write_chosen hmd hcode
  refine ⟨s, d', hbytes, hsent.left, ?_⟩
  rw [stamp_eq h hst hx]
  exact (hsent.time_le h).trans (hb.time_le h)

/-- A reading that the backup took before it sent an order is earlier than what a peer does after
    it has matched the order. -/
theorem reading_before_order {x : Clock} {r : Role} {o : Option Signal} {i : Instr} {d : Data}
    {m : Msg} {fd : Fd} (hm : senderOf m = some (.backup, .usr1, fd))
    (hx : (⟨r, o, .did i d⟩ : Entry) ∈ σ.log)
    (hcmp : .assertStrcmp m ∈ (code md r o).takeWhile (· ≠ i))
    (hclock : .clock x ∈ (code md .backup (some .usr1)).takeWhile (· ≠ .write fd (.text m))) :
    reading σ x ≤ d.time := by
  obtain ⟨d₁, hmatched⟩ := before_in_thread h hx hcmp
  obtain ⟨-, d₂, -, hsent⟩ := handler_before_match h hm hmatched.left
  obtain ⟨d₃, hread⟩ := before_in_thread h hsent.left hclock
  rw [stamp_eq h hst hread.left]
  exact ((hread.time_le h).trans (hsent.time_le h)).trans (hmatched.time_le h)

end Readings

/-- A backup that has reported has read its clocks. -/
theorem Reported.clock {md : Mode} {σ : Net} (hrep : Reported md σ) {x : Clock}
    (hx : .clock x ∈ code md .backup (some .usr1)) :
    ∃ d, (⟨.backup, some .usr1, .did (.clock x) d⟩ : Entry) ∈ σ.log := by
  rw [← hrep] at hx
  exact mem_didOf.mp hx

/-! ## QEMU modes -/

/-- The moments of a migration, as the history has them. -/
structure Moments (log : List Entry) where
  /-- the source executes `migrate` -/
  migrate : Data
  /-- the source announces the end of pre-copy -/
  finish : Data
  /-- the destination announces that the VM runs again -/
  restart : Data
  /-- the destination announces that it has everything -/
  complete : Data
  migrated : (⟨.src, none, .did (.check .migrate) migrate⟩ : Entry) ∈ log
  finished :
    (⟨.src, some .usr1, .did (.write .connfd (.text .qemuPreCopyFinish)) finish⟩ : Entry) ∈ log
  restarted : restart.bytes = Msg.qemuVmRestart.bytes ∧
    ∃ s, (⟨.dst, some s, .did (.write .connfd .chosen) restart⟩ : Entry) ∈ log
  completed : complete.bytes = Msg.qemuPostCopyFinish.bytes ∧
    ∃ s, (⟨.dst, some s, .did (.write .connfd .chosen) complete⟩ : Entry) ∈ log

/-- **The report brackets the migration.**  Between the first and the last reading lie `migrate`
    and all three announcements, each before the reading that is taken for it; `migrate` comes
    before all of them. -/
theorem report_brackets_migration {md : Mode} (hmd : md.isShm = false) {st : Role → Settings}
    (hst : Proper st) {σ : Net}
    (h : Reach (machine (fun _ => md) st).step (Orderly md) (start (fun _ => md) st) σ)
    (hrep : Reported md σ) :
    ∃ m : Moments σ.log,
      (reading σ .beforeMigrate ≤ m.migrate.time ∧ m.migrate.time ≤ m.finish.time ∧
        m.migrate.time ≤ m.restart.time ∧ m.migrate.time ≤ m.complete.time) ∧
      (m.finish.time ≤ reading σ .preCopyFinish ∧ m.restart.time ≤ reading σ .vmRestart ∧
        m.complete.time ≤ reading σ .postCopyFinish) ∧
      reading σ .preCopyFinish ≤ reading σ .vmRestart ∧
      reading σ .vmRestart ≤ reading σ .postCopyFinish := by
  have hcode : code md .backup (some .usr1) = signalHandlerBackup := by
    simp only [code, hmd]
    rfl
  obtain ⟨_, hpre⟩ := hrep.clock (x := .preCopyFinish) (by rw [hcode]; decide)
  obtain ⟨_, hrestart⟩ := hrep.clock (x := .vmRestart) (by rw [hcode]; decide)
  obtain ⟨_, hpost⟩ := hrep.clock (x := .postCopyFinish) (by rw [hcode]; decide)
  -- the announcements
  obtain ⟨finish, hfinish, hle₁⟩ := sent_before_reading h hst (m := .qemuPreCopyFinish) rfl hpre
    (by rw [hcode]; decide)
  obtain ⟨s₁, restart, hbytes₁, hrestarted, hle₂⟩ :=
    chosen_before_reading h hst hmd (m := .qemuVmRestart) (by decide) hrestart
      (by rw [hcode]; decide)
  obtain ⟨s₂, complete, hbytes₂, hcompleted, hle₃⟩ :=
    chosen_before_reading h hst hmd (m := .qemuPostCopyFinish) (by decide) hpost
      (by rw [hcode]; decide)
  -- all of them after the one `migrate`
  have hafter : ∀ {r : Role} {s : Signal} {i : Instr} {d : Data}, r ≠ .backup →
      (⟨r, some s, .did i d⟩ : Entry) ∈ σ.log →
      ∃ d', (⟨.src, none, .did (.check .migrate) d'⟩ : Entry) ∈ σ.log ∧ d'.time ≤ d.time := by
    intro r s i d hr hd
    have hdue : ∀ σ, due md σ r s → Did .src (.check .migrate) σ.log := by
      rw [due_qemu hmd]
      intro σ hdue
      cases r <;> cases s <;>
        first | exact absurd rfl hr | exact hdue | exact hdue.1.1 | exact hdue.elim
    obtain ⟨o, d', hb⟩ := before_of_due h .src (.check .migrate) hd hdue
    obtain rfl := migrate_main (in_code h hb.left)
    exact ⟨d', hb.left, hb.time_le h⟩
  obtain ⟨migrate, hmigrate, hle⟩ := hafter (by decide) hfinish
  have hlater : ∀ {s : Signal} {i : Instr} {d : Data},
      (⟨.dst, some s, .did i d⟩ : Entry) ∈ σ.log → migrate.time ≤ d.time := by
    intro s i d hd
    obtain ⟨d', hmigrate', hle'⟩ := hafter (by decide) hd
    rw [data_unique h hst migrate_once hmigrate hmigrate']
    exact hle'
  have hfirst : reading σ .beforeMigrate ≤ migrate.time := by
    refine reading_before_order h hst (m := .qemuMigrate) rfl hmigrate ?_ (by rw [hcode]; decide)
    clear * - hmd
    revert hmd
    cases md <;> decide
  exact ⟨⟨migrate, finish, restart, complete, hmigrate, hfinish, ⟨hbytes₁, s₁, hrestarted⟩,
      ⟨hbytes₂, s₂, hcompleted⟩⟩,
    ⟨hfirst, hle, hlater hrestarted, hlater hcompleted⟩, ⟨hle₁, hle₂, hle₃⟩,
    stamp_mono h hst hrestart (by rw [hcode]; decide),
    stamp_mono h hst hpost (by rw [hcode]; decide)⟩

theorem report_brackets_migration_postcopy :
    ∃ m : Moments (played .qemuPostcopy postcopyPlay).log,
      (reading (played .qemuPostcopy postcopyPlay) .beforeMigrate ≤ m.migrate.time ∧
        m.migrate.time ≤ m.finish.time ∧ m.migrate.time ≤ m.restart.time ∧
        m.migrate.time ≤ m.complete.time) ∧
      (m.finish.time ≤ reading (played .qemuPostcopy postcopyPlay) .preCopyFinish ∧
        m.restart.time ≤ reading (played .qemuPostcopy postcopyPlay) .vmRestart ∧
        m.complete.time ≤ reading (played .qemuPostcopy postcopyPlay) .postCopyFinish) ∧
      reading (played .qemuPostcopy postcopyPlay) .preCopyFinish
        ≤ reading (played .qemuPostcopy postcopyPlay) .vmRestart ∧
      reading (played .qemuPostcopy postcopyPlay) .vmRestart
        ≤ reading (played .qemuPostcopy postcopyPlay) .postCopyFinish :=
  report_brackets_migration (by decide) proper_shipped (Reach.play .start postcopyPlay_playable)
    (by unfold Reported; decide +kernel)

/-! ## Shared-memory mode -/

/-- The moments of a switchover, as the history has them. -/
structure ShmMoments (log : List Entry) where
  /-- the source executes `shm_migrate_switchover` -/
  switchover : Data
  /-- the source announces the end of pre-copy -/
  preCopy : Data
  /-- the source announces that the image is complete -/
  complete : Data
  /-- the destination loads the image -/
  load : Data
  /-- the destination announces that the VM runs again -/
  finish : Data
  switched : (⟨.src, none, .did (.system .shmMigrateSwitchover) switchover⟩ : Entry) ∈ log
  precopied :
    (⟨.src, some .usr2, .did (.write .connfd (.text .shmPreCopyFinish)) preCopy⟩ : Entry) ∈ log
  completed :
    (⟨.src, some .usr1, .did (.write .connfd (.text .completeVmImage)) complete⟩ : Entry) ∈ log
  loaded : (⟨.dst, none, .did (.retry .migrateIncomingShm) load⟩ : Entry) ∈ log
  finished :
    (⟨.dst, some .usr1, .did (.write .connfd (.text .switchoverFinished)) finish⟩ : Entry) ∈ log

theorem switchover_main {o : Option Signal}
    (hi : .system .shmMigrateSwitchover ∈ code .shm .src o) : o = none := by
  revert hi
  rcases o with _ | _ | _ <;> decide

theorem load_main {o : Option Signal} (hi : .retry .migrateIncomingShm ∈ code .shm .dst o) :
    o = none := by
  revert hi
  rcases o with _ | _ | _ <;> decide

section Shm

variable {st : Role → Settings} {σ : Net}
  (h : Reach (machine (fun _ => .shm) st).step (Orderly .shm) (start (fun _ => .shm) st) σ)

include h

/-- The destination loads what the source has announced to be complete. -/
theorem complete_before_load {d : Data}
    (hx : (⟨.dst, none, .did (.retry .migrateIncomingShm) d⟩ : Entry) ∈ σ.log) :
    ∃ d', (⟨.src, some .usr1, .did (.write .connfd (.text .completeVmImage)) d'⟩ : Entry) ∈ σ.log ∧
      d'.time ≤ d.time := by
  obtain ⟨_, hmatched⟩ := before_in_thread h hx (j := .assertStrcmp .shmLoadVmImage) (by decide)
  obtain ⟨-, _, -, hordered⟩ := handler_before_match h (m := .shmLoadVmImage) rfl hmatched.left
  obtain ⟨_, hread⟩ := before_in_thread h hordered.left (j := .assertStrcmp .completeVmImage)
    (by decide)
  obtain ⟨-, d', -, hsent⟩ := handler_before_match h (m := .completeVmImage) rfl hread.left
  exact ⟨d', hsent.left, (((hsent.time_le h).trans (hread.time_le h)).trans
    (hordered.time_le h)).trans (hmatched.time_le h)⟩

/-- The source announces the end of pre-copy first. -/
theorem preCopy_before_complete {d : Data}
    (hx : (⟨.src, some .usr1, .did (.write .connfd (.text .completeVmImage)) d⟩ : Entry) ∈ σ.log) :
    ∃ d', (⟨.src, some .usr2, .did (.write .connfd (.text .shmPreCopyFinish)) d'⟩ : Entry) ∈ σ.log ∧
      d'.time ≤ d.time := by
  obtain ⟨o, _, hflag⟩ := before_of_due h .src .setCount hx fun _ hdue => hdue
  obtain ⟨-, rfl⟩ := setCount_shm (in_code h hflag.left)
  obtain ⟨d', hb⟩ := before_in_thread h hflag.left
    (j := .write .connfd (.text .shmPreCopyFinish)) (by decide)
  exact ⟨d', hb.left, (hb.time_le h).trans (hflag.time_le h)⟩

end Shm

/-- **The report of a switchover.**  The source switches over after the first reading and before it
    announces the end of pre-copy; the second reading comes after this announcement and before the
    destination loads the image, which is complete by then; the last comes after the destination has
    announced that the VM runs.  So the "vm downtime" that is printed contains the load. -/
theorem report_brackets_switchover {st : Role → Settings} (hst : Proper st) {σ : Net}
    (h : Reach (machine (fun _ => .shm) st).step (Orderly .shm) (start (fun _ => .shm) st) σ)
    (hrep : Reported .shm σ) :
    ∃ m : ShmMoments σ.log,
      (reading σ .beforeMigrate ≤ m.switchover.time ∧ m.switchover.time ≤ m.preCopy.time ∧
        m.preCopy.time ≤ reading σ .preCopyFinish) ∧
      (reading σ .preCopyFinish ≤ m.load.time ∧ m.load.time ≤ m.finish.time ∧
        m.finish.time ≤ reading σ .vmRestart) ∧
      m.preCopy.time ≤ m.complete.time ∧ m.complete.time ≤ m.load.time := by
  obtain ⟨_, hpre⟩ := hrep.clock (x := .preCopyFinish) (by decide)
  obtain ⟨_, hrestart⟩ := hrep.clock (x := .vmRestart) (by decide)
  -- from the second reading back to the switchover
  obtain ⟨preCopy, hpreCopy, hle₁⟩ := sent_before_reading h hst (m := .shmPreCopyFinish) rfl hpre
    (by decide)
  obtain ⟨o, switchover, hswitch⟩ :=
    before_of_due h .src (.system .shmMigrateSwitchover) hpreCopy fun _ hdue => hdue
  obtain rfl := switchover_main (in_code h hswitch.left)
  have hfirst := reading_before_order h hst (x := .beforeMigrate) (m := .shmMigrateSwitchover) rfl
    hswitch.left (by decide) (by decide)
  -- from the last reading back to the load
  obtain ⟨finish, hfinish, hle₂⟩ := sent_before_reading h hst (m := .switchoverFinished) rfl
    hrestart (by decide)
  obtain ⟨o, load, hload⟩ :=
    before_of_due h .dst (.retry .migrateIncomingShm) hfinish fun _ hdue => hdue
  obtain rfl := load_main (in_code h hload.left)
  have hsecond := reading_before_order h hst (x := .preCopyFinish) (m := .shmLoadVmImage) rfl
    hload.left (by decide) (by decide)
  -- and from the load to the same announcement of the source
  obtain ⟨complete, hcomplete, hle₃⟩ := complete_before_load h hload.left
  obtain ⟨preCopy', hpreCopy', hle₄⟩ := preCopy_before_complete h hcomplete
  obtain rfl := data_unique h hst (by decide) hpreCopy hpreCopy'
  exact ⟨⟨switchover, preCopy, complete, load, finish, hswitch.left, hpreCopy, hcomplete,
      hload.left, hfinish⟩,
    ⟨hfirst, hswitch.time_le h, hle₁⟩, ⟨hsecond, hload.time_le h, hle₂⟩, hle₄, hle₃⟩

theorem report_brackets_switchover_shm :
    ∃ m : ShmMoments (played .shm shmPlay).log,
      (reading (played .shm shmPlay) .beforeMigrate ≤ m.switchover.time ∧
        m.switchover.time ≤ m.preCopy.time ∧
        m.preCopy.time ≤ reading (played .shm shmPlay) .preCopyFinish) ∧
      (reading (played .shm shmPlay) .preCopyFinish ≤ m.load.time ∧
        m.load.time ≤ m.finish.time ∧
        m.finish.time ≤ reading (played .shm shmPlay) .vmRestart) ∧
      m.preCopy.time ≤ m.complete.time ∧ m.complete.time ≤ m.load.time :=
  report_brackets_switchover proper_shipped (Reach.play .start shmPlay_playable)
    (by unfold Reported; decide +kernel)

end QemuStudy.Deployment
