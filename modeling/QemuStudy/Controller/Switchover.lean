/-
  Safety of the shared-memory switchover: the destination never loads an image the source has not
  declared complete.

  Nothing is assumed about the environment: any party runs at any time, streams are cut and merged
  at will, SIGUSR1 and SIGUSR2 reach any party at any time and any number of times (those without a
  handler end it), the two handlers of the source interrupt each other anywhere.

  The argument goes backwards along the conversation, one moment at a time:

  1. `dst` stands at `migrate_incoming_shm`: it has accepted `start_target_vm` and
     `shm_load_vm_image`, so those bytes were written by `backup` (`dst_accepted`).
  2. Before its first `shm_load_vm_image`, `backup` has only written the 15 bytes of
     `start_target_vm`; so it has written the load command (`load_written`), and its program puts
     the two acceptances before that.
  3. When `backup` accepts `complete_vm_image`, the source has written `shm_pre_copy_finish` and
     `complete_vm_image` and nothing else, so some `complete_vm_image` is on record
     (`complete_written`).
  4. The source writes that only behind `assert(sigusr1_count)`, the flag is set only by the
     SIGUSR2 handler, and only after it has written `shm_pre_copy_finish` (`source_order`).
-/
import QemuStudy.Controller.Invariants

namespace QemuStudy.Controller

open QemuStudy.Runs

/-! ## The entries the argument is about -/

/-- A SIGUSR2 handler of the source wrote `shm_pre_copy_finish`. -/
def srcPreCopy : Entry := ⟨.src, some .usr2, .wrote .connfd .shmPreCopyFinish⟩

/-- A SIGUSR1 handler of the source passed `assert(sigusr1_count)`. -/
def srcPassed : Entry := ⟨.src, some .usr1, .passed⟩

/-- A SIGUSR1 handler of the source wrote `complete_vm_image`. -/
def srcComplete : Entry := ⟨.src, some .usr1, .wrote .connfd .completeVmImage⟩

/-- The backup wrote `shm_migrate_switchover`. -/
def backupSwitch : Entry := ⟨.backup, some .usr1, .wrote .srcfd .shmMigrateSwitchover⟩

/-- The backup read `shm_pre_copy_finish`. -/
def backupGotPreCopy : Entry := ⟨.backup, some .usr1, .matched .srcfd .shmPreCopyFinish⟩

/-- The backup read `complete_vm_image`. -/
def backupGotComplete : Entry := ⟨.backup, some .usr1, .matched .srcfd .completeVmImage⟩

/-- The backup wrote `shm_load_vm_image`. -/
def backupLoad : Entry := ⟨.backup, some .usr1, .wrote .dstfd .shmLoadVmImage⟩

/-! ## Programs and histories -/

/-- Program order: what stands before an action in the program of its thread is on record before
    it. -/
theorem program_before {allowed : Net → Choice → Prop} {σ : Net}
    (h : Reach Net.step allowed Net.start σ) {l₁ l₂ : List Entry} {r : Role} {o : Option Signal}
    {y : Action} (hlog : σ.log = l₁ ++ ⟨r, o, y⟩ :: l₂) (hy : traced y = true)
    {u v : List Action} (hcode : future ((shm r).code o) = u ++ y :: v) (hu : y ∉ u) :
    u <+: hist r o l₁ := by
  obtain ⟨-, σ₂, -, hinv, -, hlog₂⟩ := inv_at h hlog
  have hpre := hinv.hist_repeats r o
  rw [hlog₂, hist_append, hist_single, List.filter_cons_of_pos hy, hcode] at hpre
  exact prefix_of_repeat hu hpre

/-- If the programs of the other threads do not deal with a kind of message, one thread's record
    holds all of them. -/
theorem Inv.seenAt_thread {σ : Net} (h : Inv σ) {π : Action → List Msg} {r : Role}
    {o : Option Signal} (hπ : ∀ a, π a ≠ [] → Controller.traced a = true)
    (hno : ∀ o', o' ≠ o → ∀ a ∈ future ((shm r).code o'), π a = []) :
    seenAt π r σ.log = (hist r o σ.log).flatMap π := by
  refine seenAt_eq_hist hπ fun x hx hr hne => ?_
  by_contra ho
  exact hne (hno x.origin ho _ (hr ▸ h.mem_code hx (hπ _ hne)))

theorem traced_of_wroteOn {fd : Fd} {a : Action} (h : a.wroteOn fd ≠ []) : traced a = true := by
  cases a <;> first | rfl | exact absurd rfl h

theorem traced_of_matchedOn {fd : Fd} {a : Action} (h : a.matchedOn fd ≠ []) :
    traced a = true := by
  cases a <;> first | rfl | exact absurd rfl h

/-- A message written at an end is on record as written by some thread. -/
theorem mem_wroteAt {e : End} {log : List Entry} {m : Msg} (h : m ∈ wroteAt e log) :
    ∃ o, (⟨e.1, o, .wrote e.2 m⟩ : Entry) ∈ log := by
  obtain ⟨⟨r, o, a⟩, hx, hm⟩ := List.mem_flatMap.mp h
  simp only at hm
  split at hm
  · rename_i hr
    cases a with
    | wrote fd m' =>
      simp only [Action.wroteOn] at hm
      split at hm
      · rename_i hfd
        rw [List.mem_singleton] at hm
        subst hr hfd hm
        exact ⟨o, hx⟩
      · cases hm
    | _ => cases hm
  · cases hm

theorem wire_mono {ms ms' : List Msg} (h : ms <+: ms') : wire ms <+: wire ms' := by
  obtain ⟨r, rfl⟩ := h
  exact ⟨wire r, (wire_append ms r).symm⟩

/-! ## The source -/

theorem exec_passed {env : Env} {v v' : Vars} {s : Stmt} {t t' : List Stmt}
    (h : exec env v t s = some (v', t', some .passed)) : v.count = true := by
  cases s with
  | assertCount =>
    simp only [exec] at h
    split at h
    · assumption
    · cases h
  | _ =>
    simp only [exec] at h
    first | (split at h <;> simp at h) | simp at h

/-- **Order inside the source.**  A `complete_vm_image` is written by a SIGUSR1 handler that passed
    its assert after some SIGUSR2 handler had written `shm_pre_copy_finish`. -/
theorem source_order {allowed : Net → Choice → Prop} {σ : Net}
    (h : Reach Net.step allowed Net.start σ) {l₁ l₂ : List Entry}
    (hlog : σ.log = l₁ ++ srcComplete :: l₂) : [srcPreCopy, srcPassed].Sublist l₁ := by
  -- the assert stands before the message in the SIGUSR1 handler
  have hpassed : srcPassed ∈ l₁ := by
    have hpre := program_before (u := [.passed, .evaluated]) (v := [.issued .quitSrc]) h hlog rfl
      rfl (by decide)
    have hsub := sublist_of_hist (hpre.sublist)
    exact hsub.subset List.mem_cons_self
  obtain ⟨p₁, p₂, rfl⟩ := List.append_of_mem hpassed
  rw [List.append_assoc, List.cons_append] at hlog
  -- when it held, the flag was set, and only the SIGUSR2 handler sets it
  obtain ⟨σ₁, env, s, t, v, t', hinv, hlog₁, hlive, -, hexec⟩ :=
    at_action h hlog (by simp) (by simp) (by simp)
  obtain ⟨o, ho⟩ := (hinv.counted .src hlive).mp (exec_passed hexec)
  have hcode := hinv.mem_code ho rfl
  obtain rfl : o = some .usr2 := by
    revert hcode
    rcases o with _ | (_ | _) <;> decide
  rw [hlog₁] at ho
  obtain ⟨q₁, q₂, rfl⟩ := List.append_of_mem ho
  rw [List.append_assoc, List.cons_append] at hlog
  -- which it does after its message
  have hpre := program_before (u := [.evaluated, .wrote .connfd .shmPreCopyFinish]) (v := []) h
    hlog rfl rfl (by decide)
  have hsub := sublist_of_hist hpre.sublist
  have hmem : srcPreCopy ∈ q₁ := hsub.subset (by simp [srcPreCopy])
  rw [List.append_assoc]
  exact (List.singleton_sublist.mpr hmem).append (List.singleton_sublist.mpr (by simp))

/-- The source writes nothing but the two messages. -/
theorem source_messages {σ : Net} (h : Inv σ) {m : Msg}
    (hm : m ∈ wroteAt (.src, .connfd) σ.log) :
    (m = .shmPreCopyFinish ∧ srcPreCopy ∈ σ.log) ∨
      (m = .completeVmImage ∧ srcComplete ∈ σ.log) := by
  obtain ⟨o, hx⟩ := mem_wroteAt hm
  have hcode := h.mem_code hx rfl
  rcases o with _ | (_ | _)
  · simp [shm, Program.code, shmSrc, shmSrcMain, Stmt.future] at hcode
  · simp [shm, Program.code, shmSrc, signalHandlerShmSrcComplete, Stmt.future] at hcode
    subst hcode
    exact Or.inr ⟨rfl, hx⟩
  · simp [shm, Program.code, shmSrc, signalHandlerShmSrcPrecopy, Stmt.future] at hcode
    subst hcode
    exact Or.inl ⟨rfl, hx⟩

/-- If `backup` could accept `shm_pre_copy_finish`, the source had written it. -/
theorem preCopy_written {σ : Net} (h : Inv σ)
    (hw : wire [.shmPreCopyFinish] <+: wire (wroteAt (.src, .connfd) σ.log)) :
    srcPreCopy ∈ σ.log := by
  cases hms : wroteAt (.src, .connfd) σ.log with
  | nil => rw [hms] at hw; exact absurd hw (by decide)
  | cons m ms =>
    rcases source_messages h (hms ▸ List.mem_cons_self) with ⟨-, hmem⟩ | ⟨rfl, -⟩
    · exact hmem
    · rw [hms] at hw
      obtain ⟨r, hr⟩ := hw
      exact absurd hr.symm (by simpa using Msg.complete_ne_preCopy)

/-- If `backup` could accept `complete_vm_image` behind `shm_pre_copy_finish`, the source had
    written it: copies of `shm_pre_copy_finish` alone never look like that. -/
theorem complete_written {σ : Net} (h : Inv σ)
    (hw : wire [.shmPreCopyFinish, .completeVmImage] <+: wire (wroteAt (.src, .connfd) σ.log)) :
    srcComplete ∈ σ.log := by
  by_contra hno
  have hall : ∀ m ∈ wroteAt (.src, .connfd) σ.log, m = .shmPreCopyFinish := fun m hm =>
    (source_messages h hm).elim And.left fun hc => absurd hc.2 hno
  obtain ⟨r, hr⟩ := hw
  generalize wroteAt (.src, .connfd) σ.log = ms at hall hr
  match ms with
  | [] => exact absurd hr (by simp [Msg.bytes, Msg.text])
  | [m] =>
    rw [hall m (by simp)] at hr
    have hlen := congrArg List.length hr
    simp [Msg.bytes, Msg.text] at hlen
  | m :: m' :: ms =>
    rw [hall m (by simp), hall m' (by simp)] at hr
    simp only [wire_cons, wire_nil, List.append_nil, List.append_assoc] at hr
    exact Msg.complete_ne_preCopy (List.append_cancel_left hr)

/-! ## The backup -/

/-- What the backup's handler records before it writes `shm_load_vm_image`. -/
def backupBeforeLoad : List Action :=
  [.evaluated, .wrote .srcfd .shmMigrate, .evaluated, .wrote .srcfd .shmMigrateSwitchover,
    .evaluated, .wrote .dstfd .startTargetVm, .matched .srcfd .shmPreCopyFinish,
    .matched .srcfd .completeVmImage, .evaluated]

theorem backup_future : future ((shm .backup).code (some .usr1)) =
    backupBeforeLoad ++ .wrote .dstfd .shmLoadVmImage ::
      [.matched .dstfd .switchoverFinished] := rfl

/-- Only the handler of SIGUSR1 sends or accepts anything in the backup. -/
theorem backup_seenAt {σ : Net} (h : Inv σ) {π : Action → List Msg}
    (hπ : ∀ a, π a ≠ [] → traced a = true) :
    seenAt π .backup σ.log = (hist .backup (some .usr1) σ.log).flatMap π := by
  refine h.seenAt_thread hπ fun o' ho a ha => ?_
  rcases o' with _ | (_ | _)
  · cases ha
  · exact absurd rfl ho
  · cases ha

theorem backup_wroteAt {σ : Net} (h : Inv σ) (fd : Fd) : wroteAt (.backup, fd) σ.log
    = (hist .backup (some .usr1) σ.log).flatMap (Action.wroteOn fd) :=
  backup_seenAt h fun _ => traced_of_wroteOn

theorem backup_matchedAt {σ : Net} (h : Inv σ) (fd : Fd) : matchedAt (.backup, fd) σ.log
    = (hist .backup (some .usr1) σ.log).flatMap (Action.matchedOn fd) :=
  backup_seenAt h fun _ => traced_of_matchedOn

/-- If `dst` could accept both of its messages, the backup had written `shm_load_vm_image`: before
    that it sends the 15 bytes of `start_target_vm` and no more. -/
theorem load_written {σ : Net} (h : Inv σ)
    (hw : wire [.startTargetVm, .shmLoadVmImage] <+: wire (wroteAt (.backup, .dstfd) σ.log)) :
    backupLoad ∈ σ.log := by
  have hmem : Action.wrote .dstfd .shmLoadVmImage ∈ hist .backup (some .usr1) σ.log := by
    by_contra hno
    have hpre := h.hist_repeats .backup (some .usr1)
    rw [backup_future] at hpre
    obtain ⟨rest, hrest⟩ := prefix_of_repeat_of_not_mem hno hpre
    have hle : wroteAt (.backup, .dstfd) σ.log <+: [.startTargetVm] := by
      refine ⟨rest.flatMap (Action.wroteOn .dstfd), ?_⟩
      rw [backup_wroteAt h, ← List.flatMap_append, hrest]
      rfl
    have hlen := (hw.trans (wire_mono hle)).length_le
    exact absurd hlen (by decide)
  exact (sublist_of_hist (List.singleton_sublist.mpr hmem)).subset (by simp [backupLoad])

/-! ## The destination -/

theorem exec_attempted {env : Env} {v v' : Vars} {s : Stmt} {t t' : List Stmt} {cmd : Command}
    {ok : Bool} (h : exec env v t s = some (v', t', some (.attempted cmd ok))) :
    s = .retry cmd := by
  cases s with
  | retry c =>
    simp only [exec, Option.some.injEq, Prod.mk.injEq, Action.attempted.injEq] at h
    rw [h.2.2.1]
  | _ =>
    simp only [exec] at h
    first | (split at h <;> simp at h) | simp at h

/-- The retry loop is in main, right before the idle loop. -/
theorem retry_suffix {o : Option Signal} {cmd : Command} {t : List Stmt}
    (h : Stmt.retry cmd :: t <:+ (shm .dst).code o) : o = none ∧ t = [.idle] := by
  rcases o with _ | (_ | _)
  · simp only [shm, Program.code, shmDst, shmDstMain, List.suffix_cons_iff] at h
    simp at h
    exact ⟨rfl, h.2⟩
  · simp only [shm, Program.code, shmDst, signalHandlerShmDst, List.suffix_cons_iff] at h
    simp at h
  · simp [shm, Program.code, shmDst] at h

/-- **When `dst` issues the command it has accepted its two messages.** -/
theorem dst_accepted {allowed : Net → Choice → Prop} {σ : Net}
    (h : Reach Net.step allowed Net.start σ) {l₁ l₂ : List Entry} {o : Option Signal} {ok : Bool}
    (hlog : σ.log = l₁ ++ ⟨.dst, o, .attempted .migrateIncomingShm ok⟩ :: l₂) :
    ∃ σ₁, Inv σ₁ ∧ σ₁.log = l₁ ∧
      matchedAt (.dst, .connfd) l₁ = [.startTargetVm, .shmLoadVmImage] := by
  obtain ⟨σ₁, env, s, t, v, t', hinv, hlog₁, hlive, htop, hexec⟩ :=
    at_action h hlog (by simp) (by simp) (by simp)
  obtain rfl := exec_attempted hexec
  have hshape := hinv.shaped .dst hlive o
  rw [htop] at hshape
  obtain ⟨rfl, rfl⟩ := retry_suffix (hshape.cons.2.2.2 rfl)
  obtain ⟨f, hf, hfut⟩ := hinv.traced .dst none
  rw [hfut hlive, htop] at hf
  have hhist : hist .dst none σ₁.log = future ((shm .dst).code none) := by
    simpa [starts, Stmt.future] using hf
  refine ⟨σ₁, hinv, hlog₁, ?_⟩
  rw [← hlog₁, matchedAt, hinv.seenAt_thread (o := none) (fun _ => traced_of_matchedOn), hhist]
  · rfl
  · intro o' ho a ha
    rcases o' with _ | (_ | _)
    · exact absurd rfl ho
    · revert a; decide
    · cases ha

/-! ## The theorem -/

/-- **The switchover is safe.**  In every run, whenever `dst` issues `migrate_incoming_shm`: a
    SIGUSR2 handler of the source wrote `shm_pre_copy_finish`, after that a SIGUSR1 handler passed
    its assert and wrote `complete_vm_image`; the backup, having written `shm_migrate_switchover`,
    read the two messages in this order, each after it was written, and then wrote
    `shm_load_vm_image`. -/
theorem incoming_only_after_completion {σ : Net} (h : Reach Net.step Anything Net.start σ)
    {l₁ l₂ : List Entry} {o : Option Signal} {ok : Bool}
    (hlog : σ.log = l₁ ++ ⟨.dst, o, .attempted .migrateIncomingShm ok⟩ :: l₂) :
    [srcPreCopy, srcPassed, srcComplete, backupGotComplete, backupLoad].Sublist l₁ ∧
    [backupSwitch, backupGotPreCopy, backupGotComplete, backupLoad].Sublist l₁ ∧
    [srcPreCopy, backupGotPreCopy].Sublist l₁ := by
  -- back to the moment the backup wrote the load command
  obtain ⟨σ₁, hinv₁, rfl, hdst⟩ := dst_accepted h hlog
  have hload := load_written hinv₁ (hdst ▸ hinv₁.matched_of_wrote (.dst, .connfd))
  obtain ⟨a, b, hab⟩ := List.append_of_mem hload
  rw [hab] at hlog ⊢
  rw [List.append_assoc, List.cons_append] at hlog
  have hscript := program_before h hlog rfl backup_future (by decide)
  have hthree : [backupSwitch, backupGotPreCopy, backupGotComplete].Sublist a := by
    have hsub : [backupSwitch, backupGotPreCopy, backupGotComplete].Sublist
        (backupBeforeLoad.map fun y => ⟨.backup, some .usr1, y⟩) := by decide
    exact hsub.trans (sublist_of_hist hscript.sublist)
  -- back to the moments it accepted the two messages of the source
  obtain ⟨c₁, c₂, hc, hhistC⟩ := split_of_hist (l := backupBeforeLoad.take 7)
    (List.IsPrefix.trans ⟨[.evaluated], rfl⟩ hscript)
  obtain ⟨p₁, p₂, hp, hhistP⟩ := split_of_hist (l := backupBeforeLoad.take 6)
    (List.IsPrefix.trans ⟨[.matched .srcfd .completeVmImage, .evaluated], rfl⟩ hscript)
  have hsrc : ∀ {l : List Entry} {m : Msg},
      wroteAt (.src, .connfd) (l ++ [⟨.backup, some .usr1, .matched .srcfd m⟩])
        = wroteAt (.src, .connfd) l := by
    intro l m
    rw [wroteAt, seenAt_concat]
    simp [wroteAt]
  refine ⟨?_, ?_, ?_⟩
  · rw [hc, List.append_assoc, List.cons_append] at hlog
    obtain ⟨τ₁, τ₂, hτ₁, hτ₂, hl₁, hl₂⟩ := inv_at h hlog
    have hacc : matchedAt (.backup, .srcfd) τ₂.log = [.shmPreCopyFinish, .completeVmImage] := by
      rw [backup_matchedAt hτ₂, hl₂, hist_append, hhistC]; rfl
    have hpre := hτ₂.matched_of_wrote (.backup, .srcfd)
    rw [hacc, otherEnd, hl₂, hsrc, ← hl₁] at hpre
    have hcomplete := complete_written hτ₁ hpre
    rw [hl₁] at hcomplete
    obtain ⟨d₁, d₂, rfl⟩ := List.append_of_mem hcomplete
    rw [List.append_assoc, List.cons_append] at hlog
    have hsource : [srcPreCopy, srcPassed, srcComplete].Sublist (d₁ ++ srcComplete :: d₂) :=
      (source_order h hlog).append (List.singleton_sublist.mpr List.mem_cons_self)
    have haccept : [srcPreCopy, srcPassed, srcComplete, backupGotComplete].Sublist a :=
      hc ▸ hsource.append (List.singleton_sublist.mpr List.mem_cons_self)
    exact haccept.append (List.singleton_sublist.mpr List.mem_cons_self)
  · exact hthree.append (List.singleton_sublist.mpr List.mem_cons_self)
  · rw [hp, List.append_assoc, List.cons_append] at hlog
    obtain ⟨τ₁, τ₂, hτ₁, hτ₂, hl₁, hl₂⟩ := inv_at h hlog
    have hacc : matchedAt (.backup, .srcfd) τ₂.log = [.shmPreCopyFinish] := by
      rw [backup_matchedAt hτ₂, hl₂, hist_append, hhistP]; rfl
    have hpre := hτ₂.matched_of_wrote (.backup, .srcfd)
    rw [hacc, otherEnd, hl₂, hsrc, ← hl₁] at hpre
    have hwritten := preCopy_written hτ₁ hpre
    rw [hl₁] at hwritten
    rw [hp]
    refine List.Sublist.trans ?_ (List.sublist_append_left _ _)
    exact (List.singleton_sublist.mpr hwritten).append
      (List.singleton_sublist.mpr List.mem_cons_self)

/-- `n` steps of one party, its reads never cut short. -/
def go (r : Role) (n : Nat) : List Choice := List.replicate n (.run r DATA_LEN true)

/-- A whole switchover, up to the command at the destination. -/
def wholeRun : List Choice :=
  go .backup 2 ++ [.signal .backup .usr1] ++ go .backup 12 ++ go .src 10 ++
  [.signal .src .usr2] ++ go .src 6 ++ [.signal .src .usr1] ++ go .src 7 ++ go .backup 13 ++
  go .dst 14

theorem incoming_in_whole_run : ∃ l₁ l₂, (wholeRun.foldl Net.step Net.start).log
      = l₁ ++ ⟨.dst, none, .attempted .migrateIncomingShm true⟩ :: l₂ ∧
    [srcPreCopy, srcPassed, srcComplete, backupGotComplete, backupLoad].Sublist l₁ ∧
    [backupSwitch, backupGotPreCopy, backupGotComplete, backupLoad].Sublist l₁ ∧
    [srcPreCopy, backupGotPreCopy].Sublist l₁ := by
  have hreach : Reach Net.step Anything Net.start (wholeRun.foldl Net.step Net.start) :=
    Reach.start.play (by decide)
  have hmem : (⟨.dst, none, .attempted .migrateIncomingShm true⟩ : Entry)
      ∈ (wholeRun.foldl Net.step Net.start).log := by decide +kernel
  obtain ⟨l₁, l₂, hlog⟩ := List.append_of_mem hmem
  exact ⟨l₁, l₂, hlog, incoming_only_after_completion hreach hlog⟩

end QemuStudy.Controller
