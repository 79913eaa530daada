/-
  The three parties agree on the conversation when the network and QEMU behave.

  `Orderly` has done half of the work: no party stops, no assert fails, the buffer holds what is
  asked for.  What is left is that nobody waits for ever.  A party blocked in `read` has accepted
  everything written to it (`blocked_at`), so the writer still owes it a message; following who
  owes whom from the backup on leads to a party that can move or to a signal that is due
  (`progress`).

  The one assumption that is not obvious is that SIGUSR1 reaches `backup` after its handler is
  installed: `early_signal_stuck` is what happens otherwise.
-/
import QemuStudy.Controller.Orderly

namespace QemuStudy.Controller

open QemuStudy.Runs

/-! ## Nobody waits for ever -/

/-- In the idle loop, with no handler active. -/
def Proc.idling (p : Proc) : Prop := p.handlers = [] ∧ p.main = [.idle]

/-- In the loop around `read` with nothing to read.  If the stream is empty, `read` waits; if its
    other end is closed as well, `read` returns 0 and the loop calls it again.  Either way the party
    makes no progress, and both count as blocked. -/
def Net.blocked (σ : Net) (r : Role) : Prop :=
  match (σ.proc r).top.2 with
  | .read fd _ :: _ => σ.inbox (r, fd) = []
  | _ => False

/-- A party that runs, is not in its idle loop and not blocked. -/
def Net.canMove (σ : Net) (r : Role) : Prop :=
  (σ.proc r).alive = true ∧ ¬ (σ.proc r).idling ∧ ¬ σ.blocked r

instance (p : Proc) : Decidable p.idling := inferInstanceAs (Decidable (_ ∧ _))

instance (σ : Net) (r : Role) : Decidable (σ.blocked r) := by
  unfold Net.blocked
  split <;> infer_instance

instance (σ : Net) (r : Role) : Decidable (σ.canMove r) := inferInstanceAs (Decidable (_ ∧ _))

section Progress

variable {σ : Net}

/-- **A blocked party has accepted everything written to it.** -/
theorem blocked_at (h : Inv σ) (ha : Agreed σ) {r : Role} {fd : Fd} {m : Msg} {t : List Stmt}
    (htop : (σ.proc r).todoOf (readerOf r) = .read fd m :: t) (hnil : σ.inbox (r, fd) = []) :
    wroteAt (otherEnd (r, fd)) σ.log = matchedAt (r, fd) σ.log := by
  obtain ⟨ms, hms⟩ := script_at_read h ha htop
  have hflow := flow_at_read h ha htop
  rw [hnil, List.append_nil] at hflow
  exact eq_of_wire_eq (ha.wrote_script h (script_ne_nil hms)) ⟨m :: ms, hms⟩ hflow

/-- A blocked party is at a `read` of its reading thread and has accepted all that was written
    to it. -/
theorem blocked_read (h : Inv σ) (ha : Agreed σ) {r : Role} (hb : σ.blocked r) :
    ∃ fd m t, (σ.proc r).todoOf (readerOf r) = .read fd m :: t ∧
      wroteAt (otherEnd (r, fd)) σ.log = matchedAt (r, fd) σ.log := by
  unfold Net.blocked at hb
  split at hb
  · rename_i fd m t htop
    have htodo : (σ.proc r).todoOf (σ.proc r).top.1 = .read fd m :: t := by
      rw [Proc.todoOf_top, htop]
    have hshape := htodo ▸ h.shaped r (ha.alive r) (σ.proc r).top.1
    rw [hshape.cons.2.2.1 rfl] at htodo
    exact ⟨fd, m, t, htodo, blocked_at h ha htodo hb⟩
  · exact hb.elim

/-- Once the backup has sent all its commands to a party, that party is not blocked. -/
theorem not_blocked_of_script (h : Inv σ) (ha : Agreed σ) {r : Role} (hr : r ≠ .backup)
    (hall : wroteAt (otherEnd (r, .connfd)) σ.log = script (r, .connfd)) : ¬ σ.blocked r := by
  intro hb
  obtain ⟨fd, m, t, htodo, hwrote⟩ := blocked_read h ha hb
  obtain ⟨ms, hms⟩ := script_at_read h ha htodo
  rw [← hwrote] at hms
  cases r with
  | backup => exact hr rfl
  | _ =>
    cases fd with
    | connfd => rw [hall] at hms; simp at hms
    | _ => exact script_ne_nil hms rfl

/-- **Where the backup can wait**: for one of its three messages, which is then not written. -/
theorem backup_blocked (h : Inv σ) (ha : Agreed σ) (hb : σ.blocked .backup) :
    (hist .backup (some .usr1) σ.log = backupBeforeLoad.take 6 ∧
      wroteAt (.src, .connfd) σ.log = []) ∨
    (hist .backup (some .usr1) σ.log = backupBeforeLoad.take 7 ∧
      wroteAt (.src, .connfd) σ.log = [.shmPreCopyFinish]) ∨
    (hist .backup (some .usr1) σ.log = backupBeforeLoad ++ [.wrote .dstfd .shmLoadVmImage] ∧
      wroteAt (.dst, .connfd) σ.log = []) := by
  obtain ⟨fd, m, t, htodo, hwrote⟩ := blocked_read h ha hb
  rw [backup_matchedAt h] at hwrote
  replace htodo : (σ.proc .backup).todoOf (some .usr1) = .read fd m :: t := htodo
  have hfull := hist_of_active h ha (r := .backup) (o := some .usr1)
    (by rw [htodo]; simp [Stmt.future])
  rw [htodo] at hfull
  -- the record ends right before an acceptance
  have hsuf : Action.matched fd m :: future t <:+ future ((shm .backup).code (some .usr1)) :=
    ⟨_, hfull⟩
  rw [backup_future] at hsuf hfull
  simp [backupBeforeLoad, List.suffix_cons_iff] at hsuf
  rcases hsuf with ⟨⟨rfl, rfl⟩, ht⟩ | ⟨⟨rfl, rfl⟩, ht⟩ | ⟨⟨rfl, rfl⟩, ht⟩
  · rw [future_cons, ht] at hfull
    have hhist : hist .backup (some .usr1) σ.log = backupBeforeLoad.take 6 :=
      List.append_cancel_right hfull
    exact Or.inl ⟨hhist, by rw [hhist] at hwrote; exact hwrote⟩
  · rw [future_cons, ht] at hfull
    have hhist : hist .backup (some .usr1) σ.log = backupBeforeLoad.take 7 :=
      List.append_cancel_right hfull
    exact Or.inr (Or.inl ⟨hhist, by rw [hhist] at hwrote; exact hwrote⟩)
  · rw [future_cons, ht] at hfull
    have hhist : hist .backup (some .usr1) σ.log
        = backupBeforeLoad ++ [.wrote .dstfd .shmLoadVmImage] :=
      List.append_cancel_right hfull
    exact Or.inr (Or.inr ⟨hhist, by rw [hhist] at hwrote; exact hwrote⟩)

/-- An idle party whose signal has come has written what the handler writes. -/
theorem wrote_of_idling (fd : Fd) (m : Msg) (h : Inv σ) (ha : Agreed σ) {r : Role} {s : Signal}
    (hidle : (σ.proc r).idling) (harr : arrived r s ∈ σ.log)
    (hmem : .wrote fd m ∈ future ((shm r).handler s)) : m ∈ wroteAt (r, fd) σ.log := by
  have hdone : (σ.proc r).todoOf (some s) = [] := by
    rw [Proc.todoOf, hidle.1]; rfl
  rw [← hist_of_finished h ha harr hdone] at hmem
  refine List.mem_flatMap.mpr ⟨_, mem_log_of_hist hmem, ?_⟩
  simp [Action.wroteOn]

/-- In its idle loop the source has issued the switchover command. -/
theorem issued_of_idling (h : Inv σ) (ha : Agreed σ) (hidle : (σ.proc .src).idling) :
    (⟨.src, none, .issued .shmMigrateSwitchover⟩ : Entry) ∈ σ.log := by
  obtain ⟨f, hf, hfut⟩ := h.traced .src none
  rw [hfut (ha.alive .src), Proc.todoOf, hidle.2] at hf
  refine mem_log_of_hist (r := .src) (o := none) ?_
  have hhist : hist .src none σ.log = future ((shm .src).code none) := by
    simpa [starts, Stmt.future] using hf
  rw [hhist]
  decide

/-- **Progress.**  Until the backup has read `switchover_finished`, somebody can go on or a signal
    is due. -/
theorem progress (h : Inv σ) (ha : Agreed σ)
    (hend : (⟨.backup, some .usr1, .matched .dstfd .switchoverFinished⟩ : Entry) ∉ σ.log) :
    (∃ r, σ.canMove r) ∨ ∃ r s, Orderly σ (.signal r s) := by
  by_contra hstuck
  simp only [not_or, not_exists, Net.canMove, not_and, not_not] at hstuck
  obtain ⟨hstop, hnone⟩ := hstuck
  have hwait : ∀ r, ¬ (σ.proc r).idling → σ.blocked r := fun r => hstop r (ha.alive r)
  have hdue : ∀ r s, (arrived r s ∉ σ.log → Orderly σ (.signal r s)) → arrived r s ∈ σ.log := by
    intro r s hs
    by_contra habs
    exact hnone r s (hs habs)
  by_cases hidle : (σ.proc .backup).idling
  · -- the backup idles: its signal is still to come, or its handler has read the last message
    have hinst : .usr1 ∈ (σ.proc .backup).vars.installed := by
      refine (ha.installs .backup).resolve_left ?_
      rw [Proc.todoOf, hidle.2]; decide
    have harr := hdue .backup .usr1 fun habs => ⟨hinst, habs⟩
    have hdone : (σ.proc .backup).todoOf (some .usr1) = [] := by
      rw [Proc.todoOf, hidle.1]; rfl
    refine hend (mem_log_of_hist ?_)
    rw [hist_of_finished h ha harr hdone]
    decide
  · -- what the source has to do once the backup has sent it both commands
    have hsrc : wroteAt (.backup, .srcfd) σ.log = script (.src, .connfd) →
        (σ.proc .src).idling ∧ arrived .src .usr2 ∈ σ.log := by
      intro hall
      have hi : (σ.proc .src).idling := by
        by_contra hi
        exact not_blocked_of_script (r := .src) h ha (by simp) hall (hwait .src hi)
      exact ⟨hi, hdue .src .usr2 fun habs => ⟨issued_of_idling h ha hi, habs⟩⟩
    rcases backup_blocked h ha (hwait .backup hidle) with ⟨hhist, hw⟩ | ⟨hhist, hw⟩ | ⟨hhist, hw⟩
    · obtain ⟨hi, harr⟩ := hsrc (by rw [backup_wroteAt h, hhist]; rfl)
      have hmem := wrote_of_idling .connfd .shmPreCopyFinish h ha hi harr (by decide)
      rw [hw] at hmem
      cases hmem
    · obtain ⟨hi, harr⟩ := hsrc (by rw [backup_wroteAt h, hhist]; rfl)
      have harr₁ := hdue .src .usr1 fun habs => ⟨⟨harr, hi.1⟩, habs⟩
      have hmem := wrote_of_idling .connfd .completeVmImage h ha hi harr₁ (by decide)
      rw [hw] at hmem
      exact absurd hmem (by decide)
    · have hall : wroteAt (.backup, .dstfd) σ.log = script (.dst, .connfd) := by
        rw [backup_wroteAt h, hhist]; rfl
      have hi : (σ.proc .dst).idling := by
        by_contra hi
        exact not_blocked_of_script (r := .dst) h ha (by simp) hall (hwait .dst hi)
      have hloaded : (⟨.dst, none, .attempted .migrateIncomingShm true⟩ : Entry) ∈ σ.log := by
        rcases ha.loaded with ⟨hdone, -⟩ | ⟨-, hmem⟩
        · exact hdone
        · rw [Proc.todoOf, hi.2] at hmem
          exact absurd hmem (by decide)
      have harr := hdue .dst .usr1 fun habs => ⟨hloaded, habs⟩
      have hmem := wrote_of_idling .connfd .switchoverFinished h ha hi harr (by decide)
      rw [hw] at hmem
      cases hmem

end Progress

/-! ## The theorem -/

/-- **The three parties agree.**  In every state of every orderly run:
    1. no party has stopped, no assert has failed;
    2. a `read_from_file` that has returned, returned exactly the message its caller compares with:
       the right length at the length assert, the right text at the `strcmp`;
    3. until the backup has read `switchover_finished`, some party outside its idle loop is not
       blocked in `read`, or a signal is due. -/
theorem parties_agree {σ : Net} (h : Reach Net.step Orderly Net.start σ) :
    (∀ r, (σ.proc r).alive = true) ∧ (∀ x ∈ σ.log, ∀ s, x.action ≠ .failed s) ∧
    (∀ r o n fd m t, (σ.proc r).todoOf o = .assertLen n fd m :: t →
      n = m.bytes.length ∧ cstr (σ.proc r).vars.buff = m.bytes) ∧
    (∀ r o fd m t, (σ.proc r).todoOf o = .assertStrcmp fd m :: t →
      cstr (σ.proc r).vars.buff = m.bytes) ∧
    ((⟨.backup, some .usr1, .matched .dstfd .switchoverFinished⟩ : Entry) ∉ σ.log →
      (∃ r, σ.canMove r) ∨ ∃ r s, Orderly σ (.signal r s)) := by
  have hinv := Inv.of_reach h
  have ha := Agreed.of_reach h
  exact ⟨ha.alive, ha.noFail, fun _ _ _ _ _ _ htop => ready_at hinv ha htop rfl,
    fun _ _ _ _ _ htop => ready_at hinv ha htop rfl, progress hinv ha⟩

/-- After the run of `wholeRun` the destination has taken over and its signal is due. -/
theorem parties_agree_in_whole_run :
    Reach Net.step Orderly Net.start (wholeRun.foldl Net.step Net.start) ∧
    ((∃ r, (wholeRun.foldl Net.step Net.start).canMove r) ∨
      ∃ r s, Orderly (wholeRun.foldl Net.step Net.start) (.signal r s)) := by
  have hreach : Reach Net.step Orderly Net.start (wholeRun.foldl Net.step Net.start) :=
    Reach.start.play (by decide +kernel)
  exact ⟨hreach, (parties_agree hreach).2.2.2.2 (by decide +kernel)⟩

/-- The same environment with nothing said about when `backup` gets its one SIGUSR1. -/
def OrderlyAnytime (σ : Net) : Choice → Prop
  | .signal .backup .usr1 =>
    arrived .backup .usr1 ∉ σ.log ∧ (⟨.backup, some .usr1, .killed⟩ : Entry) ∉ σ.log
  | c => Orderly σ c

instance (σ : Net) : DecidablePred (OrderlyAnytime σ) := fun c => by
  unfold OrderlyAnytime
  split <;> infer_instance

/-- The pid file is there before the handler is: a SIGUSR1 in between ends `backup`, and the other
    two wait for it. -/
theorem early_signal_stuck : ∃ σ, Reach Net.step OrderlyAnytime Net.start σ ∧
    (⟨.backup, some .usr1, .matched .dstfd .switchoverFinished⟩ : Entry) ∉ σ.log ∧
    (∀ r, ¬ σ.canMove r) ∧ ∀ r s, ¬ OrderlyAnytime σ (.signal r s) := by
  refine ⟨(go .backup 1 ++ [Choice.signal .backup .usr1] ++ go .src 1 ++ go .dst 2).foldl
    Net.step Net.start, Reach.start.play (by decide +kernel), by decide +kernel, fun r => ?_,
    fun r s => ?_⟩
  · cases r <;> decide +kernel
  · cases r <;> cases s <;> decide +kernel

end QemuStudy.Controller
