/-
  The environment the shared-memory controllers are written for, and what it keeps true.

  `Orderly` says: a `read` returns everything it asks for if that much is pending, `backup` gets one
  SIGUSR1, source QEMU raises SIGUSR2 and later SIGUSR1 after the switchover command, one handler
  after the other, and destination QEMU raises SIGUSR1 once it has taken over.  The schedule is
  still arbitrary, and so is the number of failed attempts at `migrate_incoming_shm`.

  Messages have no delimiters, so what a `read` returns depends on everything written and read
  before.  The idea of the invariant `Agreed` is that each end has a SCRIPT, the messages its
  reading thread will ask for in order, and that the other side writes an initial part of exactly
  that script (`Agreed.wrote_script`).  So a non-empty inbox starts with the message asked for
  (`inbox_head`), and no assert ever fails (`exec_ne_none`).

  `Agreed.of_reach` collects one preservation lemma per field, as in `Invariants`.
-/
import Mathlib.Data.List.Infix
import QemuStudy.Controller.Switchover

namespace QemuStudy.Controller

open QemuStudy.Runs

/-! ## The environment -/

/-- The arrival of a signal at a party, as the history has it. -/
def arrived (r : Role) (s : Signal) : Entry := ⟨r, some s, .delivered⟩

/-- Whole messages, and each signal once, when it is due.  The one for `backup` comes after its
    handler is installed: before `signal()` it would end the process. -/
def Orderly (σ : Net) : Choice → Prop
  | .run _ k _ => DATA_LEN ≤ k
  | .signal .backup .usr1 =>
    .usr1 ∈ (σ.proc .backup).vars.installed ∧ arrived .backup .usr1 ∉ σ.log
  | .signal .src .usr2 =>
    (⟨.src, none, .issued .shmMigrateSwitchover⟩ : Entry) ∈ σ.log ∧ arrived .src .usr2 ∉ σ.log
  | .signal .src .usr1 =>
    (arrived .src .usr2 ∈ σ.log ∧ (σ.proc .src).handlers = []) ∧ arrived .src .usr1 ∉ σ.log
  | .signal .dst .usr1 =>
    (⟨.dst, none, .attempted .migrateIncomingShm true⟩ : Entry) ∈ σ.log ∧
      arrived .dst .usr1 ∉ σ.log
  | .signal .backup .usr2 => False
  | .signal .dst .usr2 => False

instance (σ : Net) : DecidablePred (Orderly σ)
  | .run _ k _ => inferInstanceAs (Decidable (DATA_LEN ≤ k))
  | .signal .backup .usr1 => inferInstanceAs (Decidable (_ ∧ _))
  | .signal .src .usr2 => inferInstanceAs (Decidable (_ ∧ _))
  | .signal .src .usr1 => inferInstanceAs (Decidable ((_ ∧ _) ∧ _))
  | .signal .dst .usr1 => inferInstanceAs (Decidable (_ ∧ _))
  | .signal .backup .usr2 => inferInstanceAs (Decidable False)
  | .signal .dst .usr2 => inferInstanceAs (Decidable False)

theorem Orderly.fresh {σ : Net} {r : Role} {s : Signal} (h : Orderly σ (.signal r s)) :
    arrived r s ∉ σ.log := by
  cases r <;> cases s <;> first | exact h.2 | exact h.elim

theorem length_le_dataLen (m : Msg) : m.bytes.length ≤ DATA_LEN := by cases m <;> decide

/-! ## What is to hold -/

/-- The buffer holds the message that the next asserts ask for. -/
def Ready (buff : Buff) : List Stmt → Prop
  | .assertLen n _ m :: _ => n = m.bytes.length ∧ cstr buff = m.bytes
  | .assertStrcmp _ m :: _ => cstr buff = m.bytes
  | _ => True

/-- The invariant of orderly runs. -/
structure Agreed (σ : Net) : Prop where
  alive : ∀ r, (σ.proc r).alive = true
  noFail : ∀ x ∈ σ.log, ∀ s, x.action ≠ .failed s
  once : ∀ r s, σ.log.count (arrived r s) ≤ 1
  inTurn : arrived .src .usr1 ∈ σ.log →
    arrived .src .usr2 ∈ σ.log ∧ (σ.proc .src).todoOf (some .usr2) = []
  ready : ∀ r, Ready (σ.proc r).vars.buff ((σ.proc r).todoOf (readerOf r))
  srcWrites : wroteAt (.src, .connfd) σ.log
    = (hist .src (some .usr2) σ.log).flatMap (Action.wroteOn .connfd)
      ++ (hist .src (some .usr1) σ.log).flatMap (Action.wroteOn .connfd)
  installs : ∀ r, .signal .usr1 ∈ (σ.proc r).todoOf none ∨ .usr1 ∈ (σ.proc r).vars.installed
  srcInstalled : ∀ s, s ∈ (σ.proc .src).vars.installed
  loaded : ((⟨.dst, none, .attempted .migrateIncomingShm true⟩ : Entry) ∈ σ.log ∧
      (σ.proc .dst).todoOf none = [.idle]) ∨
    ((⟨.dst, none, .attempted .migrateIncomingShm true⟩ : Entry) ∉ σ.log ∧
      .retry .migrateIncomingShm ∈ (σ.proc .dst).todoOf none)

theorem Agreed.init : Agreed Net.start where
  alive _ := rfl
  noFail := by intro x hx; cases hx
  once _ _ := by simp [Net.start]
  inTurn := by intro h; cases h
  ready r := by cases r <;> trivial
  srcWrites := rfl
  installs r := by cases r <;> simp [Net.start, Program.start, Proc.todoOf, shm, shmBackup,
    shmBackupMain, shmSrc, shmDst, shmDstMain]
  srcInstalled s := by cases s <;> decide
  loaded := Or.inr ⟨by simp [Net.start], by decide⟩

/-! ## Threads that run once -/

section Threads

variable {σ : Net}

/-- A thread that still has something to record has been started, once. -/
theorem hist_of_active (h : Inv σ) (ha : Agreed σ) {r : Role} {o : Option Signal}
    (hne : future ((σ.proc r).todoOf o) ≠ []) :
    hist r o σ.log ++ future ((σ.proc r).todoOf o) = future ((shm r).code o) := by
  obtain ⟨f, hf, hfut⟩ := h.traced r o
  rw [hfut (ha.alive r)] at hf
  have hle : starts r o σ.log ≤ 1 := by
    cases o with
    | none => exact Nat.le_refl _
    | some s => exact ha.once r s
  rcases Nat.le_one_iff_eq_zero_or_eq_one.mp hle with h0 | h1
  · rw [h0] at hf
    exact absurd (List.append_eq_nil_iff.mp hf).2 hne
  · rw [h1] at hf
    simpa using hf

/-- A handler that has run and finished has recorded all of its program. -/
theorem hist_of_finished (h : Inv σ) (ha : Agreed σ) {r : Role} {s : Signal}
    (harr : arrived r s ∈ σ.log) (hdone : (σ.proc r).todoOf (some s) = []) :
    hist r (some s) σ.log = future ((shm r).handler s) := by
  obtain ⟨f, hf, hfut⟩ := h.traced r (some s)
  have hone : starts r (some s) σ.log = 1 :=
    Nat.le_antisymm (ha.once r s) (List.count_pos_iff.mpr harr)
  rw [hfut (ha.alive r), hdone, hone] at hf
  simpa [Program.code] using hf

/-- A signal that has not arrived has left no trace. -/
theorem hist_of_absent (h : Inv σ) {r : Role} {s : Signal} (habs : arrived r s ∉ σ.log) :
    hist r (some s) σ.log = [] := by
  have hpre := h.hist_repeats r (some s)
  have h0 : starts r (some s) σ.log = 0 := List.count_eq_zero.mpr habs
  rw [h0] at hpre
  exact List.prefix_nil.mp hpre

/-- Each thread has recorded an initial part of its program, run once. -/
theorem hist_once (h : Inv σ) (ha : Agreed σ) (r : Role) (s : Signal) :
    hist r (some s) σ.log <+: future ((shm r).handler s) := by
  have hpre := h.hist_repeats r (some s)
  rcases Nat.le_one_iff_eq_zero_or_eq_one.mp (ha.once r s) with h0 | h1
  · rw [show starts r (some s) σ.log = 0 from h0] at hpre
    rw [List.prefix_nil.mp hpre]
    exact List.nil_prefix
  · rw [show starts r (some s) σ.log = 1 from h1] at hpre
    simpa [Program.code] using hpre

/-- What a thread has recorded is in the history. -/
theorem mem_log_of_hist {r : Role} {o : Option Signal} {a : Action} (h : a ∈ hist r o σ.log) :
    (⟨r, o, a⟩ : Entry) ∈ σ.log :=
  (sublist_of_hist (List.singleton_sublist.mpr h)).subset (by simp)

end Threads

/-! ## Scripts -/

/-- The messages that the reading thread at an end asks for, in order. -/
def script (e : End) : List Msg :=
  (future ((shm e.1).code (readerOf e.1))).flatMap (Action.matchedOn e.2)

section Scripts

variable {σ : Net}

/-- Only the reading thread accepts messages. -/
theorem matchedAt_eq (h : Inv σ) (e : End) :
    matchedAt e σ.log = (hist e.1 (readerOf e.1) σ.log).flatMap (Action.matchedOn e.2) := by
  obtain ⟨r, fd⟩ := e
  refine h.seenAt_thread (fun _ => traced_of_matchedOn) fun o' ho a haf => ?_
  have hnot : ∀ x ∈ future ((shm r).code o'), ∀ fd m, x ≠ .matched fd m := by
    rcases o' with _ | (_ | _) <;> cases r <;>
      first | exact absurd rfl ho | (simp [shm, Program.code, shmBackup, shmBackupMain, shmSrc,
        shmDst, signalHandlerShmSrcComplete, signalHandlerShmSrcPrecopy, signalHandlerShmDst,
        Stmt.future])
  cases a with
  | matched fd' m => exact absurd rfl (hnot _ haf fd' m)
  | _ => rfl

/-- At a `read` of `m`, the script continues with `m`. -/
theorem script_at_read (h : Inv σ) (ha : Agreed σ) {r : Role} {fd : Fd} {m : Msg} {t : List Stmt}
    (htop : (σ.proc r).todoOf (readerOf r) = .read fd m :: t) :
    ∃ ms, matchedAt (r, fd) σ.log ++ m :: ms = script (r, fd) := by
  have hfull := hist_of_active h ha (r := r) (o := readerOf r) (by rw [htop]; simp [Stmt.future])
  rw [htop] at hfull
  refine ⟨(future t).flatMap (Action.matchedOn fd), ?_⟩
  rw [matchedAt_eq h, script, ← hfull, List.flatMap_append]
  simp [Stmt.future, Action.matchedOn]

/-- **The writers keep to the script.** -/
theorem Agreed.wrote_script (ha : Agreed σ) (h : Inv σ) {e : End} (he : script e ≠ []) :
    wroteAt (otherEnd e) σ.log <+: script e := by
  obtain ⟨r, fd⟩ := e
  cases r with
  | backup =>
    cases fd with
    | connfd => exact absurd rfl he
    | srcfd =>
      show wroteAt (.src, .connfd) σ.log <+: _
      rw [ha.srcWrites]
      by_cases harr : arrived .src .usr1 ∈ σ.log
      · obtain ⟨harr₂, hdone⟩ := ha.inTurn harr
        rw [hist_of_finished h ha harr₂ hdone]
        exact (List.prefix_append_right_inj [Msg.shmPreCopyFinish]).mpr
          ((hist_once h ha .src .usr1).flatMap (Action.wroteOn .connfd))
      · rw [hist_of_absent h harr, List.flatMap_nil, List.append_nil]
        exact ((hist_once h ha .src .usr2).flatMap (Action.wroteOn .connfd)).trans
          ⟨[.completeVmImage], rfl⟩
    | dstfd =>
      show wroteAt (.dst, .connfd) σ.log <+: _
      rw [wroteAt, h.seenAt_thread (o := some .usr1) (fun _ => traced_of_wroteOn)]
      · exact (hist_once h ha .dst .usr1).flatMap (Action.wroteOn .connfd)
      · intro o' ho a haf
        rcases o' with _ | (_ | _)
        · revert a; decide
        · exact absurd rfl ho
        · cases haf
  | src =>
    cases fd with
    | connfd =>
      show wroteAt (.backup, .srcfd) σ.log <+: _
      rw [backup_wroteAt h]
      exact (hist_once h ha .backup .usr1).flatMap (Action.wroteOn .srcfd)
    | _ => exact absurd rfl he
  | dst =>
    cases fd with
    | connfd =>
      show wroteAt (.backup, .dstfd) σ.log <+: _
      rw [backup_wroteAt h]
      exact (hist_once h ha .backup .usr1).flatMap (Action.wroteOn .dstfd)
    | _ => exact absurd rfl he

/-- Two initial parts of a script with the bytes of one followed by more: the other continues. -/
theorem wire_continues {M a b : List Msg} {m : Msg} {ms : List Msg} {inbox : List UInt8}
    (hM : a ++ m :: ms = M) (hb : b <+: M) (hwire : wire b = wire a ++ inbox)
    (hne : inbox ≠ []) : ∃ rest, inbox = m.bytes ++ rest := by
  have ha : a <+: M := ⟨m :: ms, hM⟩
  rcases List.prefix_or_prefix_of_prefix hb ha with hba | hab
  · obtain ⟨c, rfl⟩ := hba
    rw [wire_append] at hwire
    have hlen := congrArg List.length hwire
    simp only [List.length_append] at hlen
    exact absurd (List.length_eq_zero_iff.mp (by omega)) hne
  · obtain ⟨c, rfl⟩ := hab
    rw [wire_append] at hwire
    have hinbox := List.append_cancel_left hwire
    obtain ⟨d, hd⟩ := hb
    rw [← hM, List.append_assoc] at hd
    have hcd := List.append_cancel_left hd
    cases c with
    | nil => exact absurd hinbox.symm hne
    | cons m' c =>
      obtain ⟨rfl, -⟩ := List.cons.inj hcd
      exact ⟨wire c, by rw [← hinbox, wire_cons]⟩

/-- Two initial parts of a script with the same bytes are the same. -/
theorem eq_of_wire_eq {M a b : List Msg} (ha : a <+: M) (hb : b <+: M) (h : wire a = wire b) :
    a = b := by
  rcases List.prefix_or_prefix_of_prefix ha hb with hab | hba
  · obtain ⟨c, rfl⟩ := hab
    rw [wire_append] at h
    rw [wire_eq_nil (List.self_eq_append_right.mp h), List.append_nil]
  · obtain ⟨c, rfl⟩ := hba
    rw [wire_append] at h
    rw [wire_eq_nil (List.self_eq_append_right.mp h.symm), List.append_nil]

theorem script_ne_nil {e : End} {l ms : List Msg} {m : Msg} (h : l ++ m :: ms = script e) :
    script e ≠ [] := by
  intro h0
  rw [h0] at h
  simp at h

/-- A party that is about to read has accepted all but what is pending. -/
theorem flow_at_read (h : Inv σ) (ha : Agreed σ) {r : Role} {fd : Fd} {m : Msg} {t : List Stmt}
    (htop : (σ.proc r).todoOf (readerOf r) = .read fd m :: t) :
    wire (wroteAt (otherEnd (r, fd)) σ.log)
      = wire (matchedAt (r, fd) σ.log) ++ σ.inbox (r, fd) := by
  obtain ⟨cur, hcur, hheld⟩ := h.flow (r, fd)
  have hh := hheld (ha.alive r)
  rw [htop] at hh
  rw [hcur, hh.1, List.append_nil]

/-- **What is pending starts with what is asked for.** -/
theorem inbox_head (h : Inv σ) (ha : Agreed σ) {r : Role} {fd : Fd} {m : Msg} {t : List Stmt}
    (htop : (σ.proc r).todoOf (readerOf r) = .read fd m :: t) (hne : σ.inbox (r, fd) ≠ []) :
    ∃ rest, σ.inbox (r, fd) = m.bytes ++ rest := by
  obtain ⟨ms, hms⟩ := script_at_read h ha htop
  exact wire_continues hms (ha.wrote_script h (script_ne_nil hms)) (flow_at_read h ha htop) hne

end Scripts

/-! ## What one statement does -/

section Exec

variable {env : Env} {v v' : Vars} {s : Stmt} {t t' : List Stmt} {a : Option Action}

/-- The asserts are all that can stop a party. -/
theorem exec_eq_none (h : exec env v t s = none) :
    (∃ n fd m, s = .assertLen n fd m ∧ n ≠ m.bytes.length) ∨
    (∃ fd m, s = .assertStrcmp fd m ∧ cstr v.buff ≠ m.bytes) ∨
    (s = .assertCount ∧ v.count = false) := by
  cases s with
  | assertLen n fd m =>
    simp only [exec] at h
    split at h
    · cases h
    · rename_i hn
      exact Or.inl ⟨n, fd, m, rfl, hn⟩
  | assertStrcmp fd m =>
    simp only [exec] at h
    split at h
    · cases h
    · rename_i hstr
      exact Or.inr (Or.inl ⟨fd, m, rfl, hstr⟩)
  | assertCount =>
    simp only [exec] at h
    split at h
    · cases h
    · rename_i hcount
      exact Or.inr (Or.inr ⟨rfl, by simpa using hcount⟩)
  | read fd m =>
    simp only [exec] at h
    split at h <;> cases h
  | _ => cases h

theorem exec_not_failed (h : exec env v t s = some (v', t', a)) (x : Stmt) :
    a ≠ some (.failed x) := by
  cases s <;> simp only [exec] at h <;> (try split at h) <;> cases h <;> simp

/-- Code behind the current statement stays. -/
theorem exec_tail (hs : s.plain = true) (h : exec env v t s = some (v', t', a)) : t ⊆ t' := by
  rcases exec_todo hs h with rfl | rfl | ⟨s', rfl, -⟩
  · exact fun _ => id
  · exact List.subset_cons_self _ _
  · exact List.subset_cons_self _ _

theorem ready_of_not_reads {buff : Buff} (h : s.reads = false) : Ready buff (s :: t) := by
  cases s <;> trivial

theorem ready_of_source {buff : Buff} (h : ∀ x ∈ t, x.source = true) : Ready buff t := by
  cases t with
  | nil => trivial
  | cons x t => cases x <;> first | trivial | cases h _ List.mem_cons_self

/-- **One step of the reading thread**: if what is pending starts with the message asked for, and
    the read is not cut short, the buffer will hold that message. -/
theorem exec_ready (hplain : s.plain = true) (ht : ∀ x ∈ t, x.source = true)
    (h : exec env v t s = some (v', t', a)) (hready : Ready v.buff (s :: t))
    (hk : DATA_LEN ≤ env.k)
    (hread : ∀ fd m, s = .read fd m → env.input fd ≠ [] →
      (∃ rest, env.input fd = m.bytes ++ rest) ∧ ∃ b, v.buff = memset (m.sizeof + 1) b) :
    Ready v'.buff t' := by
  cases s with
  | read fd m =>
    simp only [exec] at h
    split at h
    · cases h; trivial
    · rename_i hchunk
      have hne : env.input fd ≠ [] := by
        intro hnil
        rw [hnil, readSome_nil] at hchunk
        exact hchunk rfl
      obtain ⟨⟨rest, hrest⟩, b, hb⟩ := hread fd m rfl hne
      have hwhole : readSome env.k (m.sizeof - 1) (env.input fd) = m.bytes := by
        rw [hrest]
        exact readSome_whole ((length_le_dataLen m).trans hk) rest
      cases h
      rw [hwhole, hb]
      refine ⟨rfl, ?_⟩
      rw [cstr_store_memset (by rw [Msg.sizeof]; omega), takeWhile_bytes]
  | assertLen n fd m =>
    simp only [exec] at h
    split at h
    · cases h; exact hready.2
    · cases h
  | assertStrcmp fd m =>
    simp only [exec] at h
    split at h
    · cases h; exact ready_of_source ht
    · cases h
  | receive fd m => cases h; trivial
  | _ =>
    rcases exec_todo hplain h with rfl | rfl | ⟨s', rfl, -, -, hr⟩
    · exact ready_of_source ht
    · exact ready_of_not_reads rfl
    · exact ready_of_not_reads hr

end Exec

/-! ## One step -/

section Step

variable {σ σ' : Net} {r₀ : Role} {c : Choice}

theorem arrived_of_active (h : Inv σ) (ha : Agreed σ) {r : Role} {s : Signal}
    (hne : future ((σ.proc r).todoOf (some s)) ≠ []) : arrived r s ∈ σ.log := by
  by_contra habs
  obtain ⟨f, hf, hfut⟩ := h.traced r (some s)
  rw [show starts r (some s) σ.log = 0 from List.count_eq_zero.mpr habs,
    hfut (ha.alive r)] at hf
  exact hne (List.append_eq_nil_iff.mp hf).2

/-- The assert of the source holds: the SIGUSR2 handler has run to its end. -/
theorem count_of_assertCount (h : Inv σ) (ha : Agreed σ) {r : Role} {o : Option Signal}
    {t : List Stmt} (htop : (σ.proc r).todoOf o = .assertCount :: t) :
    (σ.proc r).vars.count = true := by
  have hshape := h.shaped r (ha.alive r) o
  rw [htop] at hshape
  have hmem : Stmt.assertCount ∈ (shm r).code o := (hshape.cons.2.2.2 rfl).subset (by simp)
  obtain ⟨rfl, rfl⟩ : r = .src ∧ o = some .usr1 := by
    revert hmem
    rcases o with _ | (_ | _) <;> cases r <;> decide
  have harr := arrived_of_active h ha (r := .src) (s := .usr1) (by rw [htop]; simp [Stmt.future])
  obtain ⟨harr₂, hdone⟩ := ha.inTurn harr
  refine (h.counted .src (ha.alive .src)).mpr ⟨some .usr2, mem_log_of_hist ?_⟩
  rw [hist_of_finished h ha harr₂ hdone]
  decide

/-- Only the reading thread stands at an assert about the buffer, and there it is right. -/
theorem ready_at (h : Inv σ) (ha : Agreed σ) {r : Role} {o : Option Signal} {s : Stmt}
    {t : List Stmt} (htop : (σ.proc r).todoOf o = s :: t) (hs : s.reads = true) :
    Ready (σ.proc r).vars.buff (s :: t) := by
  have hshape := htop ▸ h.shaped r (ha.alive r) o
  rw [← htop, hshape.cons.2.2.1 hs]
  exact ha.ready r

/-- **No assert fails.** -/
theorem exec_ne_none (h : Inv σ) (ha : Agreed σ) {env : Env} {r : Role} {o : Option Signal}
    {s : Stmt} {t : List Stmt} (htop : (σ.proc r).todoOf o = s :: t) :
    exec env (σ.proc r).vars t s ≠ none := by
  intro hnone
  rcases exec_eq_none hnone with ⟨n, fd, m, rfl, hn⟩ | ⟨fd, m, rfl, hstr⟩ | ⟨rfl, hcount⟩
  · exact hn (ready_at h ha htop rfl).1
  · exact hstr (ready_at h ha htop rfl)
  · rw [count_of_assertCount h ha htop] at hcount
    cases hcount

/-- A signal that is due has a handler. -/
theorem installed_of_orderly (ha : Agreed σ) {r : Role} {s : Signal}
    (hc : Orderly σ (.signal r s)) : s ∈ (σ.proc r).vars.installed := by
  cases r with
  | backup =>
    cases s with
    | usr1 => exact hc.1
    | usr2 => exact hc.elim
  | src => exact ha.srcInstalled s
  | dst =>
    cases s with
    | usr1 =>
      rcases ha.loaded with ⟨-, hmain⟩ | ⟨hno, -⟩
      · refine (ha.installs .dst).resolve_left ?_
        rw [hmain]
        decide
      · exact absurd hc.1 hno
    | usr2 => exact hc.elim

theorem Agreed.alive_step (ha : Agreed σ) (h : Inv σ) (hc : Change σ σ' r₀ c) (ho : Orderly σ c)
    (hframe : ∀ r, r ≠ r₀ → σ'.proc r = σ.proc r) : ∀ r, (σ'.proc r).alive = true := by
  intro r
  by_cases hr : r = r₀
  · subst hr
    cases hc with
    | quiet _ _ halive _ _ => rw [halive]; exact ha.alive r
    | moves _ _ _ _ _ hlive' _ _ => exact hlive'
    | delivers _ _ _ _ _ hlive' _ _ => exact hlive'
    | fails _ htop hexec _ _ _ => exact absurd hexec (exec_ne_none h ha htop)
    | killed _ hinst _ _ _ => exact absurd (installed_of_orderly ha ho) hinst
  · rw [hframe r hr]; exact ha.alive r

/-- What a step of an orderly run adds to the history. -/
theorem Change.entry (hc : Change σ σ' r₀ c) (ho : Orderly σ c)
    (hlive : (σ'.proc r₀).alive = true) : σ'.log = σ.log ∨
    (∃ s, σ'.log = σ.log ++ [arrived r₀ s] ∧ arrived r₀ s ∉ σ.log) ∨
    ∃ o a, σ'.log = σ.log ++ [⟨r₀, o, a⟩] ∧ a ≠ .delivered ∧ ∀ s, a ≠ .failed s := by
  cases hc with
  | quiet _ _ _ _ hlog => exact Or.inl hlog
  | @moves k ok o s t t' v a _ _ hexec _ _ _ _ hlog =>
    cases a with
    | none => exact Or.inl (by simpa using hlog)
    | some a =>
      refine Or.inr (Or.inr ⟨o, a, hlog, fun hd => ?_, fun x hf => ?_⟩)
      · exact exec_not_delivered hexec (congrArg some hd)
      · exact exec_not_failed hexec x (congrArg some hf)
  | @delivers s _ _ _ _ _ _ _ hlog => exact Or.inr (Or.inl ⟨s, hlog, ho.fresh⟩)
  | fails _ _ _ hdead _ _ => rw [hdead] at hlive; cases hlive
  | killed _ _ hdead _ _ => rw [hdead] at hlive; cases hlive

theorem Change.log_subset (hc : Change σ σ' r₀ c) : σ.log ⊆ σ'.log := by
  rcases hc.log_cases with hlog | ⟨o, a, hlog⟩
  · rw [hlog]; exact fun _ => id
  · rw [hlog]; exact List.subset_append_left _ _

theorem Agreed.noFail_step (ha : Agreed σ) (hc : Change σ σ' r₀ c) (ho : Orderly σ c)
    (hlive : ∀ r, (σ'.proc r).alive = true) : ∀ x ∈ σ'.log, ∀ s, x.action ≠ .failed s := by
  have hadd : ∀ y : Entry, (∀ s, y.action ≠ .failed s) → σ'.log = σ.log ++ [y] →
      ∀ x ∈ σ'.log, ∀ s, x.action ≠ .failed s := by
    intro y hy hlog x hx s
    rw [hlog, List.mem_append, List.mem_singleton] at hx
    rcases hx with hx | rfl
    · exact ha.noFail x hx s
    · exact hy s
  rcases hc.entry ho (hlive r₀) with hlog | ⟨s₀, hlog, -⟩ | ⟨o, a, hlog, -, hnf⟩
  · rw [hlog]; exact ha.noFail
  · exact hadd _ (fun s => by simp [arrived]) hlog
  · exact hadd _ hnf hlog

theorem Agreed.once_step (ha : Agreed σ) (hc : Change σ σ' r₀ c) (ho : Orderly σ c)
    (hlive : ∀ r, (σ'.proc r).alive = true) : ∀ r s, σ'.log.count (arrived r s) ≤ 1 := by
  intro r s
  rcases hc.entry ho (hlive r₀) with hlog | ⟨s₀, hlog, hfresh⟩ | ⟨o, a, hlog, hnd, -⟩
  · rw [hlog]; exact ha.once r s
  · rw [hlog, List.count_append]
    by_cases heq : arrived r₀ s₀ = arrived r s
    · rw [← heq, List.count_eq_zero.mpr hfresh]; simp
    · rw [List.count_singleton, if_neg (by simpa using heq)]; exact ha.once r s
  · show starts r (some s) σ'.log ≤ 1
    rw [hlog, starts_concat_other (Or.inr hnd)]
    exact ha.once r s

theorem Agreed.inTurn_step (ha : Agreed σ) (hc : Change σ σ' r₀ c) (ho : Orderly σ c)
    (hframe : ∀ r, r ≠ r₀ → σ'.proc r = σ.proc r) (hlive : ∀ r, (σ'.proc r).alive = true) :
    arrived .src .usr1 ∈ σ'.log →
      arrived .src .usr2 ∈ σ'.log ∧ (σ'.proc .src).todoOf (some .usr2) = [] := by
  intro harr
  -- if SIGUSR1 had arrived before, only the thread of SIGUSR2 could disturb what was known
  have hold : arrived .src .usr1 ∈ σ.log →
      arrived .src .usr2 ∈ σ'.log ∧ (σ'.proc .src).todoOf (some .usr2) = [] := by
    intro hbefore
    obtain ⟨harr₂, hdone⟩ := ha.inTurn hbefore
    constructor
    · exact hc.log_subset harr₂
    · by_cases hr : .src = r₀
      · subst hr
        cases hc with
        | quiet htodo _ _ _ _ => rw [htodo]; exact hdone
        | @moves k ok o s t t' v a _ htop _ htodo _ _ _ _ =>
          have hne : some .usr2 ≠ o := by
            rintro rfl
            rw [hdone] at htop
            cases htop
          rw [htodo, Function.update_of_ne hne]; exact hdone
        | @delivers s _ _ _ htodo _ _ _ _ =>
          have hne : some .usr2 ≠ some s := by
            intro heq
            cases heq
            exact ho.fresh harr₂
          rw [htodo, Function.update_of_ne hne]; exact hdone
        | fails _ _ _ hdead _ _ => rw [hlive] at hdead; cases hdead
        | killed _ _ hdead _ _ => rw [hlive] at hdead; cases hdead
      · rw [hframe _ hr]; exact hdone
  cases hc with
  | quiet _ _ _ _ hlog => rw [hlog] at harr; exact hold harr
  | @moves k ok o s t t' v a _ _ hexec _ _ _ _ hlog =>
    apply hold
    cases a with
    | none => simpa [hlog] using harr
    | some a =>
      rw [hlog, List.mem_append] at harr
      refine harr.resolve_right fun hx => exec_not_delivered hexec ?_
      simp only [Option.map_some, Option.toList_some, List.mem_singleton, arrived,
        Entry.mk.injEq] at hx
      rw [hx.2.2]
  | @delivers s _ _ _ htodo _ _ _ hlog =>
    rw [hlog, List.mem_append, List.mem_singleton] at harr
    rcases harr with harr | hnew
    · exact hold harr
    · simp only [arrived, Entry.mk.injEq, Option.some.injEq] at hnew
      obtain ⟨rfl, rfl, -⟩ := hnew
      refine ⟨by rw [hlog]; exact List.mem_append_left _ ho.1.1, ?_⟩
      rw [htodo, Function.update_of_ne (by simp), Proc.todoOf, ho.1.2]
      rfl
  | fails _ _ _ hdead _ _ => rw [hlive] at hdead; cases hdead
  | killed _ _ hdead _ _ => rw [hlive] at hdead; cases hdead

theorem Agreed.ready_step (ha : Agreed σ) (h : Inv σ) (hc : Change σ σ' r₀ c) (ho : Orderly σ c)
    (hframe : ∀ r, r ≠ r₀ → σ'.proc r = σ.proc r) (hlive : ∀ r, (σ'.proc r).alive = true) :
    ∀ r, Ready (σ'.proc r).vars.buff ((σ'.proc r).todoOf (readerOf r)) := by
  intro r
  by_cases hr : r = r₀
  · subst hr
    cases hc with
    | quiet htodo hvars _ _ _ => rw [htodo, hvars]; exact ha.ready r
    | @moves k ok o s t t' v a hl htop hexec htodo hvars _ _ _ =>
      have hshape := htop ▸ h.shaped r hl o
      rw [htodo, hvars]
      by_cases hor : readerOf r = o
      · subst hor
        rw [Function.update_self]
        refine exec_ready hshape.cons.2.1 hshape.source_tail hexec (htop ▸ ha.ready r) ho ?_
        rintro fd m rfl hne
        obtain ⟨cur, -, hheld⟩ := h.flow (r, fd)
        have hb := hheld hl
        rw [htop] at hb
        exact ⟨inbox_head h ha htop hne, hb.2⟩
      · have hreads : s.reads = false := by
          cases hs : s.reads with
          | false => rfl
          | true => exact absurd (hshape.cons.2.2.1 hs).symm hor
        rw [Function.update_of_ne hor, (exec_not_reads hreads hexec).1]
        exact ha.ready r
    | @delivers s _ _ _ htodo hvars _ _ _ =>
      rw [htodo, hvars]
      by_cases hor : readerOf r = some s
      · rw [hor, Function.update_self]
        exact ready_of_source fun x hx => (shm_code r (some s) x hx).2.1
      · rw [Function.update_of_ne hor]; exact ha.ready r
    | fails _ _ _ hdead _ _ => rw [hlive] at hdead; cases hdead
    | killed _ _ hdead _ _ => rw [hlive] at hdead; cases hdead
  · rw [hframe r hr]; exact ha.ready r

/-- One more entry, seen through the record of one thread. -/
theorem flatMap_hist_concat {π : Action → List Msg} (hπ : ∀ a, π a ≠ [] → traced a = true)
    (r : Role) (o o' : Option Signal) (a : Action) (log : List Entry) :
    (hist r o (log ++ [⟨r, o', a⟩])).flatMap π
      = (hist r o log).flatMap π ++ if o' = o then π a else [] := by
  by_cases ho : o' = o
  · subst ho
    rw [hist_append, hist_single, List.flatMap_append, if_pos rfl]
    cases ht : traced a with
    | true => simp [ht]
    | false =>
      have hnil : π a = [] := by
        by_contra hne
        rw [hπ a hne] at ht
        cases ht
      simp [ht, hnil]
  · rw [hist_concat_other (Or.inl fun h => ho h.2), if_neg ho, List.append_nil]

theorem Agreed.srcWrites_step (ha : Agreed σ) (h : Inv σ) (h' : Inv σ') (hc : Change σ σ' r₀ c)
    (ho : Orderly σ c) (hlive : ∀ r, (σ'.proc r).alive = true) :
    wroteAt (.src, .connfd) σ'.log
      = (hist .src (some .usr2) σ'.log).flatMap (Action.wroteOn .connfd)
        ++ (hist .src (some .usr1) σ'.log).flatMap (Action.wroteOn .connfd) := by
  have hsame : σ'.log = σ.log → wroteAt (.src, .connfd) σ'.log
      = (hist .src (some .usr2) σ'.log).flatMap (Action.wroteOn .connfd)
        ++ (hist .src (some .usr1) σ'.log).flatMap (Action.wroteOn .connfd) := by
    intro hlog; rw [hlog]; exact ha.srcWrites
  by_cases hr : r₀ = .src
  · subst hr
    cases hc with
    | quiet _ _ _ _ hlog => exact hsame hlog
    | @moves k ok o s t t' v a _ htop _ _ _ _ _ hlog =>
      cases a with
      | none => exact hsame (by simpa using hlog)
      | some a =>
        replace hlog : σ'.log = σ.log ++ [⟨.src, o, a⟩] := hlog
        rw [hlog, wroteAt, seenAt_concat, if_pos rfl,
          flatMap_hist_concat fun _ => traced_of_wroteOn,
          flatMap_hist_concat fun _ => traced_of_wroteOn]
        have hbefore := ha.srcWrites
        rw [wroteAt] at hbefore
        rw [hbefore]
        rcases o with _ | (_ | _)
        · -- main writes nothing
          have hnil : a.wroteOn .connfd = [] := by
            by_contra hne
            have hcode := h'.mem_code (x := ⟨.src, none, a⟩) (by rw [hlog]; simp)
              (traced_of_wroteOn hne)
            simp [shm, Program.code, shmSrc, shmSrcMain, Stmt.future] at hcode
            rcases hcode with rfl | rfl | rfl | rfl <;> exact hne rfl
          simp [hnil]
        · simp [List.append_assoc]
        · -- while the SIGUSR2 handler runs, SIGUSR1 has not arrived
          have habs : arrived .src .usr1 ∉ σ.log := by
            intro harr
            rw [(ha.inTurn harr).2] at htop
            cases htop
          rw [hist_of_absent h habs]
          simp
    | @delivers s _ _ _ _ _ _ _ hlog =>
      rw [hlog, wroteAt, seenAt_concat, hist_concat_other (Or.inr rfl),
        hist_concat_other (Or.inr rfl)]
      simpa [Action.wroteOn, wroteAt] using ha.srcWrites
    | fails _ _ _ hdead _ _ => rw [hlive] at hdead; cases hdead
    | killed _ _ hdead _ _ => rw [hlive] at hdead; cases hdead
  · rcases hc.log_cases with hlog | ⟨o, a, hlog⟩
    · exact hsame hlog
    · rw [hlog, wroteAt, seenAt_concat, if_neg hr, List.append_nil,
        hist_concat_other (Or.inl fun h => hr h.1), hist_concat_other (Or.inl fun h => hr h.1)]
      exact ha.srcWrites

theorem Change.installed (hc : Change σ σ' r₀ c)
    (hframe : ∀ r, r ≠ r₀ → σ'.proc r = σ.proc r) (hlive : ∀ r, (σ'.proc r).alive = true)
    (r : Role) : (σ.proc r).vars.installed ⊆ (σ'.proc r).vars.installed := by
  by_cases hr : r = r₀
  · subst hr
    cases hc with
    | quiet _ hvars _ _ _ => rw [hvars]; exact fun _ => id
    | moves _ _ hexec _ hvars _ _ _ => rw [hvars]; exact exec_installed hexec
    | delivers _ _ _ _ hvars _ _ _ => rw [hvars]; exact fun _ => id
    | fails _ _ _ hdead _ _ => rw [hlive] at hdead; cases hdead
    | killed _ _ hdead _ _ => rw [hlive] at hdead; cases hdead
  · rw [hframe r hr]; exact fun _ => id

/-- What a step does to the main code of a party: nothing, or its first statement. -/
theorem Change.main (hc : Change σ σ' r₀ c) (hframe : ∀ r, r ≠ r₀ → σ'.proc r = σ.proc r)
    (hlive : ∀ r, (σ'.proc r).alive = true) (r : Role) :
    ((σ'.proc r).todoOf none = (σ.proc r).todoOf none ∧
      ∀ a, (⟨r, none, a⟩ : Entry) ∈ σ'.log → (⟨r, none, a⟩ : Entry) ∈ σ.log) ∨
    ∃ env s t v t' a, (σ.proc r).todoOf none = s :: t ∧
      exec env (σ.proc r).vars t s = some (v, t', a) ∧ (σ'.proc r).todoOf none = t' ∧
      (σ'.proc r).vars = v ∧ σ'.log = σ.log ++ (a.map fun a => (⟨r, none, a⟩ : Entry)).toList := by
  by_cases hr : r = r₀
  · subst hr
    cases hc with
    | quiet htodo _ _ _ hlog => exact Or.inl ⟨by rw [htodo], by rw [hlog]; exact fun _ => id⟩
    | @moves k ok o s t t' v a _ htop hexec htodo hvars _ _ hlog =>
      cases o with
      | none =>
        refine Or.inr ⟨_, s, t, v, t', a, htop, hexec, ?_, hvars, hlog⟩
        rw [htodo, Function.update_self]
      | some s' =>
        refine Or.inl ⟨by rw [htodo, Function.update_of_ne (by simp)], fun b hb => ?_⟩
        cases a with
        | none => simpa [hlog] using hb
        | some a => simpa [hlog] using hb
    | delivers _ _ _ htodo _ _ _ hlog =>
      refine Or.inl ⟨by rw [htodo, Function.update_of_ne (by simp)], fun b hb => ?_⟩
      simpa [hlog] using hb
    | fails _ _ _ hdead _ _ => rw [hlive] at hdead; cases hdead
    | killed _ _ hdead _ _ => rw [hlive] at hdead; cases hdead
  · refine Or.inl ⟨by rw [hframe r hr], fun b hb => ?_⟩
    rcases hc.log_cases with hlog | ⟨o, a, hlog⟩
    · rwa [hlog] at hb
    · simpa [hlog, hr] using hb

theorem Agreed.installs_step (ha : Agreed σ) (h : Inv σ) (hc : Change σ σ' r₀ c)
    (hframe : ∀ r, r ≠ r₀ → σ'.proc r = σ.proc r) (hlive : ∀ r, (σ'.proc r).alive = true)
    (r : Role) :
    .signal .usr1 ∈ (σ'.proc r).todoOf none ∨ .usr1 ∈ (σ'.proc r).vars.installed := by
  rcases ha.installs r with hmem | hinst
  · rcases hc.main hframe hlive r with ⟨hsame, -⟩ | ⟨env, s, t, v, t', a, htop, hexec, ht', hv, -⟩
    · rw [hsame]; exact Or.inl hmem
    · rw [htop] at hmem
      rcases List.mem_cons.mp hmem with rfl | hmem
      · cases hexec
        exact Or.inr (by rw [hv]; exact List.mem_cons_self)
      · have hplain := (htop ▸ h.shaped r (ha.alive r) none).cons.2.1
        exact Or.inl (ht' ▸ exec_tail hplain hexec hmem)
  · exact Or.inr (hc.installed hframe hlive r hinst)

/-- The retry loop of `dst` ends with the attempt that succeeds. -/
theorem Agreed.loaded_step (ha : Agreed σ) (h : Inv σ) (hc : Change σ σ' r₀ c)
    (hframe : ∀ r, r ≠ r₀ → σ'.proc r = σ.proc r) (hlive : ∀ r, (σ'.proc r).alive = true) :
    ((⟨.dst, none, .attempted .migrateIncomingShm true⟩ : Entry) ∈ σ'.log ∧
        (σ'.proc .dst).todoOf none = [.idle]) ∨
      ((⟨.dst, none, .attempted .migrateIncomingShm true⟩ : Entry) ∉ σ'.log ∧
        .retry .migrateIncomingShm ∈ (σ'.proc .dst).todoOf none) := by
  rcases hc.main hframe hlive .dst with ⟨hsame, hold⟩ |
    ⟨env, s, t, v, t', a, htop, hexec, ht', -, hlog⟩
  · rw [hsame]
    rcases ha.loaded with ⟨hdone, hmain⟩ | ⟨hno, hmem⟩
    · exact Or.inl ⟨hc.log_subset hdone, hmain⟩
    · exact Or.inr ⟨fun hx => hno (hold _ hx), hmem⟩
  · rcases ha.loaded with ⟨hdone, hmain⟩ | ⟨hno, hmem⟩
    · -- the idle loop
      rw [hmain] at htop
      obtain ⟨rfl, rfl⟩ := List.cons.inj htop
      cases hexec
      exact Or.inl ⟨hc.log_subset hdone, ht'⟩
    · have hshape := htop ▸ h.shaped .dst (ha.alive .dst) none
      rw [htop] at hmem
      rw [ht', hlog]
      rcases List.mem_cons.mp hmem with rfl | hbehind
      · -- an attempt: the last one, or one more to come
        obtain ⟨-, rfl⟩ := retry_suffix (hshape.cons.2.2.2 rfl)
        simp only [exec, Option.some.injEq, Prod.mk.injEq] at hexec
        obtain ⟨-, rfl, rfl⟩ := hexec
        cases env.ok with
        | true => exact Or.inl ⟨by simp, rfl⟩
        | false => exact Or.inr ⟨by simpa using hno, by simp⟩
      · refine Or.inr ⟨fun hx => ?_, exec_tail hshape.cons.2.1 hexec hbehind⟩
        rcases List.mem_append.mp hx with hx | hx
        · exact hno hx
        · cases a with
          | none => cases hx
          | some a =>
            simp only [Option.map_some, Option.toList_some, List.mem_singleton,
              Entry.mk.injEq, true_and] at hx
            subst hx
            obtain rfl := exec_attempted hexec
            obtain ⟨-, rfl⟩ := retry_suffix (hshape.cons.2.2.2 rfl)
            exact absurd hbehind (by decide)

end Step

/-- **Every state of an orderly run satisfies the invariant.** -/
theorem Agreed.of_reach {σ : Net} (h : Reach Net.step Orderly Net.start σ) : Agreed σ := by
  refine h.invariant Agreed Agreed.init fun σ c hr ha ho => ?_
  have hinv := Inv.of_reach hr
  have hinv' := Inv.of_reach (Reach.next hr ho)
  obtain ⟨-, hc⟩ := Net.step_change hinv.wf c
  have hframe : ∀ r, r ≠ c.role → (σ.step c).proc r = σ.proc r := fun r hr =>
    σ.step_proc_of_ne c hr
  have hlive := ha.alive_step hinv hc ho hframe
  exact {
    alive := hlive
    noFail := ha.noFail_step hc ho hlive
    once := ha.once_step hc ho hlive
    inTurn := ha.inTurn_step hc ho hframe hlive
    ready := ha.ready_step hinv hc ho hframe hlive
    srcWrites := ha.srcWrites_step hinv hinv' hc ho hlive
    installs := ha.installs_step hinv hc hframe hlive
    srcInstalled := fun s => hc.installed hframe hlive .src (ha.srcInstalled s)
    loaded := ha.loaded_step hinv hc hframe hlive }

end QemuStudy.Controller
