/-
  The two levels of the shared-memory mode.

  `Controller.Net` is the protocol of the three parties from the moment they are connected.
  `Deployment.machine` is the three processes from `main` on, with sockets, addresses, failing
  calls, printed texts and a clock.  Every run of the processes in shared-memory mode is a run of
  the protocol (`deployment_refines`), if the addresses lead to the right parties and a signal
  reaches a party only when its connections are made.  The counterpart has the same bytes in its
  streams, the same globals, and its history is the history of the processes, read as actions of the
  protocol.  So what `Controller` proves about the protocol is true of the processes.

  1. `rest` reads the remaining instructions of a thread as statements of the protocol.  What is one
     call there is several instructions here, so the first of them may stand inside a call
     (`begun`).  The code of a process behind its set-up is the program of its party (`rest_code`).
  2. `exec_refines`: an instruction is one statement, or two (`write_to_file` evaluates its argument
     first).
  3. `Matches` relates a process to its counterpart, stack by stack.  While the process sets up its
     sockets, the counterpart stands at the beginning of its program (`afterSetup`).  A process that
     has ended has a counterpart that is not scheduled any more.
-/
import QemuStudy.Controller.Net
import QemuStudy.Deployment.Wiring

namespace QemuStudy.Deployment

open QemuStudy.Controller (Role Signal Fd Msg End otherEnd Stmt Action transmit)
open QemuStudy.Threads
open QemuStudy.Runs

/-! ## Instructions as statements -/

/-- The commands that the protocol knows. -/
def Command.known : Command → Option Controller.Command
  | .dstBoot => some .dstBoot
  | .shmMigrate => some .shmMigrate
  | .shmMigrateSwitchover => some .shmMigrateSwitchover
  | .migrateIncomingShm => some .migrateIncomingShm
  | .quitSrc => some .quitSrc
  | _ => none

/-- The descriptors that a party communicates on. -/
def sockets : Role → List Fd
  | .backup => [.srcfd, .dstfd]
  | .src | .dst => [.connfd]

/-- The descriptor on which a party waits for a message. -/
def sourceOf : Role → Msg → Fd
  | .backup, .switchoverFinished => .dstfd
  | .backup, _ => .srcfd
  | .src, _ | .dst, _ => .connfd

/-- The statement that an instruction begins. -/
def Instr.stmts (r : Role) : Instr → List Stmt
  | .print _ | .fflush | .pidFile => [.stdio]
  | .sleep => [.sleep]
  | .clock _ => [.clock]
  | .signal s => [.signal s]
  | .system cmd | .spawn cmd => cmd.known.toList.map .execute
  | .retry cmd => cmd.known.toList.map .retry
  | .write fd (.text m) => [.writeToFile fd (.text m)]
  | .memset m => [.receive (sourceOf r m) m]
  | .assertCount => [.assertCount]
  | .setCount => [.setCount]
  | .idle => [.idle]
  | _ => []

/-- The rest of a call that has begun; `n` is `read_len`. -/
def begun (r : Role) (n : Nat) : List Instr → List Stmt
  | .read fd m :: _ => [.read fd m]
  | .assertLen m :: _ => [.assertLen n (sourceOf r m) m]
  | .assertStrcmp m :: _ => [.assertStrcmp (sourceOf r m) m]
  | _ => []

/-- Remaining instructions as statements. -/
def rest (r : Role) (n : Nat) (t : List Instr) : List Stmt :=
  begun r n t ++ t.flatMap (Instr.stmts r)

/-- What an instruction that is done contributes to the history of the protocol. -/
def Instr.actions (r : Role) (d : Data) : Instr → List Action
  | .write fd (.text m) => [.evaluated, .wrote fd m]
  | .read fd _ => [.received fd d.bytes]
  | .assertStrcmp m => [.matched (sourceOf r m) m]
  | .assertCount => [.passed]
  | .setCount => [.countSet]
  | .system cmd | .spawn cmd => cmd.known.toList.map .issued
  | .retry cmd => cmd.known.toList.map (.attempted · true)
  | _ => []

/-- An entry of the history as entries of the protocol's history. -/
def actionsOf : Entry → List Controller.Entry
  | ⟨r, o, .did i d⟩ => (i.actions r d).map fun a => ⟨r, o, a⟩
  | ⟨r, o, .started⟩ => [⟨r, o, .delivered⟩]
  | _ => []

/-! ## Set-up -/

/-- The socket calls. -/
def Instr.setsUp : Instr → Bool
  | .socket | .bind _ _ | .listen | .accept | .connect _ _ _ => true
  | _ => false

/-- No socket call is left. -/
def connected (t : List Instr) : Bool := !t.any Instr.setsUp

/-- The code behind the last socket call. -/
def afterSetup : List Instr → List Instr
  | [] => []
  | i :: t => if connected (i :: t) then i :: t else afterSetup t

def Instr.installs : Instr → List Signal
  | .signal s => [s]
  | _ => []

/-- The handlers that are going to be installed before the last socket call. -/
def pending : List Instr → List Signal
  | [] => []
  | i :: t => if connected (i :: t) then [] else i.installs ++ pending t

/-- An instruction of the set-up: the protocol does not notice it. -/
def Instr.prepares : Instr → Bool
  | .print _ | .fflush | .pidFile | .signal _ => true
  | .system cmd | .spawn cmd => cmd.known.isNone
  | i => i.setsUp

/-- Does the instruction stand before `t` as the calls of the source have it? -/
def Instr.fits (r : Role) (t : List Instr) : Instr → Bool
  | .memset m => t.head? = some (.read (sourceOf r m) m)
  | .read fd m => fd = sourceOf r m ∧ t.head? = some (.assertLen m)
  | .assertLen m => t.head? = some (.assertStrcmp m)
  | .write fd (.text _) => fd ∈ sockets r ∧ begun r 0 t = []
  | .system cmd | .spawn cmd | .retry cmd => cmd.known.isSome ∧ begun r 0 t = []
  | .print _ | .fflush | .pidFile | .sleep | .clock _ | .signal _ | .assertStrcmp _ | .assertCount
  | .setCount | .idle => begun r 0 t = []
  | _ => false

/-- Set-up first, then calls as the source has them. -/
def fits (r : Role) : List Instr → Bool
  | [] => true
  | i :: t => (if connected (i :: t) then i.fits r t else i.prepares) && fits r t

/-- The code of every party is of this form. -/
theorem fits_code (r : Role) (o : Option Signal) : fits r (code .shm r o) = true := by
  cases r <;> rcases o with _ | _ | _ <;> decide

theorem connected_handler (r : Role) (s : Signal) : connected (code .shm r (some s)) = true := by
  cases r <;> cases s <;> decide

/-- **The programs of the protocol are the code of the processes** behind their set-up. -/
theorem rest_code (r : Role) (o : Option Signal) :
    rest r 0 (afterSetup (code .shm r o)) = (Controller.shm r).code o := by
  cases r <;> rcases o with _ | _ | _ <;> decide

/-- The handlers that the protocol takes for installed are those of the set-up. -/
theorem pending_code (r : Role) (s : Signal) :
    s ∈ (Controller.shm r).installed ↔ s ∈ pending (code .shm r none) := by
  cases r <;> cases s <;> decide

/-! ## Statements one after the other -/

/-- The thread on top of party `r` executes statements: code, globals and streams before and after,
    and the actions that are recorded. -/
inductive Execs (r : Role) (k : Nat) (ok : Bool) : List Stmt → Controller.Vars →
    (End → List UInt8) → List Action → List Stmt → Controller.Vars → (End → List UInt8) → Prop
  | nothing {t : List Stmt} {u : Controller.Vars} {b : End → List UInt8} :
      Execs r k ok t u b [] t u b
  | next {s : Stmt} {t t' t'' : List Stmt} {u u' u'' : Controller.Vars} {b b'' : End → List UInt8}
      {a : Option Action} {as : List Action}
      (hexec : Controller.exec ⟨k, ok, fun fd => b (r, fd)⟩ u t s = some (u', t', a))
      (hmore : Execs r k ok t' u' (transmit r a b) as t'' u'' b'') :
      Execs r k ok (s :: t) u b (a.toList ++ as) t'' u'' b''

/-- The thread on top has come to the code `t`, with globals `u`. -/
def resume (q : Controller.Proc) (t : List Stmt) (u : Controller.Vars) : Controller.Proc :=
  { q.setTop t with vars := u }

theorem resume_top (q : Controller.Proc) (t : List Stmt) (u : Controller.Vars) :
    (resume q t u).top = (q.top.1, t) := by
  obtain ⟨main, handlers, vars, alive⟩ := q
  rcases handlers with _ | ⟨h, hs⟩ <;> rfl

theorem resume_resume (q : Controller.Proc) (t t' : List Stmt) (u u' : Controller.Vars) :
    resume (resume q t u) t' u' = resume q t' u' := by
  obtain ⟨main, handlers, vars, alive⟩ := q
  rcases handlers with _ | ⟨h, hs⟩ <;> rfl

theorem resume_self (q : Controller.Proc) : resume q q.top.2 q.vars = q := by
  obtain ⟨main, handlers, vars, alive⟩ := q
  rcases handlers with _ | ⟨h, hs⟩ <;> rfl

theorem resume_alive (q : Controller.Proc) (t : List Stmt) (u : Controller.Vars) :
    (resume q t u).alive = q.alive := by
  obtain ⟨main, handlers, vars, alive⟩ := q
  rcases handlers with _ | ⟨h, hs⟩ <;> rfl

/-- What a thread can execute, the protocol can. -/
theorem Execs.reach {r : Role} {k : Nat} {ok : Bool} {t t' : List Stmt} {u u' : Controller.Vars}
    {b b' : End → List UInt8} {as : List Action} (h : Execs r k ok t u b as t' u' b') :
    ∀ {τ : Controller.Net}, (τ.proc r).alive = true → (τ.proc r).top.2 = t →
      (τ.proc r).vars = u → τ.inbox = b →
      Reach Controller.Net.step Controller.Anything τ
        ⟨Function.update τ.proc r (resume (τ.proc r) t' u'), b',
          τ.log ++ as.map fun a => ⟨r, (τ.proc r).top.1, a⟩⟩ := by
  induction h with
  | nothing =>
    rintro τ - rfl rfl rfl
    rw [resume_self, Function.update_eq_self, List.map_nil, List.append_nil]
    exact .start
  | @next s t t' t'' u u' u'' b b'' a as hexec _ ih =>
    intro τ halive htop hvars hinbox
    subst hvars hinbox
    have hrun : (τ.proc r).run (τ.env r k ok)
        = (resume (τ.proc r) t' u', a.map fun a => ⟨(τ.proc r).top.1, a⟩) := by
      rw [Controller.Proc.run, if_pos halive, htop]
      simp only [Controller.Net.env, hexec]
      rfl
    have hstep : τ.step (.run r k ok)
        = ⟨Function.update τ.proc r (resume (τ.proc r) t' u'), transmit r a τ.inbox,
          τ.log ++ a.toList.map fun a => ⟨r, (τ.proc r).top.1, a⟩⟩ := by
      rw [Controller.Net.step, hrun, Controller.Net.after]
      cases a <;> rfl
    have hproc : (τ.step (.run r k ok)).proc r = resume (τ.proc r) t' u' := by
      rw [hstep]
      exact Function.update_self _ _ _
    have hmore := @ih (τ.step (.run r k ok)) (by rw [hproc, resume_alive, halive])
      (by rw [hproc, resume_top]) (by rw [hproc]; rfl) (by rw [hstep])
    rw [hproc, resume_top, resume_resume, hstep, Function.update_idem, List.append_assoc,
      ← List.map_append] at hmore
    have hfirst : Reach Controller.Net.step Controller.Anything τ (τ.step (.run r k ok)) :=
      .next .start trivial
    rw [hstep] at hfirst
    exact hfirst.trans hmore

/-! ## One instruction -/

/-- The globals that both levels have. -/
structure Agree (v : Vars) (u : Controller.Vars) : Prop where
  count : u.count = v.count
  buff : u.buff = v.buff
  installed : ∀ s, s ∈ u.installed ↔ s ∈ v.installed

theorem transmit_none (r : Role) (b : End → List UInt8) : transmit r none b = b :=
  Controller.transmit_of_still (fun _ => rfl) (fun _ => rfl) b

/-- What a write does to the streams. -/
theorem transmit_wrote (r : Role) (fd : Fd) (m : Msg) (b : End → List UInt8) :
    transmit r (some (.wrote fd m)) b
      = Function.update b (otherEnd (r, fd)) (b (otherEnd (r, fd)) ++ m.bytes) := by
  funext e
  by_cases he : e = otherEnd (r, fd)
  · subst he
    simp [transmit, otherEnd_otherEnd, Action.takenOn, Action.wroteOn]
  · have hother : ¬ ((otherEnd e).1 = r ∧ fd = (otherEnd e).2) := by
      rintro ⟨hr, hfd⟩
      refine he ?_
      rw [← otherEnd_otherEnd e, hfd, ← hr]
    rw [Function.update_of_ne he, transmit]
    simp only [Option.elim_some, Action.takenOn, List.drop_zero, ite_self, Option.toList_some,
      List.flatMap_singleton, Action.wroteOn]
    by_cases hr : (otherEnd e).1 = r
    · rw [if_pos hr, if_neg fun hfd => hother ⟨hr, hfd⟩, Controller.wire_nil, List.append_nil]
    · rw [if_neg hr, List.append_nil]

/-- What a read does to them. -/
theorem transmit_received (r : Role) (fd : Fd) (chunk : List UInt8) (b : End → List UInt8) :
    transmit r (some (.received fd chunk)) b
      = Function.update b (r, fd) ((b (r, fd)).drop chunk.length) := by
  funext e
  obtain ⟨r', fd'⟩ := e
  by_cases he : (r', fd') = (r, fd)
  · cases he
    simp [transmit, Action.takenOn, Action.wroteOn]
  · rw [Function.update_of_ne he, transmit]
    by_cases hr : r' = r
    · subst hr
      have hfd : fd ≠ fd' := fun heq => he (heq ▸ rfl)
      simp [Action.takenOn, Action.wroteOn, hfd]
    · simp [Action.wroteOn, hr]

/-- Outside a call `read_len` does not matter. -/
theorem begun_eq_nil {r : Role} {t : List Instr} (h : begun r 0 t = []) (n : Nat) :
    rest r n t = t.flatMap (Instr.stmts r) := by
  have hnil : begun r n t = [] := by
    cases t with
    | nil => rfl
    | cons i t => cases i <;> first | rfl | cases h
  rw [rest, hnil, List.nil_append]

/-- One statement that is not recorded. -/
theorem Execs.silent {r : Role} {k : Nat} {ok : Bool} {s : Stmt} {t t' : List Stmt}
    {u u' : Controller.Vars} {b : End → List UInt8}
    (hexec : Controller.exec ⟨k, ok, fun fd => b (r, fd)⟩ u t s = some (u', t', none)) :
    Execs r k ok (s :: t) u b [] t' u' b := by
  have hnext := Execs.next hexec .nothing
  rw [transmit_none] at hnext
  exact hnext

/-- One statement that is. -/
theorem Execs.acts {r : Role} {k : Nat} {ok : Bool} {s : Stmt} {t t' : List Stmt}
    {u u' : Controller.Vars} {b b' : End → List UInt8} {a : Action}
    (hexec : Controller.exec ⟨k, ok, fun fd => b (r, fd)⟩ u t s = some (u', t', some a))
    (hb : transmit r (some a) b = b') : Execs r k ok (s :: t) u b [a] t' u' b' := by
  subst hb
  exact .next hexec .nothing

section Exec

variable {st : Settings} {r : Role} {c : Env} {t : List Instr} {v v' : Vars} {l l' : Locals}
  {w w' : World} {d : Data} {u : Controller.Vars}

/-- **One instruction** that is done is one statement or two. -/
theorem exec_refines {i : Instr} (hfits : i.fits r t = true) (hagree : Agree v u)
    (hsend : ∀ fd ∈ sockets r, v.fds fd = true ∧ w.other (r, fd) = some (otherEnd (r, fd)))
    (hexec : exec st r c i v l w = .done v' l' w' d) :
    ∃ u', Agree v' u' ∧ Execs r c.k c.ok (rest r l.readLen (i :: t)) u w.inbox (i.actions r d)
      (rest r l'.readLen t) u' w'.inbox := by
  have hstill : ∀ {a : Action}, (∀ fd, a.wroteOn fd = []) → (∀ fd, a.takenOn fd = 0) →
      transmit r (some a) w.inbox = w.inbox := fun hw ht =>
    Controller.transmit_of_still (fun fd => by simp [hw fd]) (fun fd => by simp [ht fd]) _
  -- the code that follows a statement which is no call
  have hrest : begun r 0 t = [] → ∀ n, rest r n t = t.flatMap (Instr.stmts r) := begun_eq_nil
  cases i with
  | print fmt | fflush | pidFile | sleep =>
    cases hexec
    refine ⟨u, hagree, ?_⟩
    rw [hrest (of_decide_eq_true hfits)]
    exact Execs.silent rfl
  | clock x =>
    cases hexec
    refine ⟨u, ⟨hagree.count, hagree.buff, hagree.installed⟩, ?_⟩
    rw [hrest (of_decide_eq_true hfits)]
    exact Execs.silent rfl
  | signal s =>
    simp only [exec] at hexec
    split at hexec <;> cases hexec
    refine ⟨{ u with installed := s :: u.installed },
      ⟨hagree.count, hagree.buff, fun s' => ?_⟩, ?_⟩
    · rw [List.mem_cons, List.mem_cons, hagree.installed]
    · rw [hrest (of_decide_eq_true hfits)]
      exact Execs.silent rfl
  | system cmd | spawn cmd =>
    obtain ⟨hknown, hbegun⟩ := of_decide_eq_true hfits
    obtain ⟨cmd', hcmd⟩ := Option.isSome_iff_exists.mp hknown
    cases exec_effect hexec with
    | plain _ =>
      refine ⟨u, hagree, ?_⟩
      rw [hrest hbegun, rest, List.flatMap_cons, Instr.stmts, Instr.actions, hcmd]
      exact Execs.acts rfl (hstill (fun _ => rfl) fun _ => rfl)
  | retry cmd =>
    obtain ⟨hknown, hbegun⟩ := of_decide_eq_true hfits
    obtain ⟨cmd', hcmd⟩ := Option.isSome_iff_exists.mp hknown
    simp only [exec] at hexec
    split at hexec <;> cases hexec
    rename_i hok
    refine ⟨u, hagree, ?_⟩
    rw [hrest hbegun, rest, List.flatMap_cons, Instr.stmts, Instr.actions, hcmd]
    exact Execs.acts (by simp [Controller.exec, hok]) (hstill (fun _ => rfl) fun _ => rfl)
  | write fd arg =>
    cases arg with
    | chosen => cases hfits
    | text m =>
      obtain ⟨hfd, hbegun⟩ := of_decide_eq_true hfits
      obtain ⟨hassigned, hother⟩ := hsend fd hfd
      simp only [exec] at hexec
      split at hexec
      · cases hexec
      · cases hexec
        refine ⟨u, hagree, ?_⟩
        rw [hrest hbegun, World.send, hother]
        exact .next (a := some .evaluated) rfl (by
          rw [hstill (fun _ => rfl) fun _ => rfl]
          exact Execs.acts rfl (transmit_wrote r fd m w.inbox))
  | memset m =>
    have hhead : t.head? = some (.read (sourceOf r m) m) := of_decide_eq_true hfits
    obtain ⟨t, rfl⟩ := List.head?_eq_some_iff.mp hhead
    cases hexec
    refine ⟨{ u with buff := Controller.memset (m.sizeof + 1) u.buff },
      ⟨hagree.count, by rw [hagree.buff], hagree.installed⟩, ?_⟩
    exact Execs.silent rfl
  | read fd m =>
    obtain ⟨rfl, hhead⟩ := of_decide_eq_true hfits
    obtain ⟨t, rfl⟩ := List.head?_eq_some_iff.mp hhead
    simp only [exec] at hexec
    split at hexec
    · cases hexec
    · split at hexec <;> cases hexec
      rename_i hne
      refine ⟨{ u with buff := Controller.store (Controller.readSome c.k (m.sizeof - 1)
          (w.inbox (r, sourceOf r m))) u.buff },
        ⟨hagree.count, by rw [hagree.buff], hagree.installed⟩, ?_⟩
      exact Execs.acts (by simp only [Controller.exec, if_neg hne]; rfl)
        (transmit_received r _ _ w.inbox)
  | assertLen m =>
    have hhead : t.head? = some (.assertStrcmp m) := of_decide_eq_true hfits
    obtain ⟨t, rfl⟩ := List.head?_eq_some_iff.mp hhead
    simp only [exec] at hexec
    split at hexec <;> cases hexec
    rename_i hlen
    exact ⟨u, hagree, Execs.silent (by simp only [Controller.exec, if_pos hlen]; rfl)⟩
  | assertStrcmp m =>
    simp only [exec] at hexec
    split at hexec <;> cases hexec
    rename_i hcstr
    refine ⟨u, hagree, ?_⟩
    rw [hrest (of_decide_eq_true hfits)]
    exact Execs.acts (by simp only [Controller.exec, hagree.buff, if_pos hcstr]; rfl)
      (hstill (fun _ => rfl) fun _ => rfl)
  | assertCount =>
    simp only [exec] at hexec
    split at hexec <;> cases hexec
    rename_i hcount
    refine ⟨u, hagree, ?_⟩
    rw [hrest (of_decide_eq_true hfits)]
    exact Execs.acts (by simp only [Controller.exec, hagree.count, if_pos hcount]; rfl)
      (hstill (fun _ => rfl) fun _ => rfl)
  | setCount =>
    cases hexec
    refine ⟨{ u with count := true }, ⟨rfl, hagree.buff, hagree.installed⟩, ?_⟩
    rw [hrest (of_decide_eq_true hfits)]
    exact Execs.acts rfl (hstill (fun _ => rfl) fun _ => rfl)
  | _ => first | cases hfits | cases hexec

/-- Behind the set-up no descriptor is assigned. -/
theorem fds_of_fits {i : Instr} (hfits : i.fits r t = true)
    (hexec : exec st r c i v l w = .done v' l' w' d) : v'.fds = v.fds := by
  cases exec_effect hexec with
  | accept _ => cases hfits
  | connect _ _ _ _ _ _ => cases hfits
  | _ => rfl

end Exec

/-! ## Processes -/

/-- A handler that is active. -/
structure Active where
  sig : Signal
  todo : List Instr
  loc : Locals

def Active.frame (a : Active) : Frame Signal Instr Locals := ⟨some a.sig, a.todo, a.loc⟩

def Active.handler (r : Role) (a : Active) : Controller.Handler :=
  ⟨a.sig, rest r a.loc.readLen a.todo⟩

/-- **A process and its counterpart.**  Both have the same handlers on their stacks, none of them
    before the connections are made; the counterpart has the code of main behind the set-up, and the
    handlers that are going to be installed until then. -/
inductive Matches (r : Role) : Threads.Proc Signal Instr Vars Locals → Controller.Proc → Prop
  | intro (hs : List Active) {t : List Instr} {l : Locals} {v : Vars} {u : Controller.Vars}
      (hfits : fits r t = true) (hready : hs ≠ [] → connected t = true)
      (hactive : ∀ a ∈ hs, fits r a.todo = true ∧ connected a.todo = true)
      (hcount : u.count = v.count) (hbuff : u.buff = v.buff)
      (hinstalled : ∀ s, s ∈ u.installed ↔ s ∈ v.installed ∨ s ∈ pending t)
      (hfds : ∀ fd ∈ sockets r, v.fds fd = true ∨ ∃ i ∈ t, i.assigns fd = true) :
      Matches r ⟨hs.map Active.frame ++ [⟨none, t, l⟩], v, true⟩
        ⟨rest r l.readLen (afterSetup t), hs.map (Active.handler r), u, true⟩

theorem afterSetup_of_connected {t : List Instr} (h : connected t = true) : afterSetup t = t := by
  cases t with
  | nil => rfl
  | cons i t => rw [afterSetup, if_pos h]

theorem pending_of_connected {t : List Instr} (h : connected t = true) : pending t = [] := by
  cases t with
  | nil => rfl
  | cons i t => rw [pending, if_pos h]

theorem connected_tail {i : Instr} {t : List Instr} (h : connected (i :: t) = true) :
    connected t = true := by
  simp only [connected, List.any_cons, Bool.not_or, Bool.and_eq_true] at h
  exact h.2

/-- Behind the set-up nothing assigns a descriptor. -/
theorem not_assigns_of_connected {t : List Instr} (h : connected t = true) {i : Instr} (hi : i ∈ t)
    {fd : Fd} : i.assigns fd = false := by
  have hno : i.setsUp = false := by
    simp only [connected, Bool.not_eq_true', List.any_eq_false] at h
    simpa using h i hi
  cases i <;> first | rfl | cases hno

theorem fits_cons {r : Role} {i : Instr} {t : List Instr} (h : fits r (i :: t) = true)
    (hc : connected (i :: t) = true) : i.fits r t = true ∧ fits r t = true := by
  rw [fits, if_pos hc, Bool.and_eq_true] at h
  exact h

/-- Behind the set-up the globals agree. -/
theorem Matches.of_agree {r : Role} (hs : List Active) {t : List Instr} {l : Locals} {v : Vars}
    {u : Controller.Vars} (hfits : fits r t = true) (hconnected : connected t = true)
    (hactive : ∀ a ∈ hs, fits r a.todo = true ∧ connected a.todo = true) (hagree : Agree v u)
    (hfds : ∀ fd ∈ sockets r, v.fds fd = true) :
    Matches r ⟨hs.map Active.frame ++ [⟨none, t, l⟩], v, true⟩
      ⟨rest r l.readLen t, hs.map (Active.handler r), u, true⟩ := by
  have hinstalled : ∀ s, s ∈ u.installed ↔ s ∈ v.installed ∨ s ∈ pending t := by
    intro s
    rw [hagree.installed, pending_of_connected hconnected]
    simp
  have hm := Matches.intro hs (l := l) hfits (fun _ => hconnected) hactive hagree.count hagree.buff
    hinstalled fun fd hfd => Or.inl (hfds fd hfd)
  rw [afterSetup_of_connected hconnected] at hm
  exact hm

section Prepare

variable {st : Settings} {r : Role} {c : Env} {i : Instr} {t : List Instr} {v v' : Vars}
  {l l' : Locals} {w w' : World} {d : Data}

/-- Set-up is not noticed by the protocol. -/
theorem prepare_quiet (hprep : i.prepares = true) (hexec : exec st r c i v l w = .done v' l' w' d) :
    w'.inbox = w.inbox ∧ i.actions r d = [] ∧ l' = l := by
  cases i with
  | system cmd | spawn cmd =>
    have hnone : cmd.known = none := Option.isNone_iff_eq_none.mp hprep
    cases exec_effect hexec with
    | plain _ => exact ⟨rfl, by rw [Instr.actions, hnone]; rfl, rfl⟩
  | _ =>
    first
    | (cases exec_effect hexec <;> exact ⟨rfl, rfl, rfl⟩)
    | cases hprep

/-- It changes no globals of the protocol but the installed handlers. -/
theorem prepare_vars (hprep : i.prepares = true) (hexec : exec st r c i v l w = .done v' l' w' d) :
    v'.count = v.count ∧ v'.buff = v.buff ∧ v'.installed = i.installs ++ v.installed := by
  cases i with
  | signal s =>
    cases exec_effect hexec with
    | plain hp => cases hp
    | signal _ => exact ⟨rfl, rfl, rfl⟩
  | _ =>
    first
    | (cases exec_effect hexec <;> exact ⟨rfl, rfl, rfl⟩)
    | cases hprep

/-- A process that sets up its sockets still matches the beginning of its program. -/
theorem Matches.prepare {u : Controller.Vars} (hnot : connected (i :: t) ≠ true)
    (hfits : fits r (i :: t) = true) (hexec : exec st r c i v l w = .done v' l' w' d)
    (hcount : u.count = v.count) (hbuff : u.buff = v.buff)
    (hinstalled : ∀ s, s ∈ u.installed ↔ s ∈ v.installed ∨ s ∈ pending (i :: t))
    (hfds : ∀ fd ∈ sockets r, v.fds fd = true ∨ ∃ j ∈ i :: t, j.assigns fd = true) :
    Matches r ⟨[⟨none, t, l'⟩], v', true⟩
      ⟨rest r l.readLen (afterSetup (i :: t)), [], u, true⟩ := by
  rw [fits, if_neg hnot, Bool.and_eq_true] at hfits
  obtain ⟨-, -, rfl⟩ := prepare_quiet hfits.1 hexec
  obtain ⟨hcount', hbuff', hinstalled'⟩ := prepare_vars hfits.1 hexec
  rw [afterSetup, if_neg hnot]
  refine Matches.intro [] hfits.2 (fun h => absurd rfl h) (fun _ h => absurd h List.not_mem_nil)
    (hcount.trans hcount'.symm) (hbuff.trans hbuff'.symm) (fun s => ?_) fun fd hfd => ?_
  · rw [hinstalled, pending, if_neg hnot, hinstalled', List.mem_append, List.mem_append]
    tauto
  · rcases hfds fd hfd with hset | ⟨j, hj, hassigns⟩
    · exact Or.inl ((exec_effect hexec).fds_mono hset)
    · rcases List.mem_cons.mp hj with rfl | hj
      · exact Or.inl ((exec_effect hexec).fds_of_assigns hassigns)
      · exact Or.inr ⟨j, hj, hassigns⟩

end Prepare

/-! ## Steps -/

section Steps

variable {st : Role → Settings} {r : Role} {c : Env} {w : World}
  {p : Threads.Proc Signal Instr Vars Locals} {q : Controller.Proc}

/-- The counterpart `q` of party `r` can become `q'`, with actions `es` and streams `b`. -/
def Follows (r : Role) (q q' : Controller.Proc) (b b' : End → List UInt8)
    (es : List Controller.Entry) : Prop :=
  ∀ τ : Controller.Net, τ.proc r = q → τ.inbox = b →
    Reach Controller.Net.step Controller.Anything τ
      ⟨Function.update τ.proc r q', b', τ.log ++ es⟩

/-- It may also do nothing. -/
theorem Follows.stays (r : Role) (q : Controller.Proc) (b : End → List UInt8) :
    Follows r q q b b [] := by
  rintro τ rfl rfl
  rw [Function.update_eq_self, List.append_nil]
  exact .start

/-- A handler at its end returns. -/
theorem Follows.returns {h : Controller.Handler} {hs : List Controller.Handler} {main : List Stmt}
    {u : Controller.Vars} (hend : h.todo = []) (b : End → List UInt8) :
    Follows r ⟨main, h :: hs, u, true⟩ ⟨main, hs, u, true⟩ b b [] := by
  rintro τ hproc rfl
  have hrun : (τ.proc r).run (τ.env r 0 true) = (⟨main, hs, u, true⟩, none) := by
    rw [hproc, Controller.Proc.run, if_pos rfl]
    simp only [Controller.Proc.top, hend, List.tail_cons]
  have hstep : τ.step (.run r 0 true)
      = ⟨Function.update τ.proc r ⟨main, hs, u, true⟩, τ.inbox, τ.log ++ []⟩ := by
    rw [Controller.Net.step, hrun, Controller.Net.after]
    simp only [Option.map_none, transmit_none]
    rfl
  rw [← hstep]
  exact .next .start trivial

/-- Statements of the thread on top are steps of the protocol. -/
theorem Execs.follows {k : Nat} {ok : Bool} {t t' : List Stmt} {u u' : Controller.Vars}
    {b b' : End → List UInt8} {as : List Action} {o : Option Signal}
    (h : Execs r k ok t u b as t' u' b') (halive : q.alive = true) (htop : q.top = (o, t))
    (hvars : q.vars = u) :
    Follows r q (resume q t' u') b b' (as.map fun a => ⟨r, o, a⟩) := by
  rintro τ rfl hinbox
  have hreach := h.reach halive (by rw [htop]) hvars hinbox
  rw [htop] at hreach
  exact hreach

/-- The counterpart can follow a turn that party `r` takes in the world `w`, unless the turn ends
    the process. -/
def Followed (r : Role) (q : Controller.Proc) (w : World)
    (res : Threads.Proc Signal Instr Vars Locals × World × Option Entry) : Prop :=
  ∃ q', (res.1.alive = true → Matches r res.1 q') ∧
    Follows r q q' w.inbox res.2.1.inbox (res.2.2.toList.flatMap actionsOf)

/-- Only an instruction that is done has to be followed. -/
theorem followed_frame {o : Option Signal} {i : Instr} {t : List Instr} {l : Locals} {v : Vars}
    {fs : List (Frame Signal Instr Locals)} (hm : Matches r ⟨⟨o, i :: t, l⟩ :: fs, v, true⟩ q)
    (hdone : ∀ v' l' w' d, exec (st r) r c i v l w = .done v' l' w' d →
      ∃ q', Matches r ⟨⟨o, t, l'⟩ :: fs, v', true⟩ q' ∧
        Follows r q q' w.inbox w'.inbox ((i.actions r d).map fun a => ⟨r, o, a⟩)) :
    Followed r q w
      ((machine (fun _ => .shm) st).runProc r c w ⟨⟨o, i :: t, l⟩ :: fs, v, true⟩) := by
  rw [Machine.runProc, if_pos rfl]
  cases hexec : exec (st r) r c i v l w with
  | done v' l' w' d =>
    obtain ⟨q', hm', hfollows⟩ := hdone v' l' w' d hexec
    simp only [machine, hexec]
    refine ⟨q', fun _ => hm', ?_⟩
    rw [Option.toList_some, List.flatMap_singleton]
    exact hfollows
  | again =>
    simp only [machine, hexec]
    exact ⟨q, fun _ => hm, Follows.stays r q _⟩
  | stop =>
    simp only [machine, hexec]
    exact ⟨q, fun hlive => absurd hlive Bool.false_ne_true, Follows.stays r q _⟩

/-- **A turn of a process** is followed by its counterpart, unless the process ends. -/
theorem Matches.run (hm : Matches r p q)
    (hsend : ∀ fd ∈ sockets r, p.vars.fds fd = true →
      w.other (r, fd) = some (otherEnd (r, fd))) :
    Followed r q w ((machine (fun _ => .shm) st).runProc r c w p) := by
  have hm' := hm
  cases hm with
  | @intro hs t l v u hfits hready hactive hcount hbuff hinstalled hfds =>
    -- behind the set-up all descriptors are assigned
    have hassigned : connected t = true → ∀ fd ∈ sockets r,
        v.fds fd = true ∧ w.other (r, fd) = some (otherEnd (r, fd)) := by
      intro hconnected fd hfd
      have hset : v.fds fd = true := by
        refine (hfds fd hfd).resolve_right ?_
        rintro ⟨i, hi, hassigns⟩
        rw [not_assigns_of_connected hconnected hi] at hassigns
        cases hassigns
      exact ⟨hset, hsend fd hfd hset⟩
    have hagree : connected t = true → Agree v u := fun hconnected =>
      ⟨hcount, hbuff, fun s => by rw [hinstalled, pending_of_connected hconnected]; simp⟩
    cases hs with
    | nil =>
      cases t with
      | nil => exact ⟨_, fun _ => hm', Follows.stays r _ _⟩
      | cons i t =>
        refine followed_frame hm' fun v' l' w' d hexec => ?_
        by_cases hconnected : connected (i :: t) = true
        · obtain ⟨hi, ht⟩ := fits_cons hfits hconnected
          obtain ⟨u', hagree', hexecs⟩ :=
            exec_refines hi (hagree hconnected) (hassigned hconnected) hexec
          refine ⟨_, ?_, hexecs.follows rfl ?_ rfl⟩
          · refine Matches.of_agree [] ht (connected_tail hconnected)
              (fun _ h => absurd h List.not_mem_nil) hagree' fun fd hfd => ?_
            rw [fds_of_fits hi hexec]
            exact (hassigned hconnected fd hfd).1
          · rw [afterSetup_of_connected hconnected]
            rfl
        · have hfit := hfits
          rw [fits, if_neg hconnected, Bool.and_eq_true] at hfit
          obtain ⟨hinbox, hactions, -⟩ := prepare_quiet hfit.1 hexec
          refine ⟨_, Matches.prepare hconnected hfits hexec hcount hbuff hinstalled hfds, ?_⟩
          rw [hinbox, hactions]
          exact Follows.stays r _ _
    | cons a hs =>
      have hconnected := hready (List.cons_ne_nil _ _)
      have hactive' : ∀ a ∈ hs, fits r a.todo = true ∧ connected a.todo = true := fun a ha =>
        hactive a (List.mem_cons_of_mem _ ha)
      obtain ⟨s, todo, loc⟩ := a
      cases todo with
      | nil =>
        obtain ⟨f, fs, hfs⟩ : ∃ f fs, hs.map Active.frame ++ [⟨none, t, l⟩] = f :: fs :=
          List.exists_cons_of_ne_nil (by simp)
        have hrun : (machine (fun _ => .shm) st).runProc r c w
            ⟨⟨some s, [], loc⟩ :: (hs.map Active.frame ++ [⟨none, t, l⟩]), v, true⟩
            = (⟨hs.map Active.frame ++ [⟨none, t, l⟩], v, true⟩, w, none) := by
          rw [hfs]
          rfl
        show Followed r _ w ((machine (fun _ => .shm) st).runProc r c w
          ⟨⟨some s, [], loc⟩ :: (hs.map Active.frame ++ [⟨none, t, l⟩]), v, true⟩)
        rw [hrun]
        exact ⟨_, fun _ => .intro hs hfits (fun _ => hconnected) hactive' hcount hbuff hinstalled
          hfds, Follows.returns rfl w.inbox⟩
      | cons i todo =>
        refine followed_frame hm' fun v' l' w' d hexec => ?_
        obtain ⟨hft, hct⟩ := hactive _ List.mem_cons_self
        obtain ⟨hi, ht⟩ := fits_cons hft hct
        obtain ⟨u', hagree', hexecs⟩ :=
          exec_refines hi (hagree hconnected) (hassigned hconnected) hexec
        refine ⟨_, ?_, hexecs.follows rfl rfl rfl⟩
        rw [afterSetup_of_connected hconnected]
        refine Matches.of_agree (⟨s, todo, l'⟩ :: hs) hfits hconnected ?_ hagree'
          fun fd hfd => ?_
        · intro a ha
          rcases List.mem_cons.mp ha with rfl | ha
          · exact ⟨ht, connected_tail hct⟩
          · exact hactive' a ha
        · rw [fds_of_fits hi hexec]
          exact (hassigned hconnected fd hfd).1

theorem todoIn_main (hs : List Active) (t : List Instr) (l : Locals) :
    todoIn none (hs.map Active.frame ++ [⟨none, t, l⟩]) = t := by
  induction hs with
  | nil => rfl
  | cons a hs ih => exact ih

/-- A signal starts its handler. -/
theorem Follows.delivers {s : Signal} {hs : List Controller.Handler} {main : List Stmt}
    {u : Controller.Vars} (hidle : s ∉ hs.map Controller.Handler.sig) (hinst : s ∈ u.installed)
    (b : End → List UInt8) :
    Follows r ⟨main, hs, u, true⟩ ⟨main, ⟨s, (Controller.shm r).handler s⟩ :: hs, u, true⟩ b b
      [⟨r, some s, .delivered⟩] := by
  rintro τ hproc rfl
  have hdeliver : (τ.proc r).deliver (Controller.shm r) s
      = (⟨main, ⟨s, (Controller.shm r).handler s⟩ :: hs, u, true⟩, some ⟨some s, .delivered⟩) := by
    rw [hproc, Controller.Proc.deliver, if_neg (by simp [hidle]), if_pos hinst]
  have hstep : τ.step (.signal r s)
      = ⟨Function.update τ.proc r ⟨main, ⟨s, (Controller.shm r).handler s⟩ :: hs, u, true⟩, τ.inbox,
        τ.log ++ [⟨r, some s, .delivered⟩]⟩ := by
    rw [Controller.Net.step, hdeliver, Controller.Net.after]
    simp only [Option.map_some]
    rw [Controller.transmit_of_still (fun _ => rfl) (fun _ => rfl)]
    rfl
  rw [← hstep]
  exact .next .start trivial

/-- **A signal** that reaches a connected party is followed, unless it ends the process. -/
theorem Matches.deliver {s : Signal} (hm : Matches r p q)
    (hconnected : connected (p.todoOf none) = true) :
    Followed r q w (((machine (fun _ => .shm) st).deliver r s p).1, w,
      ((machine (fun _ => .shm) st).deliver r s p).2) := by
  have hm' := hm
  cases hm with
  | @intro hs t l v u hfits hready hactive hcount hbuff hinstalled hfds =>
    rw [Proc.todoOf, todoIn_main] at hconnected
    rw [Machine.deliver]
    split
    · exact ⟨_, fun _ => hm', Follows.stays r _ _⟩
    · rename_i hidle
      split
      · rename_i hhandles
        have hinst : s ∈ u.installed := (hinstalled s).mpr (Or.inl (of_decide_eq_true hhandles))
        refine ⟨_, fun _ => .intro (⟨s, code .shm r (some s), Locals.fresh⟩ :: hs) hfits
          (fun _ => hconnected) ?_ hcount hbuff hinstalled hfds, ?_⟩
        · intro a ha
          rcases List.mem_cons.mp ha with rfl | ha
          · exact ⟨fits_code r _, connected_handler r s⟩
          · exact hactive a ha
        · have hcode := rest_code r (some s)
          rw [afterSetup_of_connected (connected_handler r s)] at hcode
          have hno : s ∉ (hs.map (Active.handler r)).map Controller.Handler.sig := by
            intro hmem
            refine hidle (Or.inr ?_)
            rw [List.map_map, List.mem_map] at hmem
            obtain ⟨a, ha, rfl⟩ := hmem
            rw [List.map_append, List.map_map]
            exact List.mem_append_left _ (List.mem_map.mpr ⟨a, ha, rfl⟩)
          rw [List.map_cons, Active.handler, show Locals.fresh.readLen = 0 from rfl, hcode]
          exact Follows.delivers hno hinst w.inbox
      · exact ⟨_, fun hlive => absurd hlive Bool.false_ne_true, Follows.stays r _ _⟩

end Steps

/-! ## The refinement -/

/-- A signal reaches a party only when its connections are made. -/
def AfterConnecting (σ : Net) : Choice → Prop
  | .signal r _ => connected ((σ.proc r).todoOf none) = true
  | .run _ _ | .drift _ => True

instance AfterConnecting.decidable (σ : Net) : ∀ x, Decidable (AfterConnecting σ x)
  | .signal r _ => inferInstanceAs (Decidable (connected ((σ.proc r).todoOf none) = true))
  | .run _ _ | .drift _ => inferInstanceAs (Decidable True)

/-- A state of the deployment and a state of the protocol. -/
structure Refines (σ : Net) (τ : Controller.Net) : Prop where
  /-- the same bytes are on their way -/
  inbox : τ.inbox = σ.world.inbox
  /-- the same has happened -/
  log : τ.log = σ.log.flatMap actionsOf
  /-- and every process that has not ended is where its counterpart is -/
  proc : ∀ r, (σ.proc r).alive = true → Matches r (σ.proc r) (τ.proc r)

/-- At the start every counterpart stands at the beginning of its program. -/
theorem Refines.start (st : Role → Settings) :
    Refines (start (fun _ => .shm) st) Controller.Net.start where
  inbox := rfl
  log := rfl
  proc r _ := by
    have hfds : ∀ fd ∈ sockets r, ∃ i ∈ code .shm r none, i.assigns fd = true := by
      cases r <;> decide
    have hm := Matches.intro [] (l := Locals.fresh) (v := Vars.zero)
      (u := ⟨false, List.replicate Controller.DATA_LEN 0, (Controller.shm r).installed⟩)
      (fits_code r none) (fun h => absurd rfl h) (fun _ h => absurd h List.not_mem_nil) rfl rfl
      (fun s => by rw [pending_code]; simp [Vars.zero])
      fun fd hfd => Or.inr (hfds fd hfd)
    rw [show Locals.fresh.readLen = 0 from rfl, rest_code] at hm
    exact hm

/-- The counterpart of one party follows, the others stay. -/
theorem Refines.followed {σ : Net} {τ : Controller.Net} (href : Refines σ τ) (r : Role)
    (res : Threads.Proc Signal Instr Vars Locals × World × Option Entry)
    (hres : (σ.proc r).alive = true → Followed r (τ.proc r) σ.world res)
    (hdead : (σ.proc r).alive = false → res = (σ.proc r, σ.world, none)) :
    ∃ τ', Reach Controller.Net.step Controller.Anything τ τ' ∧
      Refines ⟨res.2.1, Function.update σ.proc r res.1, σ.log ++ res.2.2.toList⟩ τ' := by
  have hfollowed : Followed r (τ.proc r) σ.world res := by
    cases hlive : (σ.proc r).alive with
    | true => exact hres hlive
    | false =>
      rw [hdead hlive]
      refine ⟨_, fun h => ?_, Follows.stays r _ _⟩
      rw [hlive] at h
      cases h
  obtain ⟨q', hm, hfollows⟩ := hfollowed
  refine ⟨_, hfollows τ rfl href.inbox, rfl, ?_, fun r' hlive => ?_⟩
  · rw [href.log, List.flatMap_append]
  · dsimp only at hlive ⊢
    by_cases hr : r' = r
    · subst hr
      rw [Function.update_self] at hlive
      rw [Function.update_self, Function.update_self]
      exact hm hlive
    · rw [Function.update_of_ne hr] at hlive
      rw [Function.update_of_ne hr, Function.update_of_ne hr]
      exact href.proc r' hlive

/-- **The processes refine the protocol.**  In shared-memory mode every reachable state of the
    deployment has a reachable counterpart in the protocol of the connected parties: same bytes on
    their way, same history, and every process where its counterpart is. -/
theorem deployment_refines {st : Role → Settings} (hst : Proper st) {σ : Net}
    (h : Reach (machine (fun _ => .shm) st).step AfterConnecting (start (fun _ => .shm) st) σ) :
    ∃ τ, Reach Controller.Net.step Controller.Anything Controller.Net.start τ ∧ Refines σ τ := by
  refine Reach.simulates Refines (Refines.start st) (fun σ x τ hr hx href => ?_) h
  cases x with
  | run r c =>
    refine href.followed r _ (fun hlive => (href.proc r hlive).run fun fd _ hfd => ?_)
      fun hlive => ?_
    · obtain ⟨i, hi, hdid⟩ := (SetUp.of_reach hr r hlive).fds fd hfd
      exact other_of_assigned hst hr (e := (r, fd)) hi hdid
    · rw [Machine.runProc, if_neg (by rw [hlive]; exact Bool.false_ne_true)]
  | signal r s =>
    refine href.followed r (((machine (fun _ => .shm) st).deliver r s (σ.proc r)).1, σ.world,
      ((machine (fun _ => .shm) st).deliver r s (σ.proc r)).2)
      (fun hlive => (href.proc r hlive).deliver hx) fun hlive => ?_
    rw [Machine.deliver, if_pos (Or.inl hlive)]
  | drift c => exact ⟨τ, .start, href.inbox, href.log, href.proc⟩

theorem shmPlay_after_connecting :
    Playable (machine (fun _ => .shm) fun _ => Settings.shipped).step AfterConnecting
      (start (fun _ => .shm) fun _ => Settings.shipped) shmPlay := by
  decide +kernel

theorem deployment_refines_shmPlay : (Proper fun _ => Settings.shipped) ∧
    ∃ τ, Reach Controller.Net.step Controller.Anything Controller.Net.start τ ∧
      Refines (played .shm shmPlay) τ :=
  ⟨proper_shipped, deployment_refines proper_shipped (Reach.play .start shmPlay_after_connecting)⟩

end QemuStudy.Deployment
