/-
  One controller process: straight-line C code interrupted by signal handlers.

  Every party of `apps/controller.c` is a main function that reads commands and then idles, plus
  handlers for SIGUSR1 and SIGUSR2 that share the global `sigusr1_count` and the buffer `buff` with
  it.  The model executes one statement at a time and lets a signal arrive between any two:

  * `Stmt` is the code.  `writeToFile` and `receive` are calls and take several steps: first the
    argument is evaluated (or the buffer cleared), and the call is replaced by what is left of it.
  * `exec` runs one statement on the globals (`Vars`); `none` is a failed `assert`.
  * `Proc` is the main code, the STACK of interrupted handlers (the running one first), and the
    globals.  `Proc.run` executes one statement of whatever is on top; `Proc.deliver` is the arrival
    of a signal: it pushes the handler, is held back while that handler is active (a handler is
    not interrupted by its own signal), and terminates a process that has not installed one.

  `Event`s record what happened, with the handler it happened in; they are history only, no step
  looks at them.

  The second half cuts `Proc` along its THREADS (`Proc.todoOf`: main, SIGUSR1, SIGUSR2): whatever
  the stack looks like, a step advances the code of one thread and leaves the others alone
  (`Proc.run_cases`, `Proc.deliver_cases`), and what a thread has recorded plus what its remaining
  code is going to record is always the same (`exec_future`).
-/
import QemuStudy.Controller.Message

namespace QemuStudy.Controller

/-! ## Statements -/

inductive Signal
  | usr1
  | usr2
  deriving DecidableEq, Repr

/-- The connected sockets: `connfd` in `src` and `dst`, `srcfd` and `dstfd` in `backup`. -/
inductive Fd
  | connfd
  | srcfd
  | dstfd
  deriving DecidableEq, Repr

/-- The shell commands the handlers and the main functions run once they are connected. -/
inductive Command
  | pinVmToCores
  | quitSrc
  | shmMigrate
  | shmMigrateSwitchover
  | dstBoot
  | migrateIncomingShm
  deriving DecidableEq, Repr

/-- The argument of `write_to_file`: a literal, or `!sigusr1_count ? clear : set`. -/
inductive Arg
  | text (m : Msg)
  | byCount (clear set : Msg)
  deriving DecidableEq, Repr

def Arg.eval (count : Bool) : Arg → Msg
  | .text m => m
  | .byCount clear set => if count then set else clear

/-- Statements.  The first group is what the source says, the second is what is left of a call that
    has begun. -/
inductive Stmt
  /-- `printf`, `puts`, `fflush` -/
  | stdio
  /-- `sleep`, `usleep` -/
  | sleep
  /-- `clock_gettime` -/
  | clock
  /-- `signal(s, handler)` -/
  | signal (s : Signal)
  /-- `write_to_file(fd, arg)` -/
  | writeToFile (fd : Fd) (arg : Arg)
  /-- `read_from_file(fd, sizeof(m), buff); assert(strcmp(buff, m) == 0)` -/
  | receive (fd : Fd) (m : Msg)
  /-- `assert(sigusr1_count)` -/
  | assertCount
  /-- `sigusr1_count = 1` -/
  | setCount
  /-- `if (!sigusr1_count)` around the next `n` statements -/
  | unlessCount (n : Nat)
  /-- `execute_wrapper(cmd)`, its result ignored -/
  | execute (cmd : Command)
  /-- `while (1) { int ret = execute_wrapper(cmd); if (!ret) break; }` -/
  | retry (cmd : Command)
  /-- `while (1) { fflush(stdout); sleep(1); }` -/
  | idle
  /-- in `write_to_file`, argument evaluated: `write(fd, data, strlen(data))`.  A blocking socket
      takes the whole message, so the `assert` after it compares a length with itself. -/
  | write (fd : Fd) (m : Msg)
  /-- in `read_from_file`, buffer cleared: the loop around `read(fd, data, len - 1)` -/
  | read (fd : Fd) (m : Msg)
  /-- `assert(read_len == len - 1)`, `n` bytes read -/
  | assertLen (n : Nat) (fd : Fd) (m : Msg)
  /-- `assert(strcmp(buff, m) == 0)` -/
  | assertStrcmp (fd : Fd) (m : Msg)
  deriving DecidableEq, Repr

/-- `if (!sigusr1_count) { body }` -/
def unlessCount (body : List Stmt) : List Stmt := .unlessCount body.length :: body

/-! ## One statement -/

/-- What a step can do that others notice. -/
inductive Action
  | delivered
  | killed
  | evaluated
  | wrote (fd : Fd) (m : Msg)
  | received (fd : Fd) (chunk : List UInt8)
  | matched (fd : Fd) (m : Msg)
  | passed
  | countSet
  | issued (cmd : Command)
  | attempted (cmd : Command) (ok : Bool)
  | failed (s : Stmt)
  deriving DecidableEq, Repr

/-- An action and the handler it was done in (`none`: main). -/
structure Event where
  origin : Option Signal
  action : Action
  deriving DecidableEq, Repr

/-- The globals: `sigusr1_count`, `buff`, and which handlers are installed. -/
structure Vars where
  count : Bool
  buff : Buff
  installed : List Signal

/-- What the environment decides in one step: how many bytes a `read` may return, whether a shell
    command succeeds, and which bytes are pending on each socket. -/
structure Env where
  k : Nat
  ok : Bool
  input : Fd → List UInt8

/-- Executes `s` in front of the code `t`: new globals, remaining code, and what others notice.
    `none` is a failed `assert`. -/
def exec (env : Env) (v : Vars) (t : List Stmt) : Stmt → Option (Vars × List Stmt × Option Action)
  | .stdio => some (v, t, none)
  | .sleep => some (v, t, none)
  | .clock => some (v, t, none)
  | .signal s => some ({ v with installed := s :: v.installed }, t, none)
  | .writeToFile fd arg => some (v, .write fd (arg.eval v.count) :: t, some .evaluated)
  | .write fd m => some (v, t, some (.wrote fd m))
  | .receive fd m =>
    some ({ v with buff := memset (m.sizeof + 1) v.buff }, .read fd m :: t, none)
  | .read fd m =>
    let chunk := readSome env.k (m.sizeof - 1) (env.input fd)
    -- `read` blocks, or returns 0 and is called again: the loop stays where it is
    if chunk = [] then some (v, .read fd m :: t, none)
    else some ({ v with buff := store chunk v.buff }, .assertLen chunk.length fd m :: t,
      some (.received fd chunk))
  | .assertLen n fd m => if n = m.sizeof - 1 then some (v, .assertStrcmp fd m :: t, none) else none
  | .assertStrcmp fd m =>
    if cstr v.buff = m.bytes then some (v, t, some (.matched fd m)) else none
  | .assertCount => if v.count then some (v, t, some .passed) else none
  | .setCount => some ({ v with count := true }, t, some .countSet)
  | .unlessCount n => some (v, if v.count then t.drop n else t, none)
  | .execute cmd => some (v, t, some (.issued cmd))
  | .retry cmd =>
    some (v, if env.ok then t else .retry cmd :: t, some (.attempted cmd env.ok))
  | .idle => some (v, .idle :: t, none)

/-! ## A process -/

/-- An active handler and its remaining code. -/
structure Handler where
  sig : Signal
  todo : List Stmt
  deriving DecidableEq, Repr

/-- Remaining main code, active handlers (the running one first), globals. -/
structure Proc where
  main : List Stmt
  handlers : List Handler
  vars : Vars
  alive : Bool

/-- What a party runs once it is connected. -/
structure Program where
  main : List Stmt
  handler : Signal → List Stmt
  /-- installed before the connection was made -/
  installed : List Signal

def Program.start (prog : Program) : Proc where
  main := prog.main
  handlers := []
  vars := ⟨false, List.replicate DATA_LEN 0, prog.installed⟩
  alive := true

/-- The code that runs next and the handler it belongs to. -/
def Proc.top (p : Proc) : Option Signal × List Stmt :=
  match p.handlers with
  | [] => (none, p.main)
  | h :: _ => (some h.sig, h.todo)

def Proc.setTop (t : List Stmt) (p : Proc) : Proc :=
  match p.handlers with
  | [] => { p with main := t }
  | h :: hs => { p with handlers := ⟨h.sig, t⟩ :: hs }

/-- A failed `assert` or an unhandled signal stops the process. -/
def Proc.halt (p : Proc) : Proc := { p with handlers := [], alive := false }

/-- One statement of the code on top; a handler at its end returns. -/
def Proc.run (env : Env) (p : Proc) : Proc × Option Event :=
  if p.alive then
    match p.top.2 with
    | [] => ({ p with handlers := p.handlers.tail }, none)
    | s :: t =>
      match exec env p.vars t s with
      | some (v, t', a) => ({ p.setTop t' with vars := v }, a.map fun a => ⟨p.top.1, a⟩)
      | none => (p.halt, some ⟨p.top.1, .failed s⟩)
  else (p, none)

/-- Signal `s` reaches the process. -/
def Proc.deliver (prog : Program) (s : Signal) (p : Proc) : Proc × Option Event :=
  if p.alive = false ∨ s ∈ p.handlers.map Handler.sig then (p, none)
  else if s ∈ p.vars.installed then
    ({ p with handlers := ⟨s, prog.handler s⟩ :: p.handlers }, some ⟨some s, .delivered⟩)
  else (p.halt, some ⟨some s, .killed⟩)

/-! ## Threads -/

/-- The remaining code of a handler, `[]` if it is not active. -/
def todoIn (s : Signal) : List Handler → List Stmt
  | [] => []
  | h :: hs => if h.sig = s then h.todo else todoIn s hs

/-- The remaining code of a thread: main, or the handler of a signal. -/
def Proc.todoOf (p : Proc) : Option Signal → List Stmt
  | none => p.main
  | some s => todoIn s p.handlers

/-- The code a thread starts with. -/
def Program.code (prog : Program) : Option Signal → List Stmt
  | none => prog.main
  | some s => prog.handler s

/-- No signal has two active handlers, and only installed ones have any. -/
structure Proc.WF (p : Proc) : Prop where
  nodup : (p.handlers.map Handler.sig).Nodup
  installed : ∀ s ∈ p.handlers.map Handler.sig, s ∈ p.vars.installed

theorem todoIn_of_not_mem {s : Signal} {hs : List Handler} (h : s ∉ hs.map Handler.sig) :
    todoIn s hs = [] := by
  induction hs with
  | nil => rfl
  | cons a hs ih =>
    rw [List.map_cons, List.mem_cons, not_or] at h
    rw [todoIn, if_neg (Ne.symm h.1), ih h.2]

theorem Proc.todoOf_top (p : Proc) : p.todoOf p.top.1 = p.top.2 := by
  rcases hh : p.handlers with _ | ⟨h, hs⟩ <;> simp [Proc.top, Proc.todoOf, hh, todoIn]

/-- Advancing the code on top advances one thread. -/
theorem Proc.todoOf_setTop (p : Proc) (t : List Stmt) :
    (p.setTop t).todoOf = Function.update p.todoOf p.top.1 t := by
  funext o
  rcases hh : p.handlers with _ | ⟨h, hs⟩
  · cases o with
    | none => simp [Proc.top, Proc.setTop, hh, Proc.todoOf]
    | some s => simp [Proc.top, Proc.setTop, hh, Proc.todoOf]
  · cases o with
    | none => simp [Proc.top, Proc.setTop, hh, Proc.todoOf]
    | some s =>
      by_cases hs' : h.sig = s
      · subst hs'; simp [Proc.top, Proc.setTop, hh, Proc.todoOf, todoIn]
      · simp [Proc.top, Proc.setTop, hh, Proc.todoOf, todoIn, hs', Ne.symm hs']

theorem Proc.sigs_setTop (p : Proc) (t : List Stmt) :
    (p.setTop t).handlers.map Handler.sig = p.handlers.map Handler.sig := by
  rcases hh : p.handlers with _ | ⟨h, hs⟩ <;> simp [Proc.setTop, hh]

/-- A finished handler that returns leaves every thread's code as it was. -/
theorem Proc.todoOf_tail {p : Proc} (hwf : p.WF) (htop : p.top.2 = []) :
    ({ p with handlers := p.handlers.tail } : Proc).todoOf = p.todoOf := by
  funext o
  cases o with
  | none => rfl
  | some s =>
    rcases hh : p.handlers with _ | ⟨h, hs⟩
    · simp [Proc.todoOf, hh]
    · have hnd := hwf.nodup
      rw [hh, List.map_cons, List.nodup_cons] at hnd
      simp only [Proc.top, hh] at htop
      by_cases hs' : h.sig = s
      · subst hs'; simp [Proc.todoOf, hh, todoIn, htop, todoIn_of_not_mem hnd.1]
      · simp [Proc.todoOf, hh, todoIn, hs']

theorem exec_installed {env : Env} {v v' : Vars} {s : Stmt} {t t' : List Stmt} {a : Option Action}
    (h : exec env v t s = some (v', t', a)) : v.installed ⊆ v'.installed := by
  cases s <;> simp only [exec] at h <;> (try split at h) <;> cases h <;> simp

/-- Only the arrival of a signal is recorded as one. -/
theorem exec_not_delivered {env : Env} {v v' : Vars} {s : Stmt} {t t' : List Stmt}
    {a : Option Action} (h : exec env v t s = some (v', t', a)) : a ≠ some .delivered := by
  cases s <;> simp only [exec] at h <;> (try split at h) <;> cases h <;> simp

/-- **What a statement step can do**: nothing, one statement of one thread, or a failed assert. -/
theorem Proc.run_cases {env : Env} {p p' : Proc} {e : Option Event} (hwf : p.WF)
    (h : p.run env = (p', e)) : p'.WF ∧
    ((p'.todoOf = p.todoOf ∧ p'.vars = p.vars ∧ p'.alive = p.alive ∧ e = none) ∨
     (∃ o s t v t' a, p.alive = true ∧ p.todoOf o = s :: t ∧ exec env p.vars t s = some (v, t', a) ∧
        p'.todoOf = Function.update p.todoOf o t' ∧ p'.vars = v ∧ p'.alive = true ∧
        e = a.map fun a => ⟨o, a⟩) ∨
     (∃ o s t, p.alive = true ∧ p.todoOf o = s :: t ∧ exec env p.vars t s = none ∧
        p'.alive = false ∧ e = some ⟨o, .failed s⟩)) := by
  unfold Proc.run at h
  split at h
  · rename_i halive
    split at h
    · rename_i htop
      cases h
      refine ⟨⟨?_, ?_⟩, Or.inl ⟨Proc.todoOf_tail hwf htop, rfl, rfl, rfl⟩⟩
      · exact hwf.nodup.sublist ((List.tail_sublist _).map _)
      · exact fun s hs => hwf.installed s (((List.tail_sublist _).map _).subset hs)
    · rename_i s t htop
      have htodo : p.todoOf p.top.1 = s :: t := by rw [Proc.todoOf_top, htop]
      split at h
      · rename_i v t' a hex
        cases h
        refine ⟨⟨?_, ?_⟩, Or.inr (Or.inl ⟨p.top.1, s, t, v, t', a, halive, htodo, hex, ?_⟩)⟩
        · exact (Proc.sigs_setTop p t').symm ▸ hwf.nodup
        · intro x hx
          exact exec_installed hex (hwf.installed x ((Proc.sigs_setTop p t') ▸ hx))
        · refine ⟨Proc.todoOf_setTop p t', rfl, ?_, rfl⟩
          rcases hh : p.handlers with _ | ⟨h, hs⟩ <;> simpa [Proc.setTop, hh] using halive
      · rename_i hex
        cases h
        refine ⟨⟨by simp [Proc.halt], by simp [Proc.halt]⟩, ?_⟩
        exact Or.inr (Or.inr ⟨p.top.1, s, t, halive, htodo, hex, rfl, rfl⟩)
  · cases h
    exact ⟨hwf, Or.inl ⟨rfl, rfl, rfl, rfl⟩⟩

/-- **What a signal can do**: nothing, start its handler's thread, or end the process. -/
theorem Proc.deliver_cases {prog : Program} {s : Signal} {p p' : Proc} {e : Option Event}
    (hwf : p.WF) (h : p.deliver prog s = (p', e)) : p'.WF ∧
    ((p' = p ∧ e = none) ∨
     (p.alive = true ∧ s ∈ p.vars.installed ∧ p.todoOf (some s) = [] ∧
        p'.todoOf = Function.update p.todoOf (some s) (prog.handler s) ∧ p'.vars = p.vars ∧
        p'.alive = true ∧ e = some ⟨some s, .delivered⟩) ∨
     (p.alive = true ∧ s ∉ p.vars.installed ∧ p'.alive = false ∧ e = some ⟨some s, .killed⟩)) := by
  unfold Proc.deliver at h
  split at h
  · cases h
    exact ⟨hwf, Or.inl ⟨rfl, rfl⟩⟩
  · rename_i hno
    rw [not_or, Bool.not_eq_false] at hno
    obtain ⟨halive, hmem⟩ := hno
    split at h
    · rename_i hinst
      cases h
      refine ⟨⟨?_, ?_⟩,
        Or.inr (Or.inl ⟨halive, hinst, todoIn_of_not_mem hmem, ?_, rfl, halive, rfl⟩)⟩
      · exact List.nodup_cons.mpr ⟨hmem, hwf.nodup⟩
      · intro x hx
        rcases List.mem_cons.mp hx with rfl | hx
        · exact hinst
        · exact hwf.installed x hx
      · funext o
        cases o with
        | none => simp [Proc.todoOf]
        | some s' =>
          by_cases hs : s = s'
          · subst hs; simp [Proc.todoOf, todoIn]
          · simp [Proc.todoOf, todoIn, hs, Ne.symm hs]
    · rename_i hinst
      cases h
      exact ⟨⟨by simp [Proc.halt], by simp [Proc.halt]⟩,
        Or.inr (Or.inr ⟨halive, hinst, rfl, rfl⟩)⟩

/-! ## What a thread is going to record -/

/-- The actions that straight-line code determines in advance. -/
def traced : Action → Bool
  | .evaluated => true
  | .wrote _ _ => true
  | .matched _ _ => true
  | .passed => true
  | .countSet => true
  | .issued _ => true
  | _ => false

/-- What one statement is going to record if nothing stops it. -/
def Stmt.future : Stmt → List Action
  | .writeToFile fd (.text m) => [.evaluated, .wrote fd m]
  | .write fd m => [.wrote fd m]
  | .receive fd m => [.matched fd m]
  | .read fd m => [.matched fd m]
  | .assertLen _ fd m => [.matched fd m]
  | .assertStrcmp fd m => [.matched fd m]
  | .assertCount => [.passed]
  | .setCount => [.countSet]
  | .execute cmd => [.issued cmd]
  | _ => []

/-- What the remaining code of a thread is going to record. -/
def future (t : List Stmt) : List Action := t.flatMap Stmt.future

@[simp] theorem future_nil : future [] = [] := rfl

@[simp] theorem future_cons (s : Stmt) (t : List Stmt) :
    future (s :: t) = s.future ++ future t := rfl

/-- No branch depends on `sigusr1_count`. -/
def Stmt.plain : Stmt → Bool
  | .writeToFile _ (.byCount _ _) => false
  | .unlessCount _ => false
  | _ => true

/-- A statement of the source, not the rest of a call. -/
def Stmt.source : Stmt → Bool
  | .write _ _ => false
  | .read _ _ => false
  | .assertLen _ _ _ => false
  | .assertStrcmp _ _ => false
  | _ => true

/-- A statement that uses the buffer. -/
def Stmt.reads : Stmt → Bool
  | .receive _ _ => true
  | .read _ _ => true
  | .assertLen _ _ _ => true
  | .assertStrcmp _ _ => true
  | _ => false

/-- **Determinism of straight-line code.**  A step moves what it records from the thread's future
    into the history. -/
theorem exec_future {env : Env} {v v' : Vars} {s : Stmt} {t t' : List Stmt} {a : Option Action}
    (hs : s.plain = true) (h : exec env v t s = some (v', t', a)) :
    a.toList.filter traced ++ future t' = future (s :: t) := by
  cases s with
  | writeToFile fd arg =>
    cases arg with
    | text m => cases h; rfl
    | byCount clear set => cases hs
  | unlessCount n => cases hs
  | read fd m =>
    simp only [exec] at h
    split at h <;> cases h <;> rfl
  | retry cmd =>
    simp only [exec] at h
    split at h <;> cases h <;> rfl
  | assertLen n fd m =>
    simp only [exec] at h
    split at h <;> cases h
    rfl
  | assertStrcmp fd m =>
    simp only [exec] at h
    split at h <;> cases h
    rfl
  | assertCount =>
    simp only [exec] at h
    split at h <;> cases h
    rfl
  | _ => cases h; rfl

/-- The remaining code is the old rest, possibly behind what is left of the statement: the
    statement itself (a loop), or the rest of a call. -/
theorem exec_todo {env : Env} {v v' : Vars} {s : Stmt} {t t' : List Stmt} {a : Option Action}
    (hs : s.plain = true) (h : exec env v t s = some (v', t', a)) :
    t' = t ∨ t' = s :: t ∨
      ∃ s', t' = s' :: t ∧ s'.plain = true ∧ s'.source = false ∧ s'.reads = s.reads := by
  cases s with
  | unlessCount n => cases hs
  | writeToFile fd arg => cases h; exact Or.inr (Or.inr ⟨_, rfl, rfl, rfl, rfl⟩)
  | receive fd m => cases h; exact Or.inr (Or.inr ⟨_, rfl, rfl, rfl, rfl⟩)
  | idle => cases h; exact Or.inr (Or.inl rfl)
  | read fd m =>
    simp only [exec] at h
    split at h <;> cases h
    · exact Or.inr (Or.inl rfl)
    · exact Or.inr (Or.inr ⟨_, rfl, rfl, rfl, rfl⟩)
  | retry cmd =>
    simp only [exec] at h
    split at h <;> cases h
    · exact Or.inl rfl
    · exact Or.inr (Or.inl rfl)
  | assertLen n fd m =>
    simp only [exec] at h
    split at h <;> cases h
    exact Or.inr (Or.inr ⟨_, rfl, rfl, rfl, rfl⟩)
  | assertStrcmp fd m =>
    simp only [exec] at h
    split at h <;> cases h
    exact Or.inl rfl
  | assertCount =>
    simp only [exec] at h
    split at h <;> cases h
    exact Or.inl rfl
  | _ => cases h; exact Or.inl rfl

end QemuStudy.Controller
