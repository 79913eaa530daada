/-
  Two handlers and one flag: the notifications of the QEMU destination and of the shared-memory
  source under every way the two signals can interrupt the process and each other.

  In both programs the handlers of SIGUSR1 and SIGUSR2 communicate through `sigusr1_count`, which
  is TESTED in one place and SET in a later statement:

  * `signal_handler_dst_1/2` pick the message by `!sigusr1_count` and set the flag after a sleep
    and a shell command.  A second signal in between picks the same message again.
  * `signal_handler_shm_src_precopy` sets the flag only after it has written its message, and
    `signal_handler_shm_src_complete` begins with `assert(sigusr1_count)`.  A completion in between
    aborts the source.

  `Notifications` shows that these windows are the ONLY way either
  program goes wrong, for every run in which each signal arrives once.

  How the proofs go: handlers are deterministic and never look at what main does, so what they
  record is a function of a small machine (`View.tick`) and of the one choice the environment has,
  the point at which the second signal falls.  `settled_view` reduces every complete run to that
  choice, and a handler has few enough statements to go through them.
-/
import QemuStudy.Controller.Programs
import QemuStudy.Lib.Runs
import Mathlib.Logic.Function.Iterate
import Mathlib.Data.Fintype.Defs
import Mathlib.Data.Finset.Insert

namespace QemuStudy.Controller

open QemuStudy.Runs

instance : Fintype Signal := ⟨{.usr1, .usr2}, fun s => by cases s <;> decide⟩

/-! ## One process and its environment -/

/-- A process and its history. -/
structure Solo where
  proc : Proc
  log : List Event

/-- The environment lets the process run, or a signal arrives. -/
inductive Move
  | run (env : Env)
  | signal (s : Signal)

def Solo.step (prog : Program) (σ : Solo) : Move → Solo
  | .run env => ⟨(σ.proc.run env).1, σ.log ++ (σ.proc.run env).2.toList⟩
  | .signal s => ⟨(σ.proc.deliver prog s).1, σ.log ++ (σ.proc.deliver prog s).2.toList⟩

def Solo.start (prog : Program) : Solo := ⟨prog.start, []⟩

/-- The arrival of a signal, as the history has it. -/
def arrival (s : Signal) : Event := ⟨some s, .delivered⟩

/-- Each signal arrives at most once. -/
def Once (σ : Solo) : Move → Prop
  | .run _ => True
  | .signal s => arrival s ∉ σ.log

instance (σ : Solo) : DecidablePred (Once σ)
  | .run _ => isTrue trivial
  | .signal s => inferInstanceAs (Decidable (arrival s ∉ σ.log))

/-- SIGUSR2 arrives at most once, and SIGUSR1 at most once, some time after it. -/
def InOrder (σ : Solo) : Move → Prop
  | .run _ => True
  | .signal .usr1 => arrival .usr1 ∉ σ.log ∧ arrival .usr2 ∈ σ.log
  | .signal .usr2 => arrival .usr2 ∉ σ.log

instance (σ : Solo) : DecidablePred (InOrder σ)
  | .run _ => isTrue trivial
  | .signal .usr1 => inferInstanceAs (Decidable (arrival .usr1 ∉ σ.log ∧ arrival .usr2 ∈ σ.log))
  | .signal .usr2 => inferInstanceAs (Decidable (arrival .usr2 ∉ σ.log))

/-- Both signals have arrived and no handler is active any more. -/
def Solo.Settled (σ : Solo) : Prop :=
  arrival .usr1 ∈ σ.log ∧ arrival .usr2 ∈ σ.log ∧ σ.proc.handlers = []

/-- The bytes an event puts on `fd`. -/
def Event.output (fd : Fd) (e : Event) : List UInt8 :=
  match e.action with
  | .wrote fd' m => if fd' = fd then m.bytes else []
  | _ => []

/-- The bytes written to `fd`. -/
def output (fd : Fd) (log : List Event) : List UInt8 := log.flatMap (Event.output fd)

/-! ## The handlers as a machine of their own -/

/-- What the handlers see and leave behind: the flag, the stack of active handlers, and the
    history without main's part. -/
structure View where
  count : Bool
  handlers : List Handler
  log : List Event
  deriving DecidableEq

def Solo.view (σ : Solo) : View :=
  ⟨σ.proc.vars.count, σ.proc.handlers, σ.log.filter (·.origin.isSome)⟩

/-- Statements that neither read from a socket nor depend on the environment. -/
def Stmt.selfContained : Stmt → Bool
  | .stdio | .sleep | .clock | .writeToFile _ _ | .write _ _ => true
  | .assertCount | .setCount | .unlessCount _ | .execute _ => true
  | _ => false

/-- Statements that leave the flag alone and write nothing. -/
def Stmt.passive : Stmt → Bool
  | .writeToFile _ _ | .write _ _ | .assertCount | .setCount | .unlessCount _ | .signal _ => false
  | _ => true

/-- No bytes to read, every command succeeds: for statements that do not care. -/
def noEnv : Env := ⟨0, true, fun _ => []⟩

/-- One statement of the running handler. -/
def View.tick (x : View) : View :=
  match x.handlers with
  | [] => x
  | h :: hs =>
    match h.todo with
    | [] => { x with handlers := hs }
    | s :: t =>
      match exec noEnv ⟨x.count, [], []⟩ t s with
      | some (v, t', a) =>
        ⟨v.count, ⟨h.sig, t'⟩ :: hs, x.log ++ (a.map fun a => (⟨some h.sig, a⟩ : Event)).toList⟩
      | none => ⟨x.count, [], x.log ++ [⟨some h.sig, .failed s⟩]⟩

/-- A signal arrives. -/
def View.push (prog : Program) (s : Signal) (x : View) : View :=
  { x with handlers := ⟨s, prog.handler s⟩ :: x.handlers, log := x.log ++ [arrival s] }

def View.empty : View := ⟨false, [], []⟩

theorem exec_selfContained (env : Env) (v : Vars) (t : List Stmt) {s : Stmt}
    (hs : s.selfContained = true) :
    exec env v t s = (exec noEnv ⟨v.count, [], []⟩ t s).map
      fun r => ({ v with count := r.1.count }, r.2) := by
  cases s with
  | assertCount =>
    obtain ⟨count, buff, installed⟩ := v
    cases count <;> rfl
  | _ => first | rfl | cases hs

theorem exec_keeps_selfContained {env : Env} {v v' : Vars} {s : Stmt} {t t' : List Stmt}
    {a : Option Action} (hs : s.selfContained = true) (ht : ∀ x ∈ t, x.selfContained = true)
    (h : exec env v t s = some (v', t', a)) : ∀ x ∈ t', x.selfContained = true := by
  cases s with
  | writeToFile fd arg => cases h; simpa [Stmt.selfContained] using ht
  | assertCount =>
    simp only [exec] at h
    split at h <;> cases h
    exact ht
  | unlessCount n =>
    cases h
    split
    · exact fun x hx => ht x (List.mem_of_mem_drop hx)
    · exact ht
  | _ => first | (cases h; exact ht) | cases hs

/-- Main neither changes the flag nor writes, and its code stays passive. -/
theorem exec_passive {env : Env} {v v' : Vars} {s : Stmt} {t t' : List Stmt} {a : Option Action}
    (hs : s.passive = true) (ht : ∀ x ∈ t, x.passive = true)
    (h : exec env v t s = some (v', t', a)) :
    v'.count = v.count ∧ v'.installed = v.installed ∧ (∀ x ∈ t', x.passive = true) ∧
      ∀ b ∈ a, (∀ fd m, b ≠ .wrote fd m) ∧ b ≠ .failed .assertCount := by
  cases s with
  | receive fd m => cases h; simpa [Stmt.passive] using ht
  | idle => cases h; simpa [Stmt.passive] using ht
  | read fd m =>
    simp only [exec] at h
    split at h <;> cases h <;> simpa [Stmt.passive] using ht
  | retry cmd =>
    simp only [exec] at h
    cases h
    refine ⟨rfl, rfl, ?_, by simp⟩
    split
    · exact ht
    · simpa [Stmt.passive] using ht
  | assertLen n fd m =>
    simp only [exec] at h
    split at h <;> cases h
    simpa [Stmt.passive] using ht
  | assertStrcmp fd m =>
    simp only [exec] at h
    split at h <;> cases h
    simpa using ht
  | _ => first | (cases h; simpa using ht) | cases hs

/-! ## The process follows the machine -/

/-- Main writes nothing and does not test the flag. -/
def MainQuiet (e : Event) : Prop :=
  e.origin = none → (∀ fd m, e.action ≠ .wrote fd m) ∧ e.action ≠ .failed .assertCount

/-- Handlers are self-contained, main is passive, both handlers are installed, and a stopped
    process has none active. -/
structure Calm (σ : Solo) : Prop where
  handlers : ∀ h ∈ σ.proc.handlers, ∀ s ∈ h.todo, s.selfContained = true
  main : ∀ s ∈ σ.proc.main, s.passive = true
  installed : ∀ s, s ∈ σ.proc.vars.installed
  stopped : σ.proc.alive = false → σ.proc.handlers = []
  log : ∀ e ∈ σ.log, MainQuiet e

theorem Calm.start {prog : Program} (hmain : ∀ s ∈ prog.main, s.passive = true)
    (hinst : ∀ s, s ∈ prog.installed) : Calm (Solo.start prog) where
  handlers := by intro h hh; cases hh
  main := hmain
  installed := hinst
  stopped := fun _ => rfl
  log := by intro e he; cases he

/-- What a running handler records says nothing about main. -/
theorem forall_mainQuiet_append {log : List Event} (h : ∀ e ∈ log, MainQuiet e)
    {e : Option Event} (he : ∀ x ∈ e, MainQuiet x) : ∀ x ∈ log ++ e.toList, MainQuiet x := by
  intro x hx
  rcases List.mem_append.mp hx with hx | hx
  · exact h x hx
  · exact he x (by simpa using hx)

/-- With no handler active a step of main leaves the machine where it is. -/
theorem Calm.run_main {main : List Stmt} {vars : Vars} {log : List Event}
    (h : Calm ⟨⟨main, [], vars, true⟩, log⟩) (prog : Program) (env : Env) :
    Calm (Solo.step prog ⟨⟨main, [], vars, true⟩, log⟩ (.run env)) ∧
      (Solo.step prog ⟨⟨main, [], vars, true⟩, log⟩ (.run env)).view = ⟨vars.count, [],
        log.filter (·.origin.isSome)⟩ := by
  cases main with
  | nil =>
    have hstep : Solo.step prog ⟨⟨[], [], vars, true⟩, log⟩ (.run env)
        = ⟨⟨[], [], vars, true⟩, log⟩ := by simp [Solo.step, Proc.run, Proc.top]
    rw [hstep]
    exact ⟨h, rfl⟩
  | cons s t =>
    have hs := h.main s List.mem_cons_self
    cases hex : exec env vars t s with
    | none =>
      have hstep : Solo.step prog ⟨⟨s :: t, [], vars, true⟩, log⟩ (.run env)
          = ⟨⟨s :: t, [], vars, false⟩, log ++ (some (⟨none, .failed s⟩ : Event)).toList⟩ := by
        simp [Solo.step, Proc.run, Proc.top, hex, Proc.halt]
      rw [hstep]
      refine ⟨⟨h.handlers, h.main, h.installed, fun _ => rfl, ?_⟩, ?_⟩
      · refine forall_mainQuiet_append h.log fun x hx => ?_
        cases hx
        intro _
        refine ⟨by simp, ?_⟩
        rintro ⟨⟩
        cases hs
      · simp [Solo.view, List.filter_append]
    | some r =>
      obtain ⟨v, t', a⟩ := r
      obtain ⟨hcount, hinst, hpass, hact⟩ :=
        exec_passive hs (fun x hx => h.main x (List.mem_cons_of_mem s hx)) hex
      have hstep : Solo.step prog ⟨⟨s :: t, [], vars, true⟩, log⟩ (.run env)
          = ⟨⟨t', [], v, true⟩, log ++ (a.map fun a => (⟨none, a⟩ : Event)).toList⟩ := by
        simp [Solo.step, Proc.run, Proc.top, hex, Proc.setTop]
      rw [hstep]
      refine ⟨⟨h.handlers, hpass, fun x => hinst ▸ h.installed x, by simp, ?_⟩, ?_⟩
      · refine forall_mainQuiet_append h.log fun x hx => ?_
        rw [Option.mem_def, Option.map_eq_some_iff] at hx
        obtain ⟨b, hb, rfl⟩ := hx
        exact fun _ => hact b hb
      · cases a <;> simp [Solo.view, hcount]

/-- A step of an active handler is a step of the machine. -/
theorem Calm.run_handler {main : List Stmt} {hd : Handler} {hs : List Handler} {vars : Vars}
    {log : List Event} (h : Calm ⟨⟨main, hd :: hs, vars, true⟩, log⟩) (prog : Program)
    (env : Env) :
    Calm (Solo.step prog ⟨⟨main, hd :: hs, vars, true⟩, log⟩ (.run env)) ∧
      (Solo.step prog ⟨⟨main, hd :: hs, vars, true⟩, log⟩ (.run env)).view
        = (Solo.view ⟨⟨main, hd :: hs, vars, true⟩, log⟩).tick := by
  obtain ⟨sig, todo⟩ := hd
  have hrest := fun x hx => h.handlers x (List.mem_cons_of_mem _ hx)
  cases todo with
  | nil =>
    have hstep : Solo.step prog ⟨⟨main, ⟨sig, []⟩ :: hs, vars, true⟩, log⟩ (.run env)
        = ⟨⟨main, hs, vars, true⟩, log⟩ := by simp [Solo.step, Proc.run, Proc.top]
    rw [hstep]
    exact ⟨⟨hrest, h.main, h.installed, by simp, h.log⟩, rfl⟩
  | cons s t =>
    have hself := h.handlers ⟨sig, s :: t⟩ List.mem_cons_self
    have hs1 := hself s List.mem_cons_self
    have ht := fun x hx => hself x (List.mem_cons_of_mem s hx)
    have hsame := exec_selfContained env vars t hs1
    have hquiet : ∀ a : Action, MainQuiet ⟨some sig, a⟩ := fun a h => by cases h
    cases hq : exec noEnv ⟨vars.count, [], []⟩ t s with
    | none =>
      have hex : exec env vars t s = none := by rw [hsame, hq]; rfl
      have hstep : Solo.step prog ⟨⟨main, ⟨sig, s :: t⟩ :: hs, vars, true⟩, log⟩ (.run env)
          = ⟨⟨main, [], vars, false⟩, log ++ (some (⟨some sig, .failed s⟩ : Event)).toList⟩ := by
        simp [Solo.step, Proc.run, Proc.top, hex, Proc.halt]
      rw [hstep]
      refine ⟨⟨by simp, h.main, h.installed, fun _ => rfl, ?_⟩, ?_⟩
      · exact forall_mainQuiet_append h.log fun x hx => by cases hx; exact hquiet _
      · simp [Solo.view, View.tick, hq, List.filter_append]
    | some r =>
      obtain ⟨v, t', a⟩ := r
      have hex : exec env vars t s = some ({ vars with count := v.count }, t', a) := by
        rw [hsame, hq]; rfl
      have hstep : Solo.step prog ⟨⟨main, ⟨sig, s :: t⟩ :: hs, vars, true⟩, log⟩ (.run env)
          = ⟨⟨main, ⟨sig, t'⟩ :: hs, { vars with count := v.count }, true⟩,
              log ++ (a.map fun a => (⟨some sig, a⟩ : Event)).toList⟩ := by
        simp [Solo.step, Proc.run, Proc.top, hex, Proc.setTop]
      rw [hstep]
      refine ⟨⟨?_, h.main, h.installed, by simp, ?_⟩, ?_⟩
      · intro x hx
        rcases List.mem_cons.mp hx with rfl | hx
        · exact exec_keeps_selfContained hs1 ht hex
        · exact hrest x hx
      · refine forall_mainQuiet_append h.log fun x hx => ?_
        rw [Option.mem_def, Option.map_eq_some_iff] at hx
        obtain ⟨b, -, rfl⟩ := hx
        exact hquiet b
      · cases a <;> simp [Solo.view, View.tick, hq]

/-- **One step of the process is one step of the machine** (none, if main runs). -/
theorem Calm.run {σ : Solo} (h : Calm σ) (prog : Program) (env : Env) :
    Calm (σ.step prog (.run env)) ∧ (σ.step prog (.run env)).view = σ.view.tick := by
  obtain ⟨⟨main, handlers, vars, alive⟩, log⟩ := σ
  cases alive with
  | false =>
    obtain rfl : handlers = [] := h.stopped rfl
    have hstep : Solo.step prog ⟨⟨main, [], vars, false⟩, log⟩ (.run env)
        = ⟨⟨main, [], vars, false⟩, log⟩ := by simp [Solo.step, Proc.run]
    rw [hstep]
    exact ⟨h, rfl⟩
  | true =>
    cases handlers with
    | nil => exact h.run_main prog env
    | cons hd hs => exact h.run_handler prog env

/-- **A signal** is lost on a stopped process or held back by its own handler, or it starts its
    handler in the machine too. -/
theorem Calm.signal {σ : Solo} (h : Calm σ) {prog : Program} (s : Signal)
    (hprog : ∀ x ∈ prog.handler s, x.selfContained = true) :
    Calm (σ.step prog (.signal s)) ∧
      (σ.step prog (.signal s) = σ ∨
        (σ.step prog (.signal s)).view = σ.view.push prog s) := by
  by_cases hno : σ.proc.alive = false ∨ s ∈ σ.proc.handlers.map Handler.sig
  · have hd : σ.proc.deliver prog s = (σ.proc, none) := by rw [Proc.deliver, if_pos hno]
    have hstep : σ.step prog (.signal s) = σ := by simp [Solo.step, hd]
    rw [hstep]
    exact ⟨h, Or.inl rfl⟩
  · have hd : σ.proc.deliver prog s = ({ σ.proc with
        handlers := ⟨s, prog.handler s⟩ :: σ.proc.handlers }, some (arrival s)) := by
      rw [Proc.deliver, if_neg hno, if_pos (h.installed s)]; rfl
    have hstep : σ.step prog (.signal s) = ⟨{ σ.proc with
        handlers := ⟨s, prog.handler s⟩ :: σ.proc.handlers }, σ.log ++ [arrival s]⟩ := by
      simp [Solo.step, hd]
    rw [hstep]
    refine ⟨⟨?_, h.main, h.installed, fun hdead => absurd (Or.inl hdead) hno, ?_⟩, Or.inr ?_⟩
    · intro x hx
      rcases List.mem_cons.mp hx with rfl | hx
      · exact hprog
      · exact h.handlers x hx
    · exact forall_mainQuiet_append (e := some (arrival s)) h.log
        fun x hx => by cases hx; intro ho; cases ho
    · simp [Solo.view, View.push, List.filter_append, arrival]

/-! ## Complete runs -/

/-- Running handlers records no arrivals. -/
theorem View.arrival_tick (x : View) (s : Signal) :
    arrival s ∈ x.tick.log ↔ arrival s ∈ x.log := by
  obtain ⟨count, handlers, log⟩ := x
  cases handlers with
  | nil => rfl
  | cons h hs =>
    obtain ⟨sig, todo⟩ := h
    cases todo with
    | nil => rfl
    | cons st t =>
      cases hq : exec noEnv ⟨count, [], []⟩ t st with
      | none => simp [View.tick, hq, arrival]
      | some r =>
        obtain ⟨v, t', a⟩ := r
        have hnd := exec_not_delivered hq
        cases a with
        | none => simp [View.tick, hq]
        | some a =>
          have hne : a ≠ .delivered := fun h => hnd (h ▸ rfl)
          simp [View.tick, hq, arrival, Ne.symm hne]

theorem View.arrival_ticks (x : View) (s : Signal) (n : Nat) :
    arrival s ∈ (View.tick^[n] x).log ↔ arrival s ∈ x.log := by
  induction n with
  | zero => rfl
  | succ n ih => rw [Function.iterate_succ_apply', View.arrival_tick, ih]

/-- With no active handler the machine stands still. -/
theorem View.tick_of_idle {x : View} (h : x.handlers = []) : x.tick = x := by
  rw [View.tick, h]

/-- Two moments at which no handler is active, with no signal in between, are the same. -/
theorem View.ticks_eq {x : View} {i n : Nat} (hi : (View.tick^[i] x).handlers = [])
    (hn : (View.tick^[n] x).handlers = []) : View.tick^[i] x = View.tick^[n] x := by
  rcases Nat.le_total i n with hle | hle
  · obtain ⟨d, rfl⟩ := Nat.exists_eq_add_of_le hle
    rw [Nat.add_comm, Function.iterate_add_apply, Function.iterate_fixed (View.tick_of_idle hi)]
  · obtain ⟨d, rfl⟩ := Nat.exists_eq_add_of_le hle
    rw [Nat.add_comm, Function.iterate_add_apply, Function.iterate_fixed (View.tick_of_idle hn)]

/-- The machine after a first signal and `j` steps. -/
def View.first (prog : Program) (s : Signal) (j : Nat) : View :=
  View.tick^[j] (View.empty.push prog s)

/-- The machine after a first signal, `j` steps, a second signal and `i` more steps. -/
def View.second (prog : Program) (s s' : Signal) (j i : Nat) : View :=
  View.tick^[i] ((View.first prog s j).push prog s')

/-- Where the machine can be if each signal arrives at most once, one allowed by `lead` first. -/
inductive Scheduled (prog : Program) (lead : Signal → Prop) : View → Prop
  | none : Scheduled prog lead View.empty
  | one {s : Signal} (j : Nat) : lead s → Scheduled prog lead (View.first prog s j)
  | two {s s' : Signal} (j i : Nat) : lead s → s ≠ s' →
      Scheduled prog lead (View.second prog s s' j i)

section Runs

variable {prog : Program} {lead : Signal → Prop}

theorem Scheduled.tick {x : View} (h : Scheduled prog lead x) : Scheduled prog lead x.tick := by
  cases h with
  | none => exact Scheduled.none
  | one j hs =>
    rw [View.first, ← Function.iterate_succ_apply' View.tick]
    exact Scheduled.one (j + 1) hs
  | two j i hs hne =>
    rw [View.second, ← Function.iterate_succ_apply' View.tick]
    exact Scheduled.two j (i + 1) hs hne

theorem arrival_first (s : Signal) (j : Nat) (a : Signal) :
    arrival a ∈ (View.first prog s j).log ↔ a = s := by
  rw [View.first, View.arrival_ticks]
  simp [View.push, View.empty, arrival]

theorem arrival_second (s s' : Signal) (j i : Nat) (a : Signal) :
    arrival a ∈ (View.second prog s s' j i).log ↔ a = s ∨ a = s' := by
  rw [View.second, View.arrival_ticks]
  simp only [View.push, List.mem_append, arrival_first, List.mem_singleton]
  simp [arrival]

/-- There are only two signals. -/
theorem eq_or_eq_of_ne {s s' : Signal} (h : s ≠ s') (a : Signal) : a = s ∨ a = s' := by
  cases s <;> cases s' <;> cases a <;> simp_all

theorem Scheduled.push {x : View} (h : Scheduled prog lead x) {s : Signal}
    (hnew : arrival s ∉ x.log) (hlead : (∀ a, arrival a ∉ x.log) → lead s) :
    Scheduled prog lead (x.push prog s) := by
  cases h with
  | none => exact Scheduled.one 0 (hlead (by simp [View.empty]))
  | @one s₀ j hs =>
    refine Scheduled.two j 0 hs fun heq => hnew ?_
    rw [arrival_first, heq]
  | @two s₀ s₁ j i hs hne =>
    rw [arrival_second] at hnew
    exact absurd (eq_or_eq_of_ne hne s) hnew

theorem arrival_mem_view {σ : Solo} {s : Signal} : arrival s ∈ σ.view.log ↔ arrival s ∈ σ.log := by
  simp [Solo.view, arrival]

/-- **Every run follows a schedule.** -/
theorem Reach.scheduled (lead : Signal → Prop) {allowed : Solo → Move → Prop}
    (hmain : ∀ s ∈ prog.main, s.passive = true) (hinst : ∀ s, s ∈ prog.installed)
    (hself : ∀ s, ∀ x ∈ prog.handler s, x.selfContained = true)
    (honce : ∀ σ s, allowed σ (.signal s) → arrival s ∉ σ.log)
    (hlead : ∀ σ s, allowed σ (.signal s) → (∀ a, arrival a ∉ σ.log) → lead s) {σ : Solo}
    (h : Reach (Solo.step prog) allowed (Solo.start prog) σ) :
    Calm σ ∧ Scheduled prog lead σ.view := by
  refine h.invariant (fun σ => Calm σ ∧ Scheduled prog lead σ.view)
    ⟨Calm.start hmain hinst, Scheduled.none⟩ ?_
  rintro σ (env | s) - ⟨hc, hsch⟩ hallow
  · obtain ⟨hc', hview⟩ := hc.run prog env
    exact ⟨hc', hview ▸ hsch.tick⟩
  · obtain ⟨hc', hsame | hview⟩ := hc.signal s (hself s)
    · rw [hsame]; exact ⟨hc, hsch⟩
    · refine ⟨hc', hview ▸ hsch.push ?_ fun hno => ?_⟩
      · rw [arrival_mem_view]; exact honce σ s hallow
      · exact hlead σ s hallow fun a ha => hno a (arrival_mem_view.mpr ha)

/-- **One choice decides a complete run**: after how many steps `j ≤ M` of the first handler the
    second signal arrives. -/
theorem settled_view {M N : Nat} (hM : ∀ s, (View.first prog s M).handlers = [])
    (hN : ∀ s s', ∀ j ≤ M, (View.second prog s s' j N).handlers = []) {σ : Solo}
    (hsch : Scheduled prog lead σ.view) (hset : σ.Settled) :
    ∃ s s', lead s ∧ s ≠ s' ∧ ∃ j ≤ M, σ.view = View.second prog s s' j N := by
  obtain ⟨h1, h2, hidle⟩ := hset
  rw [← arrival_mem_view] at h1 h2
  have hidle' : σ.view.handlers = [] := hidle
  generalize σ.view = x at hsch h1 h2 hidle'
  cases hsch with
  | none => simp [View.empty] at h1
  | one j hs =>
    rw [arrival_first] at h1 h2
    exact absurd (h1.trans h2.symm) (by decide)
  | @two s s' j i hs hne =>
    refine ⟨s, s', hs, hne, min j M, Nat.min_le_right _ _, ?_⟩
    have hj : View.first prog s (min j M) = View.first prog s j := by
      rcases Nat.le_total j M with hle | hle
      · rw [Nat.min_eq_left hle]
      · rw [Nat.min_eq_right hle]
        obtain ⟨d, rfl⟩ := Nat.exists_eq_add_of_le hle
        refine View.ticks_eq (hM s) ?_
        rw [Nat.add_comm, Function.iterate_add_apply]
        show (View.tick^[d] (View.first prog s M)).handlers = []
        rw [Function.iterate_fixed (View.tick_of_idle (hM s))]
        exact hM s
    have hfin := hN s s' (min j M) (Nat.min_le_right _ _)
    rw [View.second, hj] at hfin
    rw [View.second, View.second, hj]
    exact View.ticks_eq hidle' hfin

/-- Main contributes nothing to the output. -/
theorem Calm.output_view {σ : Solo} (h : Calm σ) (fd : Fd) :
    output fd σ.view.log = output fd σ.log := by
  have hlog := h.log
  show output fd (σ.log.filter _) = _
  generalize σ.log = log at hlog
  induction log with
  | nil => rfl
  | cons e log ih =>
    have ih := ih fun x hx => hlog x (List.mem_cons_of_mem e hx)
    cases ho : e.origin with
    | some s =>
      rw [List.filter_cons_of_pos (by simp [ho])]
      rw [output, List.flatMap_cons, output, List.flatMap_cons]
      exact congrArg _ ih
    | none =>
      rw [List.filter_cons_of_neg (by simp [ho]), ih]
      have hquiet := (hlog e List.mem_cons_self ho).1
      have hnil : e.output fd = [] := by
        rw [Event.output]
        split
        · rename_i fd' m hw
          exact absurd hw (hquiet fd' m)
        · rfl
      rw [output, output, List.flatMap_cons, hnil, List.nil_append]

/-- The order of handler events does not depend on main's. -/
theorem sublist_view {σ : Solo} {l : List Event} (hl : ∀ e ∈ l, e.origin.isSome = true) :
    l.Sublist σ.log ↔ l.Sublist σ.view.log := by
  constructor
  · intro h
    have hf := h.filter (fun e => e.origin.isSome)
    rwa [List.filter_eq_self.mpr hl] at hf
  · exact fun h => h.trans List.filter_sublist

end Runs

end QemuStudy.Controller
