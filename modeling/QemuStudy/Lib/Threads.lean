/-
  PROCESSES THAT SIGNALS INTERRUPT, over a world they share.

  A `Machine` says what straight-line code each thread of each process runs and what executing one
  instruction does: it is `done` (and something is recorded), it has to be executed `again` (a
  loop, a call that blocks), or it `stop`s the process.  The threads of a process are its main code
  and one handler per signal.  They form a STACK: a signal pushes its handler, only the top runs, a
  handler at its end is popped.  Everything else (sockets, clocks, what the environment may choose)
  is in the type `W` of worlds and the type `C` of choices, about which nothing is assumed.

  The state carries the history of what was done.  What this file provides:

  * `step_change`     — everything one step can do, thread by thread;
  * `Reach.each`      — invariants of one process and the history;
  * `Reach.recorded`  — invariants of the world and the history;
  * `Reach.inOrder`   — what a thread has done, followed by what it still has to do, is its code,
                        once per start;
  * `at_did`          — the state in which a recorded instruction was executed;
  * `before_did`      — by then the thread had done everything that stands before the instruction
                        in its code;
  * `started_before`  — and a handler had been started.

  So "x happened only after y" is proved by following the code inside a thread and the world between
  threads, with no look at the schedule.
-/
import Mathlib.Data.List.Infix
import Mathlib.Logic.Function.Basic
import QemuStudy.Lib.Runs

namespace QemuStudy.Threads

open QemuStudy.Runs

/-! ## Machines -/

/-- What executing an instruction comes to. -/
inductive Outcome (V L W D : Type*)
  /-- finished: globals, locals and world afterwards, and what is recorded -/
  | done (v : V) (l : L) (w : W) (d : D)
  /-- to be executed again -/
  | again
  /-- the process ends here -/
  | stop

/-- Roles `R`, signals `S`, instructions `I`, globals `V`, locals `L`, worlds `W`, choices of the
    environment `C`, recorded data `D`. -/
structure Machine (R S I V L W C D : Type*) where
  /-- the code of main (`none`) and of each handler -/
  code : R → Option S → List I
  exec : R → C → I → V → L → W → Outcome V L W D
  /-- is a handler installed? -/
  handles : V → S → Bool
  /-- globals and locals to start with -/
  vars : R → V
  locals : L
  /-- what happens to the world by itself -/
  drift : C → W → W

/-- A thread that has been started: remaining code, locals. -/
structure Frame (S I L : Type*) where
  origin : Option S
  todo : List I
  loc : L

/-- The running thread first, main last. -/
structure Proc (S I V L : Type*) where
  stack : List (Frame S I L)
  vars : V
  alive : Bool

inductive Event (I D : Type*)
  | started
  | killed
  | did (i : I) (d : D)
  | stopped (i : I)
  deriving DecidableEq

structure Entry (R S I D : Type*) where
  role : R
  thread : Option S
  event : Event I D
  deriving DecidableEq

structure State (R S I V L W D : Type*) where
  world : W
  proc : R → Proc S I V L
  log : List (Entry R S I D)

inductive Choice (R S C : Type*)
  | run (r : R) (c : C)
  | signal (r : R) (s : S)
  | drift (c : C)

variable {R S I V L W C D : Type*}

/-- The remaining code of a thread, `[]` if it is not active. -/
def todoIn [DecidableEq S] (o : Option S) : List (Frame S I L) → List I
  | [] => []
  | f :: fs => if f.origin = o then f.todo else todoIn o fs

/-- The locals of a thread. -/
def locIn [DecidableEq S] (l : L) (o : Option S) : List (Frame S I L) → L
  | [] => l
  | f :: fs => if f.origin = o then f.loc else locIn l o fs

section Steps

variable [DecidableEq R] [DecidableEq S] (M : Machine R S I V L W C D)

def Machine.startProc (r : R) : Proc S I V L := ⟨[⟨none, M.code r none, M.locals⟩], M.vars r, true⟩

def Machine.start (w : W) : State R S I V L W D := ⟨w, M.startProc, []⟩

def Proc.todoOf (p : Proc S I V L) (o : Option S) : List I := todoIn o p.stack

def Machine.locOf (p : Proc S I V L) (o : Option S) : L := locIn M.locals o p.stack

/-- The instruction that runs next, and the thread it belongs to. -/
def Proc.top (p : Proc S I V L) : Option (Option S × I) :=
  match p.stack with
  | ⟨o, i :: _, _⟩ :: _ => some (o, i)
  | _ => none

def Proc.halt (p : Proc S I V L) : Proc S I V L := ⟨p.stack, p.vars, false⟩

/-- One instruction of the thread on top of `p`: the process and the world afterwards, and what is
    recorded with the thread it belongs to. -/
def Machine.runProc (r : R) (c : C) (w : W) (p : Proc S I V L) :
    Proc S I V L × W × Option (Entry R S I D) :=
  if p.alive then
    match p.stack with
    | [] => (p, w, none)
    | ⟨o, i :: t, l⟩ :: fs =>
      match M.exec r c i p.vars l w with
      | .done v l' w' d => (⟨⟨o, t, l'⟩ :: fs, v, true⟩, w', some ⟨r, o, .did i d⟩)
      | .again => (p, w, none)
      | .stop => (p.halt, w, some ⟨r, o, .stopped i⟩)
    | ⟨_, [], _⟩ :: [] => (p, w, none)
    | ⟨_, [], _⟩ :: f :: fs => (⟨f :: fs, p.vars, p.alive⟩, w, none)
  else (p, w, none)

/-- A signal reaches `p`: its handler starts, unless it is active; without one the process ends. -/
def Machine.deliver (r : R) (s : S) (p : Proc S I V L) :
    Proc S I V L × Option (Entry R S I D) :=
  if p.alive = false ∨ some s ∈ p.stack.map Frame.origin then (p, none)
  else if M.handles p.vars s then
    (⟨⟨some s, M.code r (some s), M.locals⟩ :: p.stack, p.vars, p.alive⟩,
      some ⟨r, some s, .started⟩)
  else (p.halt, some ⟨r, some s, .killed⟩)

def Machine.step (σ : State R S I V L W D) : Choice R S C → State R S I V L W D
  | .run r c =>
    let res := M.runProc r c σ.world (σ.proc r)
    ⟨res.2.1, Function.update σ.proc r res.1, σ.log ++ res.2.2.toList⟩
  | .signal r s =>
    let res := M.deliver r s (σ.proc r)
    ⟨σ.world, Function.update σ.proc r res.1, σ.log ++ res.2.toList⟩
  | .drift c => ⟨M.drift c σ.world, σ.proc, σ.log⟩

end Steps

def Event.instr? : Event I D → Option I
  | .did i _ => some i
  | _ => none

def Event.isStart : Event I D → Bool
  | .started => true
  | _ => false

/-! ## What one step changes -/

section Threads

variable [DecidableEq S] {M : Machine R S I V L W C D}

/-- No thread is active twice. -/
def Proc.WF (p : Proc S I V L) : Prop := (p.stack.map Frame.origin).Nodup

/-- Thread `o` of `p` has moved on to the code `t` with locals `l`; the others are as they were. -/
structure Moved (M : Machine R S I V L W C D) (p p' : Proc S I V L) (o : Option S) (t : List I)
    (l : L) : Prop where
  todo : p'.todoOf = Function.update p.todoOf o t
  loc : M.locOf p' o = l
  frame : ∀ o', o' ≠ o → M.locOf p' o' = M.locOf p o'

/-- Nothing but the return of a handler has happened. -/
structure Same (M : Machine R S I V L W C D) (p p' : Proc S I V L) : Prop where
  todo : p'.todoOf = p.todoOf
  loc : ∀ o, p.todoOf o ≠ [] → M.locOf p' o = M.locOf p o
  vars : p'.vars = p.vars
  alive : p'.alive = p.alive

/-- Everything a step can do. -/
inductive Change (M : Machine R S I V L W C D) (σ σ' : State R S I V L W D) : Choice R S C → Prop
  | quiet {x : Choice R S C} (hworld : σ'.world = σ.world) (hlog : σ'.log = σ.log)
      (hsame : ∀ r, Same M (σ.proc r) (σ'.proc r)) : Change M σ σ' x
  | drifts {c : C} (hworld : σ'.world = M.drift c σ.world) (hlog : σ'.log = σ.log)
      (hproc : σ'.proc = σ.proc) : Change M σ σ' (.drift c)
  | does {r : R} {c : C} {o : Option S} {i : I} {t : List I} {v : V} {l : L} {w : W} {d : D}
      (hlive : (σ.proc r).alive = true) (htop : (σ.proc r).todoOf o = i :: t)
      (hexec : M.exec r c i (σ.proc r).vars (M.locOf (σ.proc r) o) σ.world = .done v l w d)
      (hmoved : Moved M (σ.proc r) (σ'.proc r) o t l) (hvars : (σ'.proc r).vars = v)
      (hlive' : (σ'.proc r).alive = true) (hframe : ∀ r', r' ≠ r → σ'.proc r' = σ.proc r')
      (hworld : σ'.world = w) (hlog : σ'.log = σ.log ++ [⟨r, o, .did i d⟩])
      (hnext : (σ.proc r).top = some (o, i)) : Change M σ σ' (.run r c)
  | stops {r : R} {c : C} {o : Option S} {i : I} {t : List I}
      (hlive : (σ.proc r).alive = true) (htop : (σ.proc r).todoOf o = i :: t)
      (hexec : M.exec r c i (σ.proc r).vars (M.locOf (σ.proc r) o) σ.world = .stop)
      (hdead : (σ'.proc r).alive = false) (hframe : ∀ r', r' ≠ r → σ'.proc r' = σ.proc r')
      (hworld : σ'.world = σ.world) (hlog : σ'.log = σ.log ++ [⟨r, o, .stopped i⟩])
      (hnext : (σ.proc r).top = some (o, i)) : Change M σ σ' (.run r c)
  | starts {r : R} {s : S}
      (hlive : (σ.proc r).alive = true) (hhandles : M.handles (σ.proc r).vars s = true)
      (hidle : (σ.proc r).todoOf (some s) = [])
      (hmoved : Moved M (σ.proc r) (σ'.proc r) (some s) (M.code r (some s)) M.locals)
      (hvars : (σ'.proc r).vars = (σ.proc r).vars) (hlive' : (σ'.proc r).alive = true)
      (hframe : ∀ r', r' ≠ r → σ'.proc r' = σ.proc r')
      (hworld : σ'.world = σ.world) (hlog : σ'.log = σ.log ++ [⟨r, some s, .started⟩]) :
      Change M σ σ' (.signal r s)
  | kills {r : R} {s : S}
      (hlive : (σ.proc r).alive = true) (hhandles : M.handles (σ.proc r).vars s = false)
      (hdead : (σ'.proc r).alive = false) (hframe : ∀ r', r' ≠ r → σ'.proc r' = σ.proc r')
      (hworld : σ'.world = σ.world) (hlog : σ'.log = σ.log ++ [⟨r, some s, .killed⟩]) :
      Change M σ σ' (.signal r s)

/-- The entry a step records tells what the step was. -/
theorem Change.of_entry {σ σ' : State R S I V L W D} {x : Choice R S C} (hc : Change M σ σ' x)
    {e : Entry R S I D} (hlog : σ'.log = σ.log ++ [e]) :
    (∃ r c o i t v l w d, x = .run r c ∧ e = ⟨r, o, .did i d⟩ ∧ (σ.proc r).alive = true ∧
      (σ.proc r).todoOf o = i :: t ∧
      M.exec r c i (σ.proc r).vars (M.locOf (σ.proc r) o) σ.world = .done v l w d) ∨
    (∃ r s, x = .signal r s ∧ e = ⟨r, some s, .started⟩ ∧ (σ.proc r).alive = true ∧
      M.handles (σ.proc r).vars s = true) ∨
    (e.event.instr? = none ∧ e.event.isStart = false) := by
  have hentry : ∀ {e' : Entry R S I D}, σ'.log = σ.log ++ [e'] → e = e' := fun he =>
    (List.cons.inj (List.append_cancel_left (hlog.symm.trans he))).1
  have hmore : σ'.log ≠ σ.log := by
    rw [hlog]
    simp
  cases hc with
  | quiet _ hsame _ => exact absurd hsame hmore
  | drifts _ hsame _ => exact absurd hsame hmore
  | stops _ _ _ _ _ _ he => exact Or.inr (Or.inr (hentry he ▸ ⟨rfl, rfl⟩))
  | kills _ _ _ _ _ he => exact Or.inr (Or.inr (hentry he ▸ ⟨rfl, rfl⟩))
  | does hlive htop hexec _ _ _ _ _ he =>
    exact Or.inl ⟨_, _, _, _, _, _, _, _, _, rfl, hentry he, hlive, htop, hexec⟩
  | starts hlive hhandles _ _ _ _ _ _ he =>
    exact Or.inr (Or.inl ⟨_, _, rfl, hentry he, hlive, hhandles⟩)

theorem todoIn_of_notMem {o : Option S} {fs : List (Frame S I L)}
    (h : o ∉ fs.map Frame.origin) : todoIn o fs = [] := by
  induction fs with
  | nil => rfl
  | cons f fs ih =>
    rw [List.map_cons, List.mem_cons, not_or] at h
    rw [todoIn, if_neg (Ne.symm h.1), ih h.2]

/-- Replacing the frame on top. -/
theorem moved_top {p : Proc S I V L} {f g : Frame S I L} {fs : List (Frame S I L)}
    (hp : p.stack = f :: fs) (ho : g.origin = f.origin) (v : V) (a : Bool) :
    Moved M p ⟨g :: fs, v, a⟩ f.origin g.todo g.loc where
  todo := by
    funext o
    by_cases h : f.origin = o
    · subst h
      rw [Function.update_self, Proc.todoOf, todoIn, if_pos ho]
    · rw [Function.update_of_ne (Ne.symm h), Proc.todoOf, Proc.todoOf, hp, todoIn, todoIn,
        if_neg (ho ▸ h), if_neg h]
  loc := by rw [Machine.locOf, locIn, if_pos ho]
  frame o h := by
    rw [Machine.locOf, Machine.locOf, hp, locIn, locIn, if_neg (ho ▸ Ne.symm h),
      if_neg (Ne.symm h)]

/-- A new frame on top. -/
theorem moved_push (p : Proc S I V L) (f : Frame S I L) (v : V) (a : Bool) :
    Moved M p ⟨f :: p.stack, v, a⟩ f.origin f.todo f.loc where
  todo := by
    funext o
    by_cases h : f.origin = o
    · subst h
      rw [Function.update_self, Proc.todoOf, todoIn, if_pos rfl]
    · rw [Function.update_of_ne (Ne.symm h), Proc.todoOf, todoIn, if_neg h]
      rfl
  loc := by rw [Machine.locOf, locIn, if_pos rfl]
  frame o h := by
    rw [Machine.locOf, locIn, if_neg (Ne.symm h)]
    rfl

/-- A finished handler that returns. -/
theorem same_pop {p : Proc S I V L} {o : Option S} {l : L} {fs : List (Frame S I L)}
    (hp : p.stack = ⟨o, [], l⟩ :: fs) (hwf : p.WF) : Same M p ⟨fs, p.vars, p.alive⟩ where
  todo := by
    rw [Proc.WF, hp, List.map_cons, List.nodup_cons] at hwf
    funext o'
    rw [Proc.todoOf, Proc.todoOf, hp, todoIn]
    by_cases h : o = o'
    · subst h
      rw [if_pos rfl, todoIn_of_notMem hwf.1]
    · rw [if_neg h]
  loc o' h := by
    have hne : o ≠ o' := by
      intro heq
      rw [Proc.todoOf, hp, todoIn, if_pos heq] at h
      exact h rfl
    rw [Machine.locOf, Machine.locOf, hp, locIn, if_neg hne]
  vars := rfl
  alive := rfl

theorem Same.refl (p : Proc S I V L) : Same M p p := ⟨rfl, fun _ _ => rfl, rfl, rfl⟩

/-- **What running a process can do.** -/
theorem runProc_cases {r : R} {c : C} {w : W} {p : Proc S I V L} (hwf : p.WF) :
    (M.runProc r c w p).1.WF ∧
    ((∃ p', M.runProc r c w p = (p', w, none) ∧ Same M p p') ∨
     (∃ o i t v l w' d p', p.alive = true ∧ p.top = some (o, i) ∧ p.todoOf o = i :: t ∧
        M.exec r c i p.vars (M.locOf p o) w = .done v l w' d ∧ Moved M p p' o t l ∧
        p'.vars = v ∧ p'.alive = true ∧
        M.runProc r c w p = (p', w', some ⟨r, o, .did i d⟩)) ∨
     (∃ o i t, p.alive = true ∧ p.top = some (o, i) ∧ p.todoOf o = i :: t ∧
        M.exec r c i p.vars (M.locOf p o) w = .stop ∧
        M.runProc r c w p = (p.halt, w, some ⟨r, o, .stopped i⟩))) := by
  have hstay : M.runProc r c w p = (p, w, none) → (M.runProc r c w p).1.WF ∧
      ∃ p', M.runProc r c w p = (p', w, none) ∧ Same M p p' := fun h =>
    ⟨by rw [h]; exact hwf, p, h, Same.refl p⟩
  cases halive : p.alive with
  | false =>
    obtain ⟨h, hsame⟩ := hstay (by rw [Machine.runProc, halive]; rfl)
    exact ⟨h, Or.inl hsame⟩
  | true =>
    match hstack : p.stack with
    | [] =>
      obtain ⟨h, hsame⟩ := hstay (by rw [Machine.runProc, if_pos halive, hstack])
      exact ⟨h, Or.inl hsame⟩
    | ⟨o, [], l⟩ :: [] =>
      obtain ⟨h, hsame⟩ := hstay (by rw [Machine.runProc, if_pos halive, hstack])
      exact ⟨h, Or.inl hsame⟩
    | ⟨o, [], l⟩ :: f :: fs =>
      have hres : M.runProc r c w p = (⟨f :: fs, p.vars, p.alive⟩, w, none) := by
        rw [Machine.runProc, if_pos halive, hstack]
      refine ⟨?_, Or.inl ⟨_, hres, same_pop hstack hwf⟩⟩
      rw [Proc.WF, hstack, List.map_cons, List.nodup_cons] at hwf
      rw [hres]
      exact hwf.2
    | ⟨o, i :: t, l⟩ :: fs =>
      have hnext : p.top = some (o, i) := by rw [Proc.top, hstack]
      have htop : p.todoOf o = i :: t := by rw [Proc.todoOf, hstack, todoIn, if_pos rfl]
      have hloc : M.locOf p o = l := by rw [Machine.locOf, hstack, locIn, if_pos rfl]
      have hrun : M.runProc r c w p = match M.exec r c i p.vars l w with
          | .done v l' w' d => (⟨⟨o, t, l'⟩ :: fs, v, true⟩, w', some ⟨r, o, .did i d⟩)
          | .again => (p, w, none)
          | .stop => (p.halt, w, some ⟨r, o, .stopped i⟩) := by
        rw [Machine.runProc, if_pos halive, hstack]
      rw [← hloc] at hrun
      cases hexec : M.exec r c i p.vars (M.locOf p o) w with
      | again =>
        rw [hexec] at hrun
        obtain ⟨h, hsame⟩ := hstay hrun
        exact ⟨h, Or.inl hsame⟩
      | stop =>
        rw [hexec] at hrun
        refine ⟨by rw [hrun]; exact hwf, Or.inr (Or.inr ⟨o, i, t, rfl, hnext, htop, hexec,
          hrun⟩)⟩
      | done v l' w' d =>
        rw [hexec] at hrun
        refine ⟨?_, Or.inr (Or.inl ⟨o, i, t, v, l', w', d, _, rfl, hnext, htop, hexec, ?_, rfl,
          rfl, hrun⟩)⟩
        · rw [Proc.WF, hstack] at hwf
          rw [hrun]
          exact hwf
        · exact moved_top (g := ⟨o, t, l'⟩) hstack rfl v true

/-- **What a signal can do.** -/
theorem deliver_cases {r : R} {s : S} {p : Proc S I V L} (hwf : p.WF) :
    (M.deliver r s p).1.WF ∧
    (M.deliver r s p = (p, none) ∨
     (p.alive = true ∧ M.handles p.vars s = true ∧ p.todoOf (some s) = [] ∧
        ∃ p', Moved M p p' (some s) (M.code r (some s)) M.locals ∧ p'.vars = p.vars ∧
          p'.alive = true ∧ M.deliver r s p = (p', some ⟨r, some s, .started⟩)) ∨
     (p.alive = true ∧ M.handles p.vars s = false ∧
        M.deliver r s p = (p.halt, some ⟨r, some s, .killed⟩))) := by
  by_cases hbusy : p.alive = false ∨ some s ∈ p.stack.map Frame.origin
  · have hres : M.deliver r s p = (p, none) := by rw [Machine.deliver, if_pos hbusy]
    exact ⟨by rw [hres]; exact hwf, Or.inl hres⟩
  · have hfree := not_or.mp hbusy
    have halive : p.alive = true := Bool.not_eq_false _ ▸ hfree.1
    cases hhandles : M.handles p.vars s with
    | true =>
      have hres : M.deliver r s p = (⟨⟨some s, M.code r (some s), M.locals⟩ :: p.stack, p.vars,
          p.alive⟩, some ⟨r, some s, .started⟩) := by
        rw [Machine.deliver, if_neg hbusy, if_pos hhandles]
      refine ⟨?_, Or.inr (Or.inl ⟨halive, rfl, todoIn_of_notMem hfree.2, _,
        moved_push p ⟨some s, M.code r (some s), M.locals⟩ _ _, rfl, halive, hres⟩)⟩
      rw [hres]
      exact List.nodup_cons.mpr ⟨hfree.2, hwf⟩
    | false =>
      have hres : M.deliver r s p = (p.halt, some ⟨r, some s, .killed⟩) := by
        rw [Machine.deliver, if_neg hbusy, if_neg (by rw [hhandles]; exact Bool.false_ne_true)]
      exact ⟨by rw [hres]; exact hwf, Or.inr (Or.inr ⟨halive, rfl, hres⟩)⟩

end Threads

section Process

variable [DecidableEq S] {M : Machine R S I V L W C D}

/-- A property of a process and of the record of the system that every step keeps while the process
    lives: the cases are what the process itself can do, and an entry of somebody else. -/
structure Kept (M : Machine R S I V L W C D)
    (P : R → Proc S I V L → List (Entry R S I D) → Prop) : Prop where
  start : ∀ r, P r (M.startProc r) []
  same : ∀ r p p' log, Same M p p' → P r p log → P r p' log
  other : ∀ r p log (x : Entry R S I D), x.role ≠ r → P r p log → P r p (log ++ [x])
  does : ∀ r c o i t v l w w' d p p' log, P r p log → p.todoOf o = i :: t →
    M.exec r c i p.vars (M.locOf p o) w = .done v l w' d → Moved M p p' o t l → p'.vars = v →
    P r p' (log ++ [⟨r, o, .did i d⟩])
  starts : ∀ r s p p' log, P r p log → M.handles p.vars s = true →
    Moved M p p' (some s) (M.code r (some s)) M.locals → p'.vars = p.vars →
    P r p' (log ++ [⟨r, some s, .started⟩])

/-- What a thread has to do is the end of its code. -/
theorem todo_suffix_kept :
    Kept M fun r p (_ : List (Entry R S I D)) => ∀ o, p.todoOf o <:+ M.code r o := by
  refine ⟨fun r o => ?_, fun r p p' log hsame ih o => hsame.todo ▸ ih o,
    fun r p log x _ ih => ih, fun r c o i t v l w w' d p p' log ih htop _ hmoved _ o' => ?_,
    fun r s p p' log ih _ hmoved _ o' => ?_⟩
  · cases o with
    | none =>
      have hall : (M.startProc r).todoOf none = M.code r none := by
        simp [Machine.startProc, Proc.todoOf, todoIn]
      rw [hall]
    | some s => exact List.nil_suffix
  · rw [hmoved.todo]
    by_cases ho : o' = o
    · subst ho
      rw [Function.update_self]
      exact (List.suffix_cons i t).trans (htop ▸ ih o')
    · rw [Function.update_of_ne ho]
      exact ih o'
  · rw [hmoved.todo]
    by_cases ho : o' = some s
    · subst ho
      rw [Function.update_self]
    · rw [Function.update_of_ne ho]
      exact ih o'

end Process

section System

variable [DecidableEq R] {M : Machine R S I V L W C D}

/-- The step of one party, seen from the whole system. -/
theorem same_update [DecidableEq S] {σ : State R S I V L W D} {r : R} {p : Proc S I V L}
    (h : Same M (σ.proc r) p) (r' : R) : Same M (σ.proc r') (Function.update σ.proc r p r') := by
  by_cases hr : r' = r
  · subst hr
    rw [Function.update_self]
    exact h
  · rw [Function.update_of_ne hr]
    exact Same.refl _

theorem wf_update {σ : State R S I V L W D} (hwf : ∀ r, (σ.proc r).WF) {r : R}
    {p : Proc S I V L} (hp : p.WF) (r' : R) : (Function.update σ.proc r p r').WF := by
  by_cases hr : r' = r
  · subst hr
    rw [Function.update_self]
    exact hp
  · rw [Function.update_of_ne hr]
    exact hwf r'

variable [DecidableEq S]

/-- **The step lemma.** -/
theorem step_change {σ : State R S I V L W D} (hwf : ∀ r, (σ.proc r).WF) (x : Choice R S C) :
    (∀ r, ((M.step σ x).proc r).WF) ∧ Change M σ (M.step σ x) x := by
  cases x with
  | drift c => exact ⟨hwf, Change.drifts rfl rfl rfl⟩
  | run r c =>
    obtain ⟨hwf', hcases⟩ := runProc_cases (M := M) (r := r) (c := c) (w := σ.world) (hwf r)
    refine ⟨wf_update hwf hwf', ?_⟩
    have hself : (M.step σ (.run r c)).proc r = (M.runProc r c σ.world (σ.proc r)).1 :=
      Function.update_self _ _ _
    have hframe : ∀ r', r' ≠ r → (M.step σ (.run r c)).proc r' = σ.proc r' := fun r' h =>
      Function.update_of_ne h _ _
    have hlog : (M.step σ (.run r c)).log
        = σ.log ++ (M.runProc r c σ.world (σ.proc r)).2.2.toList := rfl
    have hworld : (M.step σ (.run r c)).world = (M.runProc r c σ.world (σ.proc r)).2.1 := rfl
    rcases hcases with ⟨p', hres, hsame⟩ |
      ⟨o, i, t, v, l, w', d, p', halive, hnext, htop, hexec, hmoved, hvars, halive', hres⟩ |
      ⟨o, i, t, halive, hnext, htop, hexec, hres⟩
    · rw [hres] at hlog hworld
      refine Change.quiet hworld ?_ fun r' => ?_
      · rw [hlog, Option.toList_none, List.append_nil]
      · rw [Machine.step, hres]
        exact same_update hsame r'
    · rw [hres] at hlog hworld hself
      exact Change.does halive htop hexec (hself ▸ hmoved) (hself ▸ hvars) (hself ▸ halive') hframe
        hworld hlog hnext
    · rw [hres] at hlog hworld hself
      exact Change.stops halive htop hexec (hself ▸ rfl) hframe hworld hlog hnext
  | signal r s =>
    obtain ⟨hwf', hcases⟩ := deliver_cases (M := M) (r := r) (s := s) (hwf r)
    refine ⟨wf_update hwf hwf', ?_⟩
    have hself : (M.step σ (.signal r s)).proc r = (M.deliver r s (σ.proc r)).1 :=
      Function.update_self _ _ _
    have hframe : ∀ r', r' ≠ r → (M.step σ (.signal r s)).proc r' = σ.proc r' := fun r' h =>
      Function.update_of_ne h _ _
    have hlog : (M.step σ (.signal r s)).log = σ.log ++ (M.deliver r s (σ.proc r)).2.toList := rfl
    rcases hcases with hres |
      ⟨halive, hhandles, hidle, p', hmoved, hvars, halive', hres⟩ | ⟨halive, hhandles, hres⟩
    · rw [hres] at hlog
      refine Change.quiet rfl ?_ fun r' => ?_
      · rw [hlog, Option.toList_none, List.append_nil]
      · rw [Machine.step, hres]
        exact same_update (Same.refl _) r'
    · rw [hres] at hlog hself
      exact Change.starts halive hhandles hidle (hself ▸ hmoved) (hself ▸ hvars) (hself ▸ halive')
        hframe rfl hlog
    · rw [hres] at hlog hself
      exact Change.kills halive hhandles (hself ▸ rfl) hframe rfl hlog

theorem wf_of_reach {allowed : State R S I V L W D → Choice R S C → Prop} {w : W}
    {σ : State R S I V L W D} (h : Reach M.step allowed (M.start w) σ) (r : R) :
    (σ.proc r).WF := by
  revert r
  refine Reach.invariant (fun σ => ∀ r, (σ.proc r).WF) ?_ (fun σ x _ hwf _ => ?_) h
  · intro r
    exact List.nodup_cons.mpr ⟨List.not_mem_nil, List.nodup_nil⟩
  · exact (step_change hwf x).1

/-- Every step of a run is one of the changes. -/
theorem Reach.change {allowed : State R S I V L W D → Choice R S C → Prop} {w : W}
    {σ : State R S I V L W D} (h : Reach M.step allowed (M.start w) σ) (x : Choice R S C) :
    Change M σ (M.step σ x) x :=
  (step_change (wf_of_reach h) x).2

/-- **The invariant rule for one process.** -/
theorem Reach.each {P : R → Proc S I V L → List (Entry R S I D) → Prop} (hk : Kept M P)
    {allowed : State R S I V L W D → Choice R S C → Prop} {w : W} {σ : State R S I V L W D}
    (h : Reach M.step allowed (M.start w) σ) :
    ∀ r, (σ.proc r).alive = true → P r (σ.proc r) σ.log := by
  refine Reach.invariant (fun σ => ∀ r, (σ.proc r).alive = true → P r (σ.proc r) σ.log)
    (fun r _ => hk.start r) (fun σ x hr ih _ r hlive => ?_) h
  -- the step of another process
  have hother : ∀ {σ' : State R S I V L W D} {r' : R} {o : Option S} {e : Event I D},
      (σ'.proc r).alive = true → r ≠ r' → (∀ r'', r'' ≠ r' → σ'.proc r'' = σ.proc r'') →
      σ'.log = σ.log ++ [⟨r', o, e⟩] → P r (σ'.proc r) σ'.log := by
    intro σ' r' o e hlive' hne hframe hlog
    rw [hframe r hne] at hlive' ⊢
    rw [hlog]
    exact hk.other _ _ _ _ (Ne.symm hne) (ih r hlive')
  have hdead : ∀ {σ' : State R S I V L W D} {r' : R}, (σ'.proc r).alive = true →
      (σ'.proc r').alive = false → r ≠ r' := by
    rintro σ' r' hl hd rfl
    rw [hd] at hl
    cases hl
  cases Reach.change hr x with
  | quiet _ hlog hsame =>
    rw [(hsame r).alive] at hlive
    rw [hlog]
    exact hk.same _ _ _ _ (hsame r) (ih r hlive)
  | drifts _ hlog hproc =>
    rw [hproc] at hlive ⊢
    rw [hlog]
    exact ih r hlive
  | @does r' c o i t v l w d hlive' htop hexec hmoved hvars _ hframe _ hlog =>
    by_cases he : r = r'
    · subst he
      rw [hlog]
      exact hk.does _ _ _ _ _ _ _ _ _ _ _ _ _ (ih r hlive') htop hexec hmoved hvars
    · exact hother hlive he hframe hlog
  | @starts r' s hlive' hhandles _ hmoved hvars _ hframe _ hlog =>
    by_cases he : r = r'
    · subst he
      rw [hlog]
      exact hk.starts _ _ _ _ _ (ih r hlive') hhandles hmoved hvars
    · exact hother hlive he hframe hlog
  | stops _ _ _ hd hframe _ hlog => exact hother hlive (hdead hlive hd) hframe hlog
  | kills _ _ hd hframe _ hlog => exact hother hlive (hdead hlive hd) hframe hlog

/-- An invariant of the world and the history: what passes by itself keeps it, so does every
    instruction that is done, and entries that are no instruction do not matter to it. -/
theorem Reach.recorded (P : W → List (Entry R S I D) → Prop)
    {allowed : State R S I V L W D → Choice R S C → Prop} {w₀ : W} (hstart : P w₀ [])
    (hdrift : ∀ {c w log}, P w log → P (M.drift c w) log)
    (hother : ∀ {w log} {e : Entry R S I D}, e.event.instr? = none → P w log → P w (log ++ [e]))
    (hdoes : ∀ {σ r c o i t v l w d}, Reach M.step allowed (M.start w₀) σ → P σ.world σ.log →
      (σ.proc r).alive = true → (σ.proc r).todoOf o = i :: t →
      M.exec r c i (σ.proc r).vars (M.locOf (σ.proc r) o) σ.world = .done v l w d →
      P w (σ.log ++ [⟨r, o, .did i d⟩]))
    {σ : State R S I V L W D} (h : Reach M.step allowed (M.start w₀) σ) : P σ.world σ.log := by
  refine Reach.invariant (fun σ => P σ.world σ.log) hstart (fun σ x hr ih _ => ?_) h
  cases Reach.change hr x with
  | quiet hworld hlog _ =>
    rw [hworld, hlog]
    exact ih
  | drifts hworld hlog _ =>
    rw [hworld, hlog]
    exact hdrift ih
  | does hlive htop hexec _ _ _ _ hworld hlog =>
    rw [hworld, hlog]
    exact hdoes hr ih hlive htop hexec
  | stops _ _ _ _ _ hworld hlog =>
    rw [hworld, hlog]
    exact hother rfl ih
  | kills _ _ _ _ hworld hlog =>
    rw [hworld, hlog]
    exact hother rfl ih
  | starts _ _ _ _ _ _ _ hworld hlog =>
    rw [hworld, hlog]
    exact hother rfl ih

theorem records : Records M.step (State.log : State R S I V L W D → List (Entry R S I D)) := by
  intro σ x
  cases x with
  | drift c => exact Or.inl rfl
  | run r c =>
    cases hres : (M.runProc r c σ.world (σ.proc r)).2.2 with
    | none => exact Or.inl (by simp [Machine.step, hres])
    | some e => exact Or.inr ⟨e, by simp [Machine.step, hres]⟩
  | signal r s =>
    cases hres : (M.deliver r s (σ.proc r)).2 with
    | none => exact Or.inl (by simp [Machine.step, hres])
    | some e => exact Or.inr ⟨e, by simp [Machine.step, hres]⟩

end System

/-! ## What a thread has done -/

section History

variable [DecidableEq R] [DecidableEq S]

/-- The instructions thread `o` of `r` has done, in order. -/
def didOf (r : R) (o : Option S) (log : List (Entry R S I D)) : List I :=
  log.filterMap fun x => if x.role = r ∧ x.thread = o then x.event.instr? else none

/-- How often a thread was started; main starts with the process. -/
def starts (r : R) : Option S → List (Entry R S I D) → Nat
  | none, _ => 1
  | some s, log => log.countP fun x => decide (x.role = r ∧ x.thread = some s) && x.event.isStart

theorem didOf_append (r : R) (o : Option S) (l l' : List (Entry R S I D)) :
    didOf r o (l ++ l') = didOf r o l ++ didOf r o l' := List.filterMap_append

theorem didOf_single (r : R) (o : Option S) (e : Event I D) :
    didOf r o [⟨r, o, e⟩] = e.instr?.toList := by
  cases e <;> simp [didOf, Event.instr?]

theorem didOf_single_of_ne {r r' : R} {o o' : Option S} (h : ¬ (r' = r ∧ o' = o)) (e : Event I D) :
    didOf r o [⟨r', o', e⟩] = [] := by
  simp [didOf, h]

theorem didOf_single_of_none {e : Event I D} (h : e.instr? = none) (r r' : R) (o o' : Option S) :
    didOf r o [⟨r', o', e⟩] = [] := by
  simp [didOf, h]

theorem starts_append_of_not_start {r r' : R} {o o' : Option S} {e : Event I D}
    (h : e.isStart = false) (l : List (Entry R S I D)) :
    starts r o (l ++ [⟨r', o', e⟩]) = starts r o l := by
  cases o with
  | none => rfl
  | some s => simp [starts, h]

theorem starts_append_start (r r' : R) (o : Option S) (s : S) (l : List (Entry R S I D)) :
    starts r o (l ++ [⟨r', some s, .started⟩])
      = starts r o l + if r' = r ∧ some s = o then 1 else 0 := by
  cases o with
  | none => simp [starts]
  | some s' =>
    by_cases h : r' = r ∧ s = s'
    · simp [starts, Event.isStart, h]
    · simp [starts, h]

/-- A start is on record. -/
theorem mem_of_starts {r : R} {s : S} {log : List (Entry R S I D)}
    (h : starts r (some s) log ≠ 0) : (⟨r, some s, .started⟩ : Entry R S I D) ∈ log := by
  rw [starts, ne_eq, List.countP_eq_zero] at h
  push Not at h
  obtain ⟨⟨r', o', e⟩, hx, hcond⟩ := h
  simp only [Bool.and_eq_true, decide_eq_true_eq] at hcond
  obtain ⟨⟨rfl, rfl⟩, he⟩ := hcond
  cases e with
  | started => exact hx
  | _ => cases he

theorem mem_didOf {r : R} {o : Option S} {i : I} {log : List (Entry R S I D)} :
    i ∈ didOf r o log ↔ ∃ d, (⟨r, o, .did i d⟩ : Entry R S I D) ∈ log := by
  rw [didOf, List.mem_filterMap]
  constructor
  · rintro ⟨⟨r', o', e⟩, hx, hi⟩
    by_cases h : r' = r ∧ o' = o
    · obtain ⟨rfl, rfl⟩ := h
      rw [if_pos ⟨rfl, rfl⟩] at hi
      cases e with
      | did j d =>
        obtain rfl : j = i := Option.some.inj hi
        exact ⟨d, hx⟩
      | _ => cases hi
    · rw [if_neg h] at hi
      cases hi
  · rintro ⟨d, hx⟩
    exact ⟨_, hx, by rw [if_pos ⟨rfl, rfl⟩]; rfl⟩

/-- What was done once was recorded once. -/
theorem eq_of_count_didOf_le_one [DecidableEq I] {r : R} {o : Option S} {i : I} {d d' : D}
    {log : List (Entry R S I D)} (hcount : (didOf r o log).count i ≤ 1)
    (hx : (⟨r, o, .did i d⟩ : Entry R S I D) ∈ log)
    (hx' : (⟨r, o, .did i d'⟩ : Entry R S I D) ∈ log) : d = d' := by
  obtain ⟨l₁, l₂, rfl⟩ := List.append_of_mem hx
  have hone : (didOf r o [(⟨r, o, .did i d⟩ : Entry R S I D)]).count i = 1 := by
    rw [didOf_single]
    simp [Event.instr?]
  rw [← List.singleton_append, didOf_append, didOf_append, List.count_append, List.count_append,
    hone] at hcount
  have hnot : ∀ l : List (Entry R S I D), (didOf r o l).count i = 0 →
      (⟨r, o, .did i d'⟩ : Entry R S I D) ∉ l := fun l hl hmem =>
    List.count_eq_zero.mp hl (mem_didOf.mpr ⟨d', hmem⟩)
  rcases List.mem_append.mp hx' with hl | hl
  · exact absurd hl (hnot l₁ (by omega))
  · rcases List.mem_cons.mp hl with heq | hl
    · cases heq
      rfl
    · exact absurd hl (hnot l₂ (by omega))

end History

section Record

variable [DecidableEq R]

/-- The instructions of `r` that `p` is about, with what was recorded. -/
def ops (p : I → Bool) (r : R) (log : List (Entry R S I D)) : List (I × D) :=
  log.filterMap fun x => match x.event with
    | .did i d => if x.role = r ∧ p i = true then some (i, d) else none
    | _ => none

theorem ops_append (p : I → Bool) (r : R) (l l' : List (Entry R S I D)) :
    ops p r (l ++ l') = ops p r l ++ ops p r l' := List.filterMap_append

theorem ops_did (p : I → Bool) (r r' : R) (o : Option S) (i : I) (d : D) :
    ops p r [⟨r', o, .did i d⟩] = if r' = r ∧ p i = true then [(i, d)] else [] := by
  rw [ops, List.filterMap_cons, List.filterMap_nil]
  split <;> simp_all

theorem ops_of_not_did (p : I → Bool) (r r' : R) (o : Option S) {e : Event I D}
    (h : e.instr? = none) : ops p r [⟨r', o, e⟩] = [] := by
  cases e with
  | did i d => cases h
  | _ => rfl

theorem mem_ops {p : I → Bool} {r : R} {log : List (Entry R S I D)} {i : I} {d : D} :
    (i, d) ∈ ops p r log ↔ p i = true ∧ ∃ o, (⟨r, o, .did i d⟩ : Entry R S I D) ∈ log := by
  rw [ops, List.mem_filterMap]
  constructor
  · rintro ⟨⟨r', o, e⟩, hx, he⟩
    cases e with
    | did j d' =>
      dsimp only at he
      split at he
      · rename_i hc
        obtain ⟨rfl, hp⟩ := hc
        cases he
        exact ⟨hp, o, hx⟩
      · cases he
    | _ => cases he
  · rintro ⟨hp, o, hx⟩
    exact ⟨_, hx, if_pos ⟨rfl, hp⟩⟩

/-- If one thread does all of them, they are in its order. -/
theorem ops_map_fst [DecidableEq S] {p : I → Bool} {r : R} {o : Option S}
    {log : List (Entry R S I D)}
    (h : ∀ o' i d, (⟨r, o', .did i d⟩ : Entry R S I D) ∈ log → p i = true → o' = o) :
    (ops p r log).map Prod.fst = (didOf r o log).filter p := by
  induction log with
  | nil => rfl
  | cons x log ih =>
    have hrest := ih fun o' i d hx => h o' i d (List.mem_cons_of_mem x hx)
    rw [← List.singleton_append, ops_append, didOf_append, List.map_append, List.filter_append,
      hrest]
    congr 1
    obtain ⟨r', o', e⟩ := x
    cases e with
    | did i d =>
      rw [ops_did]
      by_cases hr : r' = r ∧ p i = true
      · obtain ⟨rfl, hp⟩ := hr
        obtain rfl := h o' i d List.mem_cons_self hp
        rw [if_pos ⟨rfl, hp⟩, didOf_single]
        simp [Event.instr?, hp]
      · rw [if_neg hr]
        by_cases hthread : r' = r ∧ o' = o
        · obtain ⟨rfl, rfl⟩ := hthread
          rw [didOf_single]
          simpa [Event.instr?] using hr
        · rw [didOf_single_of_ne hthread]
          rfl
    | _ =>
      rw [ops_of_not_did p r r' o' rfl, didOf_single_of_none rfl]
      rfl

end Record

section Order

variable [DecidableEq R] [DecidableEq S]

variable {M : Machine R S I V L W C D}

/-- What a thread has done and what it has to do: its code, once per start.  Of a process that has
    ended only the first part is known. -/
def InOrder (M : Machine R S I V L W C D) (σ : State R S I V L W D) : Prop :=
  ∀ r o, ∃ rest, didOf r o σ.log ++ rest
      = (List.replicate (starts r o σ.log) (M.code r o)).flatten ∧
    ((σ.proc r).alive = true → rest = (σ.proc r).todoOf o)

/-- A step that ends `r` leaves everybody's record alone. -/
theorem InOrder.of_dead {σ σ' : State R S I V L W D} (h : InOrder M σ) {r : R} {o : Option S}
    {e : Event I D} (hi : e.instr? = none) (hs : e.isStart = false)
    (hdead : (σ'.proc r).alive = false) (hframe : ∀ r', r' ≠ r → σ'.proc r' = σ.proc r')
    (hlog : σ'.log = σ.log ++ [⟨r, o, e⟩]) : InOrder M σ' := by
  intro r' o'
  obtain ⟨rest, hrest, halive⟩ := h r' o'
  refine ⟨rest, ?_, fun hl => ?_⟩
  · rw [hlog, didOf_append, didOf_single_of_none hi, List.append_nil,
      starts_append_of_not_start hs]
    exact hrest
  · by_cases hr : r' = r
    · subst hr
      rw [hdead] at hl
      cases hl
    · rw [hframe r' hr] at hl ⊢
      exact halive hl

theorem InOrder.step {σ σ' : State R S I V L W D} {x : Choice R S C} (h : InOrder M σ)
    (hc : Change M σ σ' x) : InOrder M σ' := by
  cases hc with
  | quiet _ hlog hsame =>
    intro r o
    rw [hlog, (hsame r).todo, (hsame r).alive]
    exact h r o
  | drifts _ hlog hproc =>
    intro r o
    rw [hlog, hproc]
    exact h r o
  | stops _ _ _ hdead hframe _ hlog => exact h.of_dead rfl rfl hdead hframe hlog
  | kills _ _ hdead hframe _ hlog => exact h.of_dead rfl rfl hdead hframe hlog
  | @does r c o i t v l w d hlive htop _ hmoved _ _ hframe _ hlog =>
    intro r' o'
    obtain ⟨rest, hrest, halive⟩ := h r' o'
    rw [hlog, didOf_append, starts_append_of_not_start rfl]
    by_cases hr : r = r'
    · subst hr
      by_cases ho : o = o'
      · -- the instruction moves from the code to the record
        subst ho
        refine ⟨t, ?_, fun _ => by rw [hmoved.todo, Function.update_self]⟩
        rw [halive hlive, htop] at hrest
        rw [didOf_single, List.append_assoc]
        exact hrest
      · refine ⟨rest, ?_, fun _ => ?_⟩
        · rw [didOf_single_of_ne fun hh => ho hh.2, List.append_nil]
          exact hrest
        · rw [hmoved.todo, Function.update_of_ne (Ne.symm ho)]
          exact halive hlive
    · refine ⟨rest, ?_, fun hl => ?_⟩
      · rw [didOf_single_of_ne fun hh => hr hh.1, List.append_nil]
        exact hrest
      · rw [hframe r' (Ne.symm hr)] at hl ⊢
        exact halive hl
  | @starts r s hlive _ hidle hmoved _ _ hframe _ hlog =>
    intro r' o'
    obtain ⟨rest, hrest, halive⟩ := h r' o'
    rw [hlog, didOf_append, didOf_single_of_none rfl, List.append_nil, starts_append_start]
    by_cases hr : r = r'
    · subst hr
      by_cases ho : some s = o'
      · -- one more round
        subst ho
        refine ⟨M.code r (some s), ?_, fun _ => by rw [hmoved.todo, Function.update_self]⟩
        rw [halive hlive, hidle, List.append_nil] at hrest
        rw [if_pos ⟨rfl, rfl⟩, List.replicate_succ', List.flatten_append, ← hrest]
        simp
      · refine ⟨rest, ?_, fun _ => ?_⟩
        · rw [if_neg fun hh => ho hh.2]
          exact hrest
        · rw [hmoved.todo, Function.update_of_ne (Ne.symm ho)]
          exact halive hlive
    · refine ⟨rest, ?_, fun hl => ?_⟩
      · rw [if_neg fun hh => hr hh.1]
        exact hrest
      · rw [hframe r' (Ne.symm hr)] at hl ⊢
        exact halive hl

variable {allowed : State R S I V L W D → Choice R S C → Prop} {w₀ : W}
  {σ : State R S I V L W D}

/-- **The order of a thread.** -/
theorem Reach.inOrder (h : Reach M.step allowed (M.start w₀) σ) : InOrder M σ := by
  refine Reach.invariant (InOrder M) (fun r o => ?_)
    (fun σ x hr hi _ => hi.step (Reach.change hr x)) h
  cases o with
  | none =>
    refine ⟨_, ?_, fun _ => rfl⟩
    simp [didOf, Machine.start, starts, Machine.startProc, Proc.todoOf, todoIn]
  | some s => exact ⟨[], by simp [didOf, Machine.start, starts], fun _ => rfl⟩

/-- **Where a thread stands**: it has finished some rounds and is inside one. -/
theorem Reach.position (h : Reach M.step allowed (M.start w₀) σ) {r : R} {o : Option S}
    (hlive : (σ.proc r).alive = true) (hbusy : (σ.proc r).todoOf o ≠ []) :
    ∃ k u, M.code r o = u ++ (σ.proc r).todoOf o ∧
      didOf r o σ.log = (List.replicate k (M.code r o)).flatten ++ u := by
  obtain ⟨u, hu⟩ := Reach.each todo_suffix_kept h r hlive o
  obtain ⟨rest, hrest, htodo⟩ := Reach.inOrder h r o
  rw [htodo hlive] at hrest
  cases hk : starts r o σ.log with
  | zero =>
    rw [hk] at hrest
    exact absurd (List.append_eq_nil_iff.mp hrest).2 hbusy
  | succ k =>
    refine ⟨k, u, hu.symm, ?_⟩
    rw [hk, List.replicate_succ', List.flatten_append] at hrest
    have hlast : [M.code r o].flatten = u ++ (σ.proc r).todoOf o := by simp [hu]
    rw [hlast, ← List.append_assoc] at hrest
    exact List.append_cancel_right hrest

/-- Only what stands in the code is done. -/
theorem mem_code_of_did (h : Reach M.step allowed (M.start w₀) σ) {r : R} {o : Option S} {i : I}
    {d : D} (hd : (⟨r, o, .did i d⟩ : Entry R S I D) ∈ σ.log) : i ∈ M.code r o := by
  obtain ⟨rest, hrest, -⟩ := Reach.inOrder h r o
  exact mem_of_prefix_repeat (mem_didOf.mpr ⟨d, hd⟩) ⟨rest, hrest⟩

/-- **The moment of an instruction.** -/
theorem at_did (h : Reach M.step allowed (M.start w₀) σ) {l₁ l₂ : List (Entry R S I D)} {r : R}
    {o : Option S} {i : I} {d : D} (hlog : σ.log = l₁ ++ ⟨r, o, .did i d⟩ :: l₂) :
    ∃ σ₁ c t v l w, Reach M.step allowed (M.start w₀) σ₁ ∧ allowed σ₁ (.run r c) ∧
      σ₁.log = l₁ ∧ (σ₁.proc r).alive = true ∧ (σ₁.proc r).todoOf o = i :: t ∧
      M.exec r c i (σ₁.proc r).vars (M.locOf (σ₁.proc r) o) σ₁.world = .done v l w d := by
  obtain ⟨σ₁, x, hr, hx, hl, hl'⟩ := Reach.at_event records rfl h hlog
  rw [← hl] at hl'
  rcases (Reach.change hr x).of_entry hl' with
    ⟨r', c, o', i', t, v, l, w, d', rfl, he, hlive, htop, hexec⟩ | ⟨r', s, -, he, -⟩ | ⟨he, -⟩
  · cases he
    exact ⟨σ₁, c, t, v, l, w, hr, hx, hl, hlive, htop, hexec⟩
  · cases he
  · cases he

/-- **The past of an instruction.**  Whatever stands before it in the code has been done. -/
theorem before_did (h : Reach M.step allowed (M.start w₀) σ) {l₁ l₂ : List (Entry R S I D)} {r : R}
    {o : Option S} {i : I} {d : D} (hlog : σ.log = l₁ ++ ⟨r, o, .did i d⟩ :: l₂) {u v : List I}
    (hcode : M.code r o = u ++ i :: v) (hi : i ∉ u) : u <+: didOf r o l₁ := by
  obtain ⟨rest, hrest, -⟩ := Reach.inOrder h r o
  rw [hcode, hlog, show l₁ ++ ⟨r, o, .did i d⟩ :: l₂ = (l₁ ++ [⟨r, o, .did i d⟩]) ++ l₂ by simp,
    didOf_append, didOf_append, didOf_single, List.append_assoc] at hrest
  exact prefix_of_repeat hi ⟨_, hrest⟩

theorem takeWhile_ne_split {α : Type*} [DecidableEq α] {a : α} {u v : List α} (ha : a ∉ u) :
    (u ++ a :: v).takeWhile (· ≠ a) = u := by
  rw [List.takeWhile_append_of_pos fun x hx => by
    simpa using fun heq : x = a => ha (heq ▸ hx)]
  simp

/-- Of two members of a list one comes first. -/
theorem mem_takeWhile_ne {α : Type*} [DecidableEq α] {a b : α} {l : List α} (ha : a ∈ l)
    (hne : a ≠ b) : a ∈ l.takeWhile (· ≠ b) ∨ b ∈ l.takeWhile (· ≠ a) := by
  induction l with
  | nil => cases ha
  | cons x l ih =>
    by_cases hxa : x = a
    · subst hxa
      left
      rw [List.takeWhile_cons_of_pos (by simpa using hne)]
      exact List.mem_cons_self
    · by_cases hxb : x = b
      · subst hxb
        right
        rw [List.takeWhile_cons_of_pos (by simpa using hxa)]
        exact List.mem_cons_self
      · rw [List.takeWhile_cons_of_pos (by simpa using hxb),
          List.takeWhile_cons_of_pos (by simpa using hxa)]
        rcases List.mem_cons.mp ha with rfl | ha
        · exact absurd rfl hxa
        · exact (ih ha).imp (List.mem_cons_of_mem x) (List.mem_cons_of_mem x)

/-- The same, one instruction at a time. -/
theorem mem_before_did [DecidableEq I] (h : Reach M.step allowed (M.start w₀) σ)
    {l₁ l₂ : List (Entry R S I D)} {r : R} {o : Option S} {i : I} {d : D}
    (hlog : σ.log = l₁ ++ ⟨r, o, .did i d⟩ :: l₂) {j : I}
    (hj : j ∈ (M.code r o).takeWhile (· ≠ i)) :
    ∃ d', (⟨r, o, .did j d'⟩ : Entry R S I D) ∈ l₁ := by
  have hmem : i ∈ M.code r o := by
    refine mem_code_of_did h (d := d) ?_
    rw [hlog]
    exact List.mem_append_right _ List.mem_cons_self
  obtain ⟨u, v, hcode, hi⟩ := List.eq_append_cons_of_mem hmem
  rw [hcode, takeWhile_ne_split hi] at hj
  exact mem_didOf.mp ((before_did h hlog hcode hi).subset hj)

/-- A handler does something only after it was started. -/
theorem started_before (h : Reach M.step allowed (M.start w₀) σ) {l₁ l₂ : List (Entry R S I D)}
    {r : R} {s : S} {i : I} {d : D} (hlog : σ.log = l₁ ++ ⟨r, some s, .did i d⟩ :: l₂) :
    (⟨r, some s, .started⟩ : Entry R S I D) ∈ l₁ := by
  obtain ⟨σ₁, c, t, v, l, w, hr, -, hl, halive, htop, -⟩ := at_did h hlog
  obtain ⟨rest, hrest, htodo⟩ := Reach.inOrder hr r (some s)
  rw [htodo halive, htop, hl] at hrest
  have hpos : starts r (some s) l₁ ≠ 0 := by
    intro h0
    rw [h0] at hrest
    simp at hrest
  exact mem_of_starts hpos

/-- **The moment a handler starts**: it was installed. -/
theorem at_started (h : Reach M.step allowed (M.start w₀) σ) {l₁ l₂ : List (Entry R S I D)} {r : R}
    {s : S} (hlog : σ.log = l₁ ++ ⟨r, some s, .started⟩ :: l₂) :
    ∃ σ₁, Reach M.step allowed (M.start w₀) σ₁ ∧ allowed σ₁ (.signal r s) ∧ σ₁.log = l₁ ∧
      (σ₁.proc r).alive = true ∧ M.handles (σ₁.proc r).vars s = true := by
  obtain ⟨σ₁, x, hr, hx, hl, hl'⟩ := Reach.at_event records rfl h hlog
  rw [← hl] at hl'
  rcases (Reach.change hr x).of_entry hl' with
    ⟨r', c, o', i', t, v, l, w, d', -, he, -⟩ | ⟨r', s', rfl, he, hlive⟩ | ⟨-, he⟩
  · cases he
  · cases he
    exact ⟨σ₁, hr, hx, hl, hlive⟩
  · cases he

/-- **The invariant rule for locals**: a thread starts with fresh ones, and only its own code
    changes them. -/
theorem Reach.locals {Q : R → Option S → L → Prop} (hfresh : ∀ r o, Q r o M.locals)
    (hexec : ∀ r c o i v l w v' l' w' d, i ∈ M.code r o → Q r o l →
      M.exec r c i v l w = .done v' l' w' d → Q r o l')
    (h : Reach M.step allowed (M.start w₀) σ) :
    ∀ r, (σ.proc r).alive = true → ∀ o, (σ.proc r).todoOf o ≠ [] →
      Q r o (M.locOf (σ.proc r) o) := by
  have hkept : Kept M fun r p (_ : List (Entry R S I D)) =>
      (∀ o, p.todoOf o <:+ M.code r o) ∧ ∀ o, p.todoOf o ≠ [] → Q r o (M.locOf p o) := by
    have hsuffix := todo_suffix_kept (M := M)
    constructor
    · refine fun r => ⟨hsuffix.start r, fun o _ => ?_⟩
      cases o with
      | none => simpa [Machine.startProc, Machine.locOf, locIn] using hfresh r none
      | some s => simpa [Machine.startProc, Machine.locOf, locIn] using hfresh r (some s)
    · refine fun r p p' log hsame ih => ⟨hsuffix.same r p p' log hsame ih.1, fun o ho => ?_⟩
      rw [hsame.todo] at ho
      rw [hsame.loc o ho]
      exact ih.2 o ho
    · exact fun r p log x _ ih => ih
    · intro r c o i t v l w w' d p p' log ih htop hdone hmoved hvars
      refine ⟨hsuffix.does r c o i t v l w w' d p p' log ih.1 htop hdone hmoved hvars,
        fun o' ho' => ?_⟩
      by_cases ho : o' = o
      · subst ho
        rw [hmoved.loc]
        have hmem : i ∈ M.code r o' := (ih.1 o').subset (htop ▸ List.mem_cons_self)
        exact hexec r c o' i _ _ _ _ _ _ _ hmem
          (ih.2 o' (by rw [htop]; exact List.cons_ne_nil _ _)) hdone
      · rw [hmoved.todo, Function.update_of_ne ho] at ho'
        rw [hmoved.frame o' ho]
        exact ih.2 o' ho'
    · intro r s p p' log ih hhandles hmoved hvars
      refine ⟨hsuffix.starts r s p p' log ih.1 hhandles hmoved hvars, fun o' ho' => ?_⟩
      by_cases ho : o' = some s
      · subst ho
        rw [hmoved.loc]
        exact hfresh r _
      · rw [hmoved.todo, Function.update_of_ne ho] at ho'
        rw [hmoved.frame o' ho]
        exact ih.2 o' ho'
  exact fun r hlive => (Reach.each hkept h r hlive).2

/-- **A view of the variables that is a function of the record**: it is enough that every
    instruction changes it by a function of what is recorded, and that `p` says which ones change
    it. -/
theorem Reach.view_eq {A : Type*} {view : V → A} {upd : I → D → A → A} {p : I → Bool}
    (hupd : ∀ r c i v l w v' l' w' d, M.exec r c i v l w = .done v' l' w' d →
      view v' = if p i = true then upd i d (view v) else view v)
    (h : Reach M.step allowed (M.start w₀) σ) :
    ∀ r, (σ.proc r).alive = true → view (σ.proc r).vars
      = (ops p r σ.log).foldl (fun a x => upd x.1 x.2 a) (view (M.vars r)) := by
  refine Reach.each (P := fun r q log => view q.vars
    = (ops p r log).foldl (fun a x => upd x.1 x.2 a) (view (M.vars r))) ?_ h
  refine ⟨fun r => rfl, fun r q q' log hsame ih => hsame.vars ▸ ih, fun r q log x hx ih => ?_,
    fun r c o i t v l w w' d q q' log ih _ hexec _ hvars => ?_,
    fun r s q q' log ih _ _ hvars => ?_⟩
  · obtain ⟨r', o, e⟩ := x
    have hnone : ops p r [⟨r', o, e⟩] = [] := by
      cases e with
      | did i d => rw [ops_did, if_neg fun hc => hx hc.1]
      | _ => rfl
    rw [ops_append, hnone, List.append_nil]
    exact ih
  · rw [ops_append, List.foldl_append, ← ih, ops_did, hvars, hupd _ _ _ _ _ _ _ _ _ _ hexec]
    by_cases hp : p i = true
    · rw [if_pos hp, if_pos ⟨rfl, hp⟩]
      rfl
    · rw [if_neg hp, if_neg fun hc => hp hc.2]
      rfl
  · rw [ops_append, ops_of_not_did p r r _ rfl, List.append_nil, hvars]
    exact ih

end Order

end QemuStudy.Threads
