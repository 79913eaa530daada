/-
  The three parties of the shared-memory mode and the byte streams between them.

  `backup` has one socket to `src` and one to `dst`; each of them has `connfd` to `backup`.  Bytes
  written at one end stand in the `inbox` of the other until a `read` takes them, in order.  A run
  (`Net.step`) lets any party execute one statement, a `read` returning as much as the network
  likes, and lets any signal reach any party at any time.  The log is the history of the whole
  system; what it means is the subject of `Controller.History` and `Controller.Invariants`.

  * `transmit`  — what an action does to the streams;
  * `Change`    — everything that a step can do to the party that takes it;
  * `Net.step_change` — and that there is nothing else.

  How the parties get connected is left to `Deployment`; `Deployment.Refines` shows that the
  processes of `apps/controller.c`, from `main` on, run this protocol.
-/
import QemuStudy.Controller.Programs
import QemuStudy.Lib.Runs
import Mathlib.Logic.Function.Basic

namespace QemuStudy.Controller

open QemuStudy.Runs

/-! ## The system -/

inductive Role
  | backup
  | src
  | dst
  deriving DecidableEq, Repr

/-- One end of a connection. -/
abbrev End := Role × Fd

/-- Who is on the other side; an end that is not connected talks to itself. -/
def otherEnd : End → End
  | (.backup, .srcfd) => (.src, .connfd)
  | (.src, .connfd) => (.backup, .srcfd)
  | (.backup, .dstfd) => (.dst, .connfd)
  | (.dst, .connfd) => (.backup, .dstfd)
  | e => e

def shm : Role → Program
  | .backup => shmBackup
  | .src => shmSrc
  | .dst => shmDst

/-- An event of one party in the common history. -/
structure Entry where
  role : Role
  origin : Option Signal
  action : Action
  deriving DecidableEq, Repr

structure Net where
  proc : Role → Proc
  /-- bytes on their way to an end -/
  inbox : End → List UInt8
  log : List Entry

/-- The messages an action puts on `fd`. -/
def Action.wroteOn (fd : Fd) : Action → List Msg
  | .wrote fd' m => if fd' = fd then [m] else []
  | _ => []

/-- The messages an action accepts from `fd`. -/
def Action.matchedOn (fd : Fd) : Action → List Msg
  | .matched fd' m => if fd' = fd then [m] else []
  | _ => []

/-- The number of bytes an action takes from `fd`. -/
def Action.takenOn (fd : Fd) : Action → Nat
  | .received fd' chunk => if fd' = fd then chunk.length else 0
  | _ => 0

/-- What an action of `r` does to the streams: bytes taken leave `r`'s inbox, bytes written reach
    the other end. -/
def transmit (r : Role) (a : Option Action) (inbox : End → List UInt8) (e : End) : List UInt8 :=
  (if e.1 = r then (inbox e).drop (a.elim 0 (Action.takenOn e.2)) else inbox e) ++
    (if (otherEnd e).1 = r then wire (a.toList.flatMap (Action.wroteOn (otherEnd e).2)) else [])

/-- Party `r` has moved to `res.1` and recorded `res.2`. -/
def Net.after (σ : Net) (r : Role) (res : Proc × Option Event) : Net where
  proc := Function.update σ.proc r res.1
  inbox := transmit r (res.2.map Event.action) σ.inbox
  log := σ.log ++ (res.2.map fun e => (⟨r, e.origin, e.action⟩ : Entry)).toList

/-- The scheduler's choice: a party runs (a `read` may return up to `k` bytes, a command succeeds
    or not), or a signal reaches a party. -/
inductive Choice
  | run (r : Role) (k : Nat) (ok : Bool)
  | signal (r : Role) (s : Signal)
  deriving DecidableEq, Repr

def Net.env (σ : Net) (r : Role) (k : Nat) (ok : Bool) : Env := ⟨k, ok, fun fd => σ.inbox (r, fd)⟩

def Net.step (σ : Net) : Choice → Net
  | .run r k ok => σ.after r ((σ.proc r).run (σ.env r k ok))
  | .signal r s => σ.after r ((σ.proc r).deliver (shm r) s)

/-- The connections exist, nothing has been sent. -/
def Net.start : Net := ⟨fun r => (shm r).start, fun _ => [], []⟩

/-- Every schedule, every segmentation, every signal at any time. -/
def Anything (_ : Net) (_ : Choice) : Prop := True

instance (σ : Net) : DecidablePred (Anything σ) := fun _ => isTrue trivial

/-! ## What one step changes -/

/-- What a step does to the party `r` that takes it. -/
inductive Change (σ σ' : Net) (r : Role) : Choice → Prop
  | quiet {c : Choice} (htodo : (σ'.proc r).todoOf = (σ.proc r).todoOf)
      (hvars : (σ'.proc r).vars = (σ.proc r).vars)
      (halive : (σ'.proc r).alive = (σ.proc r).alive)
      (hinbox : σ'.inbox = σ.inbox) (hlog : σ'.log = σ.log) : Change σ σ' r c
  | moves {k : Nat} {ok : Bool} {o : Option Signal} {s : Stmt} {t t' : List Stmt} {v : Vars}
      {a : Option Action}
      (hlive : (σ.proc r).alive = true) (htop : (σ.proc r).todoOf o = s :: t)
      (hexec : exec (σ.env r k ok) (σ.proc r).vars t s = some (v, t', a))
      (htodo : (σ'.proc r).todoOf = Function.update (σ.proc r).todoOf o t')
      (hvars : (σ'.proc r).vars = v) (hlive' : (σ'.proc r).alive = true)
      (hinbox : σ'.inbox = transmit r a σ.inbox)
      (hlog : σ'.log = σ.log ++ (a.map fun a => (⟨r, o, a⟩ : Entry)).toList) :
      Change σ σ' r (.run r k ok)
  | delivers {s : Signal}
      (hlive : (σ.proc r).alive = true) (hinst : s ∈ (σ.proc r).vars.installed)
      (hidle : (σ.proc r).todoOf (some s) = [])
      (htodo : (σ'.proc r).todoOf
        = Function.update (σ.proc r).todoOf (some s) ((shm r).handler s))
      (hvars : (σ'.proc r).vars = (σ.proc r).vars) (hlive' : (σ'.proc r).alive = true)
      (hinbox : σ'.inbox = σ.inbox)
      (hlog : σ'.log = σ.log ++ [⟨r, some s, .delivered⟩]) : Change σ σ' r (.signal r s)
  | fails {k : Nat} {ok : Bool} {o : Option Signal} {s : Stmt} {t : List Stmt}
      (hlive : (σ.proc r).alive = true) (htop : (σ.proc r).todoOf o = s :: t)
      (hexec : exec (σ.env r k ok) (σ.proc r).vars t s = none)
      (hdead : (σ'.proc r).alive = false) (hinbox : σ'.inbox = σ.inbox)
      (hlog : σ'.log = σ.log ++ [⟨r, o, .failed s⟩]) : Change σ σ' r (.run r k ok)
  | killed {s : Signal}
      (hlive : (σ.proc r).alive = true) (hinst : s ∉ (σ.proc r).vars.installed)
      (hdead : (σ'.proc r).alive = false) (hinbox : σ'.inbox = σ.inbox)
      (hlog : σ'.log = σ.log ++ [⟨r, some s, .killed⟩]) : Change σ σ' r (.signal r s)

def Choice.role : Choice → Role
  | .run r _ _ => r
  | .signal r _ => r

theorem Net.after_proc (σ : Net) (r : Role) (res : Proc × Option Event) :
    (σ.after r res).proc r = res.1 := Function.update_self _ _ _

theorem Net.step_proc_of_ne (σ : Net) (c : Choice) {r : Role} (h : r ≠ c.role) :
    (σ.step c).proc r = σ.proc r := by
  cases c with
  | run r' k ok => exact Function.update_of_ne h _ _
  | signal r' s => exact Function.update_of_ne h _ _

/-- Where no bytes move the streams stay as they are. -/
theorem transmit_of_still {r : Role} {a : Option Action}
    (hw : ∀ fd, a.toList.flatMap (Action.wroteOn fd) = [])
    (ht : ∀ fd, a.elim 0 (Action.takenOn fd) = 0) (inbox : End → List UInt8) :
    transmit r a inbox = inbox := by
  funext e
  simp [transmit, hw, ht]

/-- Only the party whose turn it is has to be looked at. -/
theorem Net.step_wf {σ : Net} (hwf : ∀ r, (σ.proc r).WF) {c : Choice} {res : Proc × Option Event}
    (hstep : σ.step c = σ.after c.role res) (hres : res.1.WF) (r : Role) :
    ((σ.step c).proc r).WF := by
  by_cases hr : r = c.role
  · rw [hr, hstep, Net.after_proc]
    exact hres
  · rw [σ.step_proc_of_ne c hr]
    exact hwf r

/-- **The step lemma**: everything a step of the system can do. -/
theorem Net.step_change {σ : Net} (hwf : ∀ r, (σ.proc r).WF) (c : Choice) :
    (∀ r, ((σ.step c).proc r).WF) ∧ Change σ (σ.step c) c.role c := by
  have hstill : ∀ {r : Role} {a : Option Action} (inbox : End → List UInt8),
      a = none ∨ a = some .delivered ∨ a = some .killed ∨ (∃ s, a = some (.failed s)) →
        transmit r a inbox = inbox := by
    rintro r a inbox (rfl | rfl | rfl | ⟨s, rfl⟩) <;>
      exact transmit_of_still (fun _ => rfl) (fun _ => rfl) inbox
  cases c with
  | run r k ok =>
    cases hres : (σ.proc r).run (σ.env r k ok) with
    | mk p' e =>
      have hstep : σ.step (.run r k ok) = σ.after r (p', e) := by rw [← hres]; rfl
      obtain ⟨hwf', hcases⟩ := Proc.run_cases (hwf r) hres
      refine ⟨Net.step_wf hwf hstep hwf', ?_⟩
      rw [hstep]
      rcases hcases with ⟨ht, hv, ha, rfl⟩ | ⟨o, s, t, v, t', a, hl, htop, hex, ht, hv, hl', rfl⟩ |
        ⟨o, s, t, hl, htop, hex, hd, rfl⟩
      · refine Change.quiet ?_ ?_ ?_ (hstill _ (Or.inl rfl)) (by simp [Net.after]) <;>
          rw [Choice.role, Net.after_proc] <;> assumption
      · refine Change.moves hl htop hex ?_ ?_ ?_ ?_ ?_
        · rw [Choice.role, Net.after_proc]; exact ht
        · rw [Choice.role, Net.after_proc]; exact hv
        · rw [Choice.role, Net.after_proc]; exact hl'
        · cases a <;> rfl
        · cases a <;> rfl
      · refine Change.fails hl htop hex ?_ (hstill _ ?_) rfl
        · rw [Choice.role, Net.after_proc]; exact hd
        · exact Or.inr (Or.inr (Or.inr ⟨s, rfl⟩))
  | signal r s =>
    cases hres : (σ.proc r).deliver (shm r) s with
    | mk p' e =>
      have hstep : σ.step (.signal r s) = σ.after r (p', e) := by rw [← hres]; rfl
      obtain ⟨hwf', hcases⟩ := Proc.deliver_cases (hwf r) hres
      refine ⟨Net.step_wf hwf hstep hwf', ?_⟩
      rw [hstep]
      rcases hcases with ⟨rfl, rfl⟩ | ⟨hl, hi, hidle, ht, hv, hl', rfl⟩ | ⟨hl, hi, hd, rfl⟩
      · refine Change.quiet ?_ ?_ ?_ (hstill _ (Or.inl rfl)) (by simp [Net.after]) <;>
          rw [Choice.role, Net.after_proc]
      · refine Change.delivers hl hi hidle ?_ ?_ ?_ (hstill _ (Or.inr (Or.inl rfl))) rfl
        · rw [Choice.role, Net.after_proc]; exact ht
        · rw [Choice.role, Net.after_proc]; exact hv
        · rw [Choice.role, Net.after_proc]; exact hl'
      · refine Change.killed hl hi ?_ (hstill _ (Or.inr (Or.inr (Or.inl rfl)))) rfl
        rw [Choice.role, Net.after_proc]; exact hd

end QemuStudy.Controller
