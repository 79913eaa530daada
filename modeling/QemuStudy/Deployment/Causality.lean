/-
  What the history of a deployment says about its past, whatever the schedule, the segmentation of
  the streams, the outcome of system calls and commands, and the signals.

  Inside a thread the order of events is the order of its code (`Lib.Threads`).  What connects the
  threads is that the state has a history: a listening socket, the address it is bound to and the
  connections that wait at it (`Grounded`), an installed handler and an assigned descriptor
  (`SetUp`) each have an entry that made them.  Both hold in every reachable state.
-/
import QemuStudy.Deployment.Parties

namespace QemuStudy.Deployment

open QemuStudy.Controller (Role Signal Fd Msg End otherEnd readSome readSome_append_drop
  readSome_length_le store)
open QemuStudy.Threads
open QemuStudy.Runs

/-! ## The streams in the history -/

/-- The instructions that put bytes on a descriptor. -/
def Instr.sendsOn (fd : Fd) : Instr → Bool
  | .write fd' _ => fd' = fd
  | _ => false

/-- The instructions that take bytes from it. -/
def Instr.readsOn (fd : Fd) : Instr → Bool
  | .read fd' _ => fd' = fd
  | _ => false

/-- The bytes of the instructions that `p` is about, at one party. -/
def bytesOf (p : Instr → Bool) (r : Role) (log : List Entry) : List UInt8 :=
  (ops p r log).flatMap fun x => x.2.bytes

/-- The bytes sent at an end. -/
def sentAt (e : End) (log : List Entry) : List UInt8 := bytesOf (Instr.sendsOn e.2) e.1 log

/-- The bytes taken at an end. -/
def takenAt (e : End) (log : List Entry) : List UInt8 := bytesOf (Instr.readsOn e.2) e.1 log

theorem bytesOf_append (p : Instr → Bool) (r : Role) (l l' : List Entry) :
    bytesOf p r (l ++ l') = bytesOf p r l ++ bytesOf p r l' := by
  rw [bytesOf, ops_append, List.flatMap_append]
  rfl

theorem bytesOf_did (p : Instr → Bool) (r r' : Role) (o : Option Signal) (i : Instr) (d : Data) :
    bytesOf p r [⟨r', o, .did i d⟩] = if r' = r ∧ p i = true then d.bytes else [] := by
  rw [bytesOf, ops_did]
  split <;> simp

theorem bytesOf_of_not_did (p : Instr → Bool) (r r' : Role) (o : Option Signal)
    {x : Event Instr Data} (h : x.instr? = none) : bytesOf p r [⟨r', o, x⟩] = [] := by
  rw [bytesOf, ops_of_not_did p r r' o h]
  rfl

/-- Bytes come from an entry. -/
theorem exists_of_bytesOf_ne_nil {p : Instr → Bool} {r : Role} {log : List Entry}
    (h : bytesOf p r log ≠ []) :
    ∃ o i d, (⟨r, o, .did i d⟩ : Entry) ∈ log ∧ p i = true ∧ d.bytes ≠ [] := by
  rw [bytesOf, ne_eq, List.flatMap_eq_nil_iff] at h
  push Not at h
  obtain ⟨⟨i, d⟩, hx, hne⟩ := h
  obtain ⟨hp, o, hmem⟩ := mem_ops.mp hx
  exact ⟨o, i, d, hmem, hp, hne⟩

/-- The bytes of an entry are a stretch of all of them. -/
theorem bytes_infix {p : Instr → Bool} {r : Role} {log : List Entry} {o : Option Signal}
    {i : Instr} {d : Data} (hx : (⟨r, o, .did i d⟩ : Entry) ∈ log) (hp : p i = true) :
    d.bytes <:+: bytesOf p r log := by
  obtain ⟨l₁, l₂, hops⟩ := List.append_of_mem (mem_ops.mpr ⟨hp, o, hx⟩)
  rw [bytesOf, hops, List.flatMap_append, List.flatMap_cons]
  exact ⟨_, _, List.append_assoc _ _ _⟩

/-! ## What an instruction that is done has changed -/

/-- Instructions that may only block or end the process. -/
def Instr.changesNothing : Instr → Bool
  | .fflush | .sleep | .system _ | .spawn _ | .retry _ | .check _ | .socket => true
  | .assertLen _ | .assertStrcmp _ | .assertCount | .sleepIfClear | .systemIfClear _ => true
  | _ => false

/-- The instructions that assign a descriptor. -/
def Instr.assigns (fd : Fd) : Instr → Bool
  | .connect fd' _ _ => fd' = fd
  | .accept => fd = .connfd
  | _ => false

/-- Every way in which an instruction of party `r` can be done. -/
inductive Effect (st : Settings) (r : Role) (v : Vars) (l : Locals) (w : World) :
    Instr → Vars → Locals → World → Data → Prop
  | plain {i : Instr} {ran : Bool} (hi : i.changesNothing = true) :
      Effect st r v l w i v l w ⟨w.now, [], ran⟩
  | print (fmt : Format) :
      Effect st r v l w (.print fmt) v l (w.print r (render st v fmt))
        ⟨w.now, render st v fmt, true⟩
  | clock (x : Clock) :
      Effect st r v l w (.clock x) { v with stamp := Function.update v.stamp x w.now } l w w.note
  | pidFile (b : Bool) :
      Effect st r v l w .pidFile v l { w with pid := Function.update w.pid r b } w.note
  | signal (s : Signal) :
      Effect st r v l w (.signal s) { v with installed := s :: v.installed } l w w.note
  | bind (ip port : Field) :
      Effect st r v l w (.bind ip port) v l
        { w with bound := Function.update w.bound r (some (st.addr ip port)) } w.note
  | listen :
      Effect st r v l w .listen v l
        { w with listening := Function.update w.listening r true } w.note
  | accept (h : w.calls r ≠ []) :
      Effect st r v l w .accept { v with fds := Function.update v.fds .connfd true } l w w.note
  | connect (fd : Fd) (ip port : Field) (r' : Role) (hr' : r' ≠ .backup)
      (h : w.listensAt (st.addr ip port) r' = true) :
      Effect st r v l w (.connect fd ip port) { v with fds := Function.update v.fds fd true } l
        { w with calls := Function.update w.calls r' (w.calls r' ++ [fd]) } w.note
  | choose (clear set : Msg) :
      Effect st r v l w (.choose clear set) v
        { l with arg := if v.count then set else clear } w w.note
  | write (fd : Fd) (arg : Arg) (h : v.fds fd = true) :
      Effect st r v l w (.write fd arg) v l (w.send (r, fd) (arg.eval l).bytes)
        ⟨w.now, (arg.eval l).bytes, true⟩
  | writeNowhere (fd : Fd) (arg : Arg) (h : v.fds fd = false) :
      Effect st r v l w (.write fd arg) v l w w.note
  | memset (m : Msg) :
      Effect st r v l w (.memset m)
        { v with buff := QemuStudy.Controller.memset (m.sizeof + 1) v.buff } l w w.note
  | read (fd : Fd) (m : Msg) (k : Nat) (h : readSome k (m.sizeof - 1) (w.inbox (r, fd)) ≠ []) :
      Effect st r v l w (.read fd m)
        { v with buff := store (readSome k (m.sizeof - 1) (w.inbox (r, fd))) v.buff }
        { l with readLen := (readSome k (m.sizeof - 1) (w.inbox (r, fd))).length }
        (w.take (r, fd) (readSome k (m.sizeof - 1) (w.inbox (r, fd))).length)
        ⟨w.now, readSome k (m.sizeof - 1) (w.inbox (r, fd)), true⟩
  | setCount : Effect st r v l w .setCount { v with count := true } l w w.note
  | testCount : Effect st r v l w .testCount v { l with skip := v.count } w w.note

section Exec

variable {st : Settings} {r : Role} {c : Env} {i : Instr} {v v' : Vars} {l l' : Locals}
  {w w' : World} {d : Data}

theorem listensAt_iff {asked : Addr} {r' : Role} : w.listensAt asked r' = true ↔
    w.listening r' = true ∧ ∃ a, w.bound r' = some a ∧ a.answers asked = true := by
  rw [World.listensAt, Bool.and_eq_true_iff]
  cases w.bound r' with
  | none => simp
  | some a => simp

/-- Who answers listens at the address. -/
theorem answering_listens {k : Nat} {asked : Addr} {r' : Role}
    (h : w.answering k asked = some r') : r' ≠ .backup ∧ w.listensAt asked r' = true := by
  obtain ⟨hmem, hlistens⟩ := List.mem_filter.mp (List.mem_of_getElem? h)
  refine ⟨?_, hlistens⟩
  rintro rfl
  exact absurd hmem (by decide)

/-- `exec` does nothing else. -/
theorem exec_effect (h : exec st r c i v l w = .done v' l' w' d) :
    Effect st r v l w i v' l' w' d := by
  have hquiet : ∀ {j : Instr}, j.changesNothing = true →
      (if c.ok = true then Outcome.done v l w w.note else .stop) = .done v' l' w' d →
      Effect st r v l w j v' l' w' d := by
    intro j hj hif
    split at hif
    · cases hif
      exact .plain hj
    · cases hif
  cases i with
  | print fmt => cases h; exact .print fmt
  | fflush | sleep | system | sleepIfClear | systemIfClear => cases h; exact .plain rfl
  | clock x => cases h; exact .clock x
  | pidFile => cases h; exact .pidFile _
  | signal s =>
    simp only [exec] at h
    split at h
    · cases h
      exact .signal s
    · cases h
  | spawn | check | socket => exact hquiet rfl h
  | retry | assertLen | assertStrcmp | assertCount =>
    simp only [exec] at h
    split at h
    · cases h
      exact .plain rfl
    · cases h
  | bind ip port =>
    simp only [exec] at h
    split at h
    · cases h
      exact .bind ip port
    · cases h
  | listen =>
    simp only [exec] at h
    split at h
    · cases h
      exact .listen
    · cases h
  | accept =>
    simp only [exec] at h
    split at h
    · cases h
    · rename_i hcalls
      split at h
      · cases h
        exact .accept hcalls
      · cases h
  | connect fd ip port =>
    simp only [exec] at h
    split at h
    · rename_i r' hr'
      obtain ⟨hrole, hlistens⟩ := answering_listens hr'
      split at h
      · cases h
        exact .connect fd ip port r' hrole hlistens
      · cases h
    · cases h
  | choose clear set => cases h; exact .choose clear set
  | write fd arg =>
    simp only [exec] at h
    split at h
    · cases h
    · split at h
      · rename_i hfd
        cases h
        exact .write fd arg hfd
      · rename_i hfd
        cases h
        exact .writeNowhere fd arg (Bool.not_eq_true _ ▸ hfd)
  | memset m => cases h; exact .memset m
  | read fd m =>
    simp only [exec] at h
    split at h
    · cases h
    · split at h
      · cases h
      · rename_i hne
        cases h
        exact .read fd m c.k hne
  | setCount => cases h; exact .setCount
  | testCount => cases h; exact .testCount
  | idle => cases h

/-- Bytes that are sent change nothing but an inbox. -/
theorem World.send_eq (w : World) (e : End) (bytes : List UInt8) :
    ∃ inbox, w.send e bytes = { w with inbox := inbox } := by
  rw [World.send]
  split
  · exact ⟨_, rfl⟩
  · exact ⟨w.inbox, rfl⟩

/-- Only `bind` gives a socket an address. -/
theorem Effect.bound (h : Effect st r v l w i v' l' w' d) {r' : Role} {a : Addr}
    (ha : w'.bound r' = some a) :
    w.bound r' = some a ∨ ∃ ip port, r' = r ∧ i = .bind ip port ∧ a = st.addr ip port := by
  cases h with
  | bind ip port =>
    by_cases hr : r' = r
    · subst hr
      dsimp only at ha
      rw [Function.update_self] at ha
      exact Or.inr ⟨ip, port, rfl, rfl, (Option.some.inj ha).symm⟩
    · dsimp only at ha
      rw [Function.update_of_ne hr] at ha
      exact Or.inl ha
  | write fd arg _ =>
    obtain ⟨inbox, hw⟩ := w.send_eq (r, fd) (arg.eval l).bytes
    rw [hw] at ha
    exact Or.inl ha
  | _ => exact Or.inl ha

/-- A socket that is bound stays bound. -/
theorem Effect.bound_mono (h : Effect st r v l w i v' l' w' d) {r' : Role} {a : Addr}
    (ha : w.bound r' = some a) : ∃ a', w'.bound r' = some a' := by
  cases h with
  | bind ip port =>
    by_cases hr : r' = r
    · subst hr
      exact ⟨_, Function.update_self _ _ _⟩
    · exact ⟨a, (Function.update_of_ne hr _ _).trans ha⟩
  | write fd arg _ =>
    obtain ⟨inbox, hw⟩ := w.send_eq (r, fd) (arg.eval l).bytes
    rw [hw]
    exact ⟨a, ha⟩
  | _ => exact ⟨a, ha⟩

theorem Effect.bound_of_bind {ip port : Field}
    (h : Effect st r v l w (.bind ip port) v' l' w' d) : ∃ a, w'.bound r = some a := by
  cases h with
  | plain hp => cases hp
  | bind _ _ => exact ⟨_, Function.update_self _ _ _⟩

/-- Only `listen` makes a socket listen. -/
theorem Effect.listening (h : Effect st r v l w i v' l' w' d) {r' : Role} :
    w'.listening r' = true ↔ w.listening r' = true ∨ (r' = r ∧ i = .listen) := by
  cases h with
  | listen =>
    by_cases hr : r' = r
    · simp [hr]
    · simp [hr]
  | plain hp =>
    refine (or_iff_left ?_).symm
    rintro ⟨-, rfl⟩
    cases hp
  | write fd arg _ =>
    obtain ⟨inbox, hw⟩ := w.send_eq (r, fd) (arg.eval l).bytes
    rw [hw]
    simp
  | _ => simp [World.print, World.take]

/-- Only `connect` adds a connection, at a socket that listens for it. -/
theorem Effect.calls (h : Effect st r v l w i v' l' w' d) :
    w'.calls = w.calls ∨ ∃ fd ip port r', i = .connect fd ip port ∧ r' ≠ .backup ∧
      w.listensAt (st.addr ip port) r' = true ∧
      w'.calls = Function.update w.calls r' (w.calls r' ++ [fd]) ∧ w'.inbox = w.inbox ∧
      d.bytes = [] := by
  cases h with
  | connect fd ip port r' hr' hlistens =>
    exact Or.inr ⟨fd, ip, port, r', rfl, hr', hlistens, rfl, rfl, rfl⟩
  | write fd arg _ =>
    obtain ⟨inbox, hw⟩ := w.send_eq (r, fd) (arg.eval l).bytes
    rw [hw]
    exact Or.inl rfl
  | _ => exact Or.inl rfl

/-- A connection stays in the queue of its socket. -/
theorem Effect.calls_mono (h : Effect st r v l w i v' l' w' d) {r' : Role} {fd : Fd}
    (hfd : fd ∈ w.calls r') : fd ∈ w'.calls r' := by
  rcases h.calls with hsame | ⟨fd', ip, port, r'', -, -, -, hcalls, -, -⟩
  · rw [hsame]
    exact hfd
  · rw [hcalls]
    by_cases hr : r' = r''
    · subst hr
      rw [Function.update_self]
      exact List.mem_append_left _ hfd
    · rw [Function.update_of_ne hr]
      exact hfd

/-- A `connect` that is done has reached somebody. -/
theorem Effect.calls_of_connect {fd : Fd} {ip port : Field}
    (h : Effect st r v l w (.connect fd ip port) v' l' w' d) : ∃ r', fd ∈ w'.calls r' := by
  cases h with
  | plain hp => cases hp
  | connect _ _ _ r' _ _ => exact ⟨r', by simp⟩

/-- An `accept` that is done had a connection to take. -/
theorem Effect.calls_of_accept (h : Effect st r v l w .accept v' l' w' d) : w'.calls r ≠ [] := by
  cases h with
  | plain hp => cases hp
  | accept hcalls => exact hcalls

/-- Only `signal` installs a handler. -/
theorem Effect.installed (h : Effect st r v l w i v' l' w' d) {s : Signal}
    (hs : s ∈ v'.installed) : s ∈ v.installed ∨ i = .signal s := by
  cases h with
  | signal s' =>
    rcases List.mem_cons.mp hs with rfl | hs
    · exact Or.inr rfl
    · exact Or.inl hs
  | _ => exact Or.inl hs

/-- A descriptor is assigned by `connect` or, at an accepting party, by `accept`. -/
theorem Effect.fds (h : Effect st r v l w i v' l' w' d) {fd : Fd} (hs : v'.fds fd = true) :
    v.fds fd = true ∨ i.assigns fd = true := by
  cases h with
  | connect fd' ip port r' _ _ =>
    by_cases hr : fd = fd'
    · exact Or.inr (decide_eq_true hr.symm)
    · dsimp only at hs
      rw [Function.update_of_ne hr] at hs
      exact Or.inl hs
  | accept _ =>
    by_cases hr : fd = .connfd
    · exact Or.inr (decide_eq_true hr)
    · dsimp only at hs
      rw [Function.update_of_ne hr] at hs
      exact Or.inl hs
  | _ => exact Or.inl hs

/-- And both do assign it. -/
theorem Effect.fds_of_assigns (h : Effect st r v l w i v' l' w' d) {fd : Fd}
    (hi : i.assigns fd = true) : v'.fds fd = true := by
  cases i with
  | connect fd' ip port =>
    obtain rfl : fd' = fd := of_decide_eq_true hi
    cases h with
    | plain hp => cases hp
    | connect _ _ _ _ _ _ => simp
  | accept =>
    obtain rfl : fd = .connfd := of_decide_eq_true hi
    cases h with
    | plain hp => cases hp
    | accept _ => simp
  | _ => cases hi

/-- Descriptors, handlers and the flag are never taken back. -/
theorem Effect.fds_mono (h : Effect st r v l w i v' l' w' d) {fd : Fd} (hs : v.fds fd = true) :
    v'.fds fd = true := by
  have hupdate : ∀ fd', Function.update v.fds fd' true fd = true := by
    intro fd'
    by_cases hr : fd = fd'
    · rw [hr, Function.update_self]
    · rw [Function.update_of_ne hr, hs]
  cases h with
  | connect fd' _ _ _ _ _ => exact hupdate fd'
  | accept _ => exact hupdate .connfd
  | _ => exact hs

theorem Effect.installed_mono (h : Effect st r v l w i v' l' w' d) {s : Signal}
    (hs : s ∈ v.installed) : s ∈ v'.installed := by
  cases h with
  | signal s' => exact List.mem_cons_of_mem s' hs
  | _ => exact hs

theorem Effect.count_mono (h : Effect st r v l w i v' l' w' d) (hc : v.count = true) :
    v'.count = true := by
  cases h with
  | setCount => rfl
  | _ => exact hc

/-- Only one instruction sets `sigusr1_count`. -/
theorem Effect.count (h : Effect st r v l w i v' l' w' d) (hc : v'.count = true) :
    v.count = true ∨ i = .setCount := by
  cases h with
  | setCount => exact Or.inr rfl
  | _ => exact Or.inl hc

end Exec

/-! ## Where the state comes from -/

/-- Party `r` has done `i`. -/
def Did (r : Role) (i : Instr) (log : List Entry) : Prop :=
  ∃ o d, (⟨r, o, .did i d⟩ : Entry) ∈ log

instance (r : Role) (i : Instr) (log : List Entry) : Decidable (Did r i log) :=
  decidable_of_iff (∃ e ∈ log, e.role = r ∧ e.event.instr? = some i) <| by
    constructor
    · rintro ⟨⟨_, o, ev⟩, he, rfl, hi⟩
      cases ev with
      | did j d =>
        cases hi
        exact ⟨o, d, he⟩
      | _ => cases hi
    · rintro ⟨o, d, he⟩
      exact ⟨_, he, rfl, rfl⟩

theorem Did.mono {r : Role} {i : Instr} {log log' : List Entry} (hsub : log ⊆ log')
    (h : Did r i log) : Did r i log' := by
  obtain ⟨o, d, hx⟩ := h
  exact ⟨o, d, hsub hx⟩

theorem did_append {r : Role} {i : Instr} {log : List Entry} {x : Entry} :
    Did r i (log ++ [x]) ↔ Did r i log ∨ ∃ o d, x = ⟨r, o, .did i d⟩ := by
  constructor
  · rintro ⟨o, d, hx⟩
    rcases List.mem_append.mp hx with hx | hx
    · exact Or.inl ⟨o, d, hx⟩
    · exact Or.inr ⟨o, d, (List.mem_singleton.mp hx).symm⟩
  · rintro (⟨o, d, hx⟩ | ⟨o, d, rfl⟩)
    · exact ⟨o, d, List.mem_append_left _ hx⟩
    · exact ⟨o, d, List.mem_append_right _ (List.mem_singleton.mpr rfl)⟩

/-- What is done after one more instruction. -/
theorem did_append_did {r r' : Role} {i j : Instr} {o : Option Signal} {d : Data}
    {log : List Entry} :
    Did r' j (log ++ [⟨r, o, .did i d⟩]) ↔ Did r' j log ∨ (r' = r ∧ j = i) := by
  rw [did_append]
  refine or_congr_right ⟨?_, ?_⟩
  · rintro ⟨o', d', heq⟩
    cases heq
    exact ⟨rfl, rfl⟩
  · rintro ⟨rfl, rfl⟩
    exact ⟨o, d, rfl⟩

/-- A connection on `fd` has reached the socket of `r`: it was made to an address that the socket
    answers. -/
def Called (st : Role → Settings) (r : Role) (fd : Fd) (log : List Entry) : Prop :=
  r ≠ .backup ∧ Did r .listen log ∧ ∃ r' ip port ip' port', Did r' (.connect fd ip port) log ∧
    Did r (.bind ip' port') log ∧ ((st r).addr ip' port').answers ((st r').addr ip port) = true

theorem Called.mono {st : Role → Settings} {r : Role} {fd : Fd} {log log' : List Entry}
    (hsub : log ⊆ log') (h : Called st r fd log) : Called st r fd log' := by
  obtain ⟨hr, hlisten, r', ip, port, ip', port', hconnect, hbind, hanswers⟩ := h
  exact ⟨hr, hlisten.mono hsub, r', ip, port, ip', port', hconnect.mono hsub, hbind.mono hsub,
    hanswers⟩

/-- The history accounts for the sockets. -/
structure Grounded (st : Role → Settings) (w : World) (log : List Entry) : Prop where
  bound : ∀ {r a}, w.bound r = some a →
    ∃ ip port, Did r (.bind ip port) log ∧ a = (st r).addr ip port
  binds : ∀ {r ip port}, Did r (.bind ip port) log → ∃ a, w.bound r = some a
  listening : ∀ {r}, w.listening r = true ↔ Did r .listen log
  called : ∀ {r fd}, fd ∈ w.calls r → Called st r fd log
  connected : ∀ {r fd ip port}, Did r (.connect fd ip port) log → ∃ r', fd ∈ w.calls r'
  accepted : ∀ {r}, Did r .accept log → w.calls r ≠ []

/-- A step that records something other than an instruction. -/
theorem Grounded.of_entry {st : Role → Settings} {w : World} {log : List Entry}
    (h : Grounded st w log) {e : Entry} (he : e.event.instr? = none) :
    Grounded st w (log ++ [e]) := by
  have hsub : log ⊆ log ++ [e] := List.subset_append_left _ _
  have hdid : ∀ {r i}, Did r i (log ++ [e]) → Did r i log := by
    intro r i hd
    rcases did_append.mp hd with hold | ⟨o, d, rfl⟩
    · exact hold
    · cases he
  refine ⟨fun ha => ?_, fun hd => h.binds (hdid hd), ⟨fun hl => (h.listening.mp hl).mono hsub,
    fun hd => h.listening.mpr (hdid hd)⟩, fun hfd => (h.called hfd).mono hsub,
    fun hd => h.connected (hdid hd), fun hd => h.accepted (hdid hd)⟩
  obtain ⟨ip, port, hbind, rfl⟩ := h.bound ha
  exact ⟨ip, port, hbind.mono hsub, rfl⟩

/-- A step that does one instruction. -/
theorem Grounded.of_effect {st : Role → Settings} {w w' : World} {log : List Entry}
    (h : Grounded st w log) {r : Role} {o : Option Signal} {i : Instr} {v v' : Vars}
    {l l' : Locals} {d : Data} (he : Effect (st r) r v l w i v' l' w' d) :
    Grounded st w' (log ++ [⟨r, o, .did i d⟩]) := by
  have hsub : log ⊆ log ++ [⟨r, o, .did i d⟩] := List.subset_append_left _ _
  constructor
  · intro r' a ha
    rcases he.bound ha with hold | ⟨ip, port, rfl, rfl, rfl⟩
    · obtain ⟨ip, port, hbind, rfl⟩ := h.bound hold
      exact ⟨ip, port, hbind.mono hsub, rfl⟩
    · exact ⟨ip, port, did_append_did.mpr (Or.inr ⟨rfl, rfl⟩), rfl⟩
  · intro r' ip port hd
    rcases did_append_did.mp hd with hold | ⟨rfl, rfl⟩
    · obtain ⟨a, ha⟩ := h.binds hold
      exact he.bound_mono ha
    · exact he.bound_of_bind
  · intro r'
    rw [did_append_did, ← h.listening, he.listening]
    exact or_congr_right ⟨fun hc => ⟨hc.1, hc.2.symm⟩, fun hc => ⟨hc.1, hc.2.symm⟩⟩
  · intro r' fd hfd
    rcases he.calls with hsame | ⟨fd', ip, port, r'', rfl, hrole, hlistens, hcalls, -, -⟩
    · rw [hsame] at hfd
      exact (h.called hfd).mono hsub
    · rw [hcalls] at hfd
      by_cases hr : r' = r''
      · subst hr
        rw [Function.update_self] at hfd
        rcases List.mem_append.mp hfd with hfd | hfd
        · exact (h.called hfd).mono hsub
        · obtain rfl := List.mem_singleton.mp hfd
          obtain ⟨hlistening, a, ha, hanswers⟩ := listensAt_iff.mp hlistens
          obtain ⟨ip', port', hbind, rfl⟩ := h.bound ha
          exact ⟨hrole, (h.listening.mp hlistening).mono hsub, r, ip, port, ip', port',
            did_append_did.mpr (Or.inr ⟨rfl, rfl⟩), hbind.mono hsub, hanswers⟩
      · rw [Function.update_of_ne hr] at hfd
        exact (h.called hfd).mono hsub
  · intro r' fd ip port hd
    rcases did_append_did.mp hd with hold | ⟨rfl, rfl⟩
    · obtain ⟨r'', hr''⟩ := h.connected hold
      exact ⟨r'', he.calls_mono hr''⟩
    · exact he.calls_of_connect
  · intro r' hd
    rcases did_append_did.mp hd with hold | ⟨rfl, rfl⟩
    · obtain ⟨fd, hfd⟩ := List.exists_mem_of_ne_nil _ (h.accepted hold)
      exact List.ne_nil_of_mem (he.calls_mono hfd)
    · exact he.calls_of_accept

section Runs

variable {mode : Role → Mode} {st : Role → Settings} {allowed : Net → Choice → Prop} {σ : Net}

/-- The machine executes by `exec`. -/
theorem machine_effect {r : Role} {c : Env} {i : Instr} {v v' : Vars} {l l' : Locals}
    {w w' : World} {d : Data} (h : (machine mode st).exec r c i v l w = .done v' l' w' d) :
    Effect (st r) r v l w i v' l' w' d := exec_effect h

/-- **The history accounts for the sockets**, in every reachable state. -/
theorem Grounded.of_reach (h : Reach (machine mode st).step allowed (start mode st) σ) :
    Grounded st σ.world σ.log := by
  refine Reach.recorded (Grounded st) ?_
    (fun hg => ⟨hg.bound, hg.binds, hg.listening, hg.called, hg.connected, hg.accepted⟩)
    (fun he hg => hg.of_entry he) (fun _ hg _ _ hexec => hg.of_effect (machine_effect hexec)) h
  have hnone : ∀ {r i}, ¬ Did r i [] := by
    rintro r i ⟨o, d, hx⟩
    cases hx
  exact ⟨fun ha => (nomatch ha), fun hd => (hnone hd).elim,
    ⟨fun hr => (nomatch hr), fun hr => (hnone hr).elim⟩,
    fun hfd => (nomatch hfd), fun hd => (hnone hd).elim, fun hd => (hnone hd).elim⟩

/-! ## Globals -/

/-- Handlers and descriptors have an entry that made them. -/
structure SetUp (r : Role) (v : Vars) (log : List Entry) : Prop where
  installed : ∀ s ∈ v.installed, Did r (.signal s) log
  fds : ∀ fd, v.fds fd = true → ∃ i, i.assigns fd = true ∧ Did r i log

theorem SetUp.mono {r : Role} {v : Vars} {log log' : List Entry} (h : SetUp r v log)
    (hsub : log ⊆ log') : SetUp r v log' where
  installed s hs := (h.installed s hs).mono hsub
  fds fd hfd := (h.fds fd hfd).imp fun _ hi => ⟨hi.1, hi.2.mono hsub⟩

theorem SetUp.of_effect {s : Settings} {r : Role} {o : Option Signal} {i : Instr} {v v' : Vars}
    {l l' : Locals} {w w' : World} {d : Data} {log : List Entry} (h : SetUp r v log)
    (he : Effect s r v l w i v' l' w' d) : SetUp r v' (log ++ [⟨r, o, .did i d⟩]) := by
  have hold := h.mono (List.subset_append_left log [⟨r, o, .did i d⟩])
  have hnow : Did r i (log ++ [⟨r, o, .did i d⟩]) :=
    ⟨o, d, List.mem_append_right _ (List.mem_singleton.mpr rfl)⟩
  refine ⟨fun s hs => ?_, fun fd hfd => ?_⟩
  · rcases he.installed hs with hs | rfl
    · exact hold.installed s hs
    · exact hnow
  · rcases he.fds hfd with hfd | hi
    · exact hold.fds fd hfd
    · exact ⟨i, hi, hnow⟩

/-- The history accounts for handlers and descriptors, while the process lives. -/
theorem SetUp.of_reach (h : Reach (machine mode st).step allowed (start mode st) σ) :
    ∀ r, (σ.proc r).alive = true → SetUp r (σ.proc r).vars σ.log := by
  refine Reach.each (P := fun r p log => SetUp r p.vars log) ?_ h
  constructor
  · exact fun r => ⟨fun s hs => (nomatch hs), fun fd hfd => (nomatch hfd)⟩
  · exact fun r p p' log hsame ih => hsame.vars ▸ ih
  · exact fun r p log x _ ih => ih.mono (List.subset_append_left _ _)
  · exact fun r c o i t v l w w' d p p' log ih _ hexec _ hvars =>
      hvars ▸ ih.of_effect (machine_effect hexec)
  · exact fun r s p p' log ih _ _ hvars => hvars ▸ ih.mono (List.subset_append_left _ _)

/-- **What an instruction establishes and nothing undoes** holds once it is done. -/
theorem Did.lasting (h : Reach (machine mode st).step allowed (start mode st) σ) {r : Role}
    {i : Instr} {Q : Vars → Prop}
    (hset : ∀ {v v' l l' w w' d}, Effect (st r) r v l w i v' l' w' d → Q v')
    (hkeep : ∀ {j v v' l l' w w' d}, Effect (st r) r v l w j v' l' w' d → Q v → Q v')
    (hdid : Did r i σ.log) (hlive : (σ.proc r).alive = true) : Q (σ.proc r).vars := by
  have hkept : Kept (machine mode st) fun r' p log => r' = r → Did r i log → Q p.vars := by
    have hother : ∀ {log : List Entry} {x : Entry},
        Did r i (log ++ [x]) → (∀ o d, x ≠ ⟨r, o, .did i d⟩) → Did r i log := by
      intro log x hd hne
      exact (did_append.mp hd).resolve_right fun ⟨o, d, heq⟩ => hne o d heq
    constructor
    · rintro r' - ⟨o, d, hx⟩
      cases hx
    · exact fun r' p p' log hsame ih => hsame.vars ▸ ih
    · rintro r' p log x hx ih rfl hd
      exact ih rfl (hother hd fun o d heq => hx (heq ▸ rfl))
    · rintro r' c o j t v l w w' d p p' log ih - hexec - hvars rfl hd
      rw [hvars]
      by_cases hj : j = i
      · subst hj
        exact hset (machine_effect hexec)
      · refine hkeep (machine_effect hexec) (ih rfl (hother hd fun o' d' heq => ?_))
        cases heq
        exact hj rfl
    · rintro r' s p p' log ih - - hvars rfl hd
      rw [hvars]
      refine ih rfl (hother hd fun o d heq => ?_)
      cases heq
  exact Reach.each hkept h r hlive rfl hdid

theorem fds_of_did (h : Reach (machine mode st).step allowed (start mode st) σ) {r : Role}
    (hlive : (σ.proc r).alive = true) (fd : Fd) {i : Instr} (hi : i.assigns fd = true)
    (hdid : Did r i σ.log) : (σ.proc r).vars.fds fd = true := by
  exact hdid.lasting h (Q := fun v => v.fds fd = true) (fun he => he.fds_of_assigns hi)
    (fun he => he.fds_mono) hlive

theorem installed_of_did (h : Reach (machine mode st).step allowed (start mode st) σ) {r : Role}
    (hlive : (σ.proc r).alive = true) {s : Signal} (hdid : Did r (.signal s) σ.log) :
    s ∈ (σ.proc r).vars.installed := by
  refine hdid.lasting h (Q := fun v => s ∈ v.installed) (fun he => ?_)
    (fun he => he.installed_mono) hlive
  cases he with
  | plain hp => cases hp
  | signal _ => exact List.mem_cons_self

/-- `sigusr1_count` is set exactly if somebody has set it. -/
theorem count_iff_did (h : Reach (machine mode st).step allowed (start mode st) σ) {r : Role}
    (hlive : (σ.proc r).alive = true) :
    (σ.proc r).vars.count = true ↔ Did r .setCount σ.log := by
  constructor
  · revert hlive
    refine Reach.each (P := fun r p log => p.vars.count = true → Did r .setCount log) ?_ h r
    constructor
    · exact fun r hcount => (nomatch hcount)
    · exact fun r p p' log hsame ih => hsame.vars ▸ ih
    · exact fun r p log x _ ih hcount => (ih hcount).mono (List.subset_append_left _ _)
    · intro r c o i t v l w w' d p p' log ih _ hexec _ hvars hcount
      rw [hvars] at hcount
      rcases (machine_effect hexec).count hcount with hold | rfl
      · exact (ih hold).mono (List.subset_append_left _ _)
      · exact ⟨o, d, List.mem_append_right _ (List.mem_singleton.mpr rfl)⟩
    · intro r s p p' log ih _ _ hvars hcount
      rw [hvars] at hcount
      exact (ih hcount).mono (List.subset_append_left _ _)
  · intro hdid
    refine hdid.lasting h (Q := fun v => v.count = true) (fun he => ?_)
      (fun he => he.count_mono) hlive
    cases he with
    | plain hp => cases hp
    | setCount => rfl

/-! ## What comes before an instruction -/

/-- A thread does what is in its code. -/
theorem mem_code (h : Reach (machine mode st).step allowed (start mode st) σ) {r : Role}
    {o : Option Signal} {i : Instr} {d : Data} (hx : (⟨r, o, .did i d⟩ : Entry) ∈ σ.log) :
    i ∈ code (mode r) r o := mem_code_of_did h hx

/-- What a thread is going to do next is in its code. -/
theorem next_mem_code (h : Reach (machine mode st).step allowed (start mode st) σ) {r : Role}
    {o : Option Signal} {i : Instr} {t : List Instr} (hlive : (σ.proc r).alive = true)
    (htop : (σ.proc r).todoOf o = i :: t) : i ∈ code (mode r) r o := by
  obtain ⟨k, u, hcode, -⟩ := Reach.position h hlive (by rw [htop]; exact List.cons_ne_nil _ _)
  replace hcode : code (mode r) r o = u ++ i :: t := htop ▸ hcode
  rw [hcode]
  exact List.mem_append_right _ List.mem_cons_self

/-- Party `r` has done `j` before `i`, if every thread that does `i` does `j` first. -/
theorem Did.before (h : Reach (machine mode st).step allowed (start mode st) σ) {r : Role}
    {i j : Instr} (hi : Did r i σ.log)
    (hcode : ∀ o, i ∈ code (mode r) r o → j ∈ (code (mode r) r o).takeWhile (· ≠ i)) :
    Did r j σ.log := by
  obtain ⟨o, d, hmem⟩ := hi
  have hj := hcode o (mem_code h hmem)
  obtain ⟨l₁, l₂, hlog⟩ := List.append_of_mem hmem
  obtain ⟨d', hd'⟩ := mem_before_did h hlog hj
  refine ⟨o, d', ?_⟩
  rw [hlog]
  exact List.mem_append_left _ hd'

/-- A handler is installed before it does anything. -/
theorem installed_before (h : Reach (machine mode st).step allowed (start mode st) σ) {r : Role}
    {s : Signal} {i : Instr} {d : Data} {l₁ l₂ : List Entry}
    (hlog : σ.log = l₁ ++ ⟨r, some s, .did i d⟩ :: l₂) : Did r (.signal s) l₁ := by
  obtain ⟨l₃, l₄, hl₁⟩ := List.append_of_mem (started_before h hlog)
  rw [hl₁, List.append_assoc, List.cons_append] at hlog
  obtain ⟨σ₁, hr, -, hl, hlive, hhandles⟩ := at_started h hlog
  have hdid := (SetUp.of_reach hr r hlive).installed s (of_decide_eq_true hhandles)
  refine hdid.mono ?_
  rw [hl, hl₁]
  exact List.subset_append_left _ _

/-- A `read` that was done has taken something. -/
theorem bytes_of_read (h : Reach (machine mode st).step allowed (start mode st) σ) {r : Role}
    {o : Option Signal} {fd : Fd} {m : Msg} {d : Data}
    (hi : (⟨r, o, .did (.read fd m) d⟩ : Entry) ∈ σ.log) :
    d.bytes ≠ [] ∧ d.bytes.length ≤ m.bytes.length := by
  obtain ⟨l₁, l₂, hlog⟩ := List.append_of_mem hi
  obtain ⟨σ₁, c, t, v, l, w, hr, -, hl, -, -, hexec⟩ := at_did h hlog
  cases machine_effect hexec with
  | plain hp => cases hp
  | read _ _ k hne => exact ⟨hne, readSome_length_le m.one_lt_length.le _⟩

end Runs

end QemuStudy.Deployment
