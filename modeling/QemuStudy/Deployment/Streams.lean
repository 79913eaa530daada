/-
  What the parties say to each other in an orderly environment.

  Messages have no delimiters, so everything rests on this: what is sent to a party is, message by
  message, an initial part of its SCRIPT, the messages its reading thread will ask for
  (`Calm.sent_script`).  A pending stream then starts with the message asked for (`inbox_at_read`).

  Most parties send literals, so what they have said can be read off their history
  (`Calm.sentAt_literal`); in shared-memory mode the source says one thing in each of its two
  handlers, the first of which is done when the second starts (`Calm.in_turn`).  At the destination
  of a QEMU mode the two handlers share one body that decides by `sigusr1_count` what to send; the
  first to run says `qemu_vm_restart`, the second `qemu_post_copy_finish`, whichever signal came
  first (`Turns.said`).

  The invariants are stated here as `Calm` and `Turns`; `Deployment.Calm` and `Deployment.Turns`
  prove that every step keeps them.
-/
import QemuStudy.Deployment.Orderly

namespace QemuStudy.Deployment

open QemuStudy.Controller (Role Signal Fd Msg End otherEnd wire wire_append wire_continues)
open QemuStudy.Threads
open QemuStudy.Runs

section Definitions

variable {md : Mode} {st : Role → Settings} {σ : Net}

/-! ## What is to hold -/

/-- Nobody has stopped, no handler was started twice, and every `read` that was done has returned
    the message it asked for. -/
structure Calm (md : Mode) (st : Role → Settings) (σ : Net) : Prop where
  alive : ∀ r, (σ.proc r).alive = true
  once : ∀ r o, starts r o σ.log ≤ 1
  whole : ∀ r o fd m d, (⟨r, o, .did (.read fd m) d⟩ : Entry) ∈ σ.log → d.bytes = m.bytes
  lens : ∀ r o m t, (σ.proc r).todoOf o = .assertLen m :: t →
    ((machine (fun _ => md) st).locOf (σ.proc r) o).readLen = m.bytes.length

theorem Calm.initial : Calm md st (start (fun _ => md) st) where
  alive _ := rfl
  once r o := by cases o <;> simp [Deployment.start, Machine.start, starts]
  whole r o fd m d h := by cases h
  lens r o m t h := by
    have hnone : todoIn o ((machine (fun _ => md) st).startProc r).stack = .assertLen m :: t := h
    cases o with
    | some s => cases hnone
    | none =>
      rw [Machine.startProc, todoIn, if_pos rfl] at hnone
      cases r <;> exact absurd (List.cons.inj hnone).1 (by simp)

/-- The destination's messages in a QEMU mode, in the order they are due. -/
def dstScript : List Msg := [.qemuVmRestart, .qemuPostCopyFinish]

/-- How many handlers of the destination have written. -/
def dstWrites (log : List Entry) : Nat :=
  (if .write .connfd .chosen ∈ didOf .dst (some .usr1) log then 1 else 0) +
    if .write .connfd .chosen ∈ didOf .dst (some .usr2) log then 1 else 0

theorem dstWrites_eq (s : Signal) (log : List Entry) :
    dstWrites log
      = (if .write .connfd .chosen ∈ didOf .dst (some s) log then 1 else 0) +
        if .write .connfd .chosen ∈ didOf .dst (some (other s)) log then 1 else 0 := by
  cases s with
  | usr1 => rfl
  | usr2 => exact Nat.add_comm _ _

/-- The destination's handlers in a QEMU mode take turns. -/
structure Turns (md : Mode) (st : Role → Settings) (σ : Net) : Prop where
  turn : ∀ s, (σ.proc .dst).todoOf (some s) ≠ [] → (σ.proc .dst).todoOf (some (other s)) = []
  chosen : ∀ s t, (σ.proc .dst).todoOf (some s) = .write .connfd .chosen :: t →
    ((machine (fun _ => md) st).locOf (σ.proc .dst) (some s)).arg
      = if starts .dst (some (other s)) σ.log = 0 then .qemuVmRestart else .qemuPostCopyFinish
  said : sentAt (.dst, .connfd) σ.log = wire (dstScript.take (dstWrites σ.log))

theorem Turns.initial : Turns md st (start (fun _ => md) st) where
  turn s h := absurd rfl h
  chosen s t h := by cases h
  said := rfl

/-! ## Scripts -/

/-- The messages that party `r` will ask for on `fd`. -/
def script (md : Mode) (r : Role) (fd : Fd) : List Msg :=
  (code md r (reader r)).flatMap (Instr.asks fd)

/-- Everybody but the destination of a QEMU mode sends literals. -/
def Literal (md : Mode) (r : Role) : Prop := md.isShm = true ∨ r ≠ .dst

instance (md : Mode) (r : Role) : Decidable (Literal md r) := inferInstanceAs (Decidable (_ ∨ _))

/-- What the handlers of party `r` say on `fd`, SIGUSR2 first. -/
def spoken (r : Role) (fd : Fd) (log : List Entry) : List Msg :=
  (didOf r (some .usr2) log).flatMap (Instr.texts fd) ++
    (didOf r (some .usr1) log).flatMap (Instr.texts fd)

/-- What they have to say. -/
def lines (md : Mode) (r : Role) (fd : Fd) : List Msg :=
  (code md r (some .usr2)).flatMap (Instr.texts fd) ++
    (code md r (some .usr1)).flatMap (Instr.texts fd)

/-- What the one has to say is what the other will ask for. -/
theorem script_eq_lines {r : Role} {fd : Fd} (hlit : Literal md (otherEnd (r, fd)).1)
    (hne : script md r fd ≠ []) :
    script md r fd = lines md (otherEnd (r, fd)).1 (otherEnd (r, fd)).2 := by
  revert hlit hne
  cases md <;> cases r <;> cases fd <;> decide

theorem script_dst (hmd : md.isShm = false) : script md .backup .dstfd = dstScript := by
  revert hmd
  cases md <;> decide

theorem mem_script {r : Role} {o : Option Signal} {fd : Fd} {m : Msg}
    (hi : .read fd m ∈ code md r o) : m ∈ script md r fd := by
  obtain rfl := reader_of_touchesBuff hi rfl
  exact List.mem_flatMap.mpr ⟨_, hi, by simp [Instr.asks]⟩

/-- Literals are written in handlers. -/
theorem write_literal {r : Role} (hlit : Literal md r) {o : Option Signal} {fd : Fd} {arg : Arg}
    (hi : .write fd arg ∈ code md r o) : ∃ s m, o = some s ∧ arg = .text m := by
  have hthread : o = none → ∀ i ∈ code md r o, i.sendsOn fd = false := by
    clear hi
    revert hlit
    cases md <;> cases r <;> rcases o with _ | _ | _ <;> cases fd <;> decide
  have hchosen : .write fd .chosen ∉ code md r o := by
    clear hi hthread
    revert hlit
    cases md <;> cases r <;> rcases o with _ | _ | _ <;> cases fd <;> decide
  cases o with
  | none =>
    have hsends := hthread rfl _ hi
    simp [Instr.sendsOn] at hsends
  | some s =>
    cases arg with
    | text m => exact ⟨s, m, rfl, rfl⟩
    | chosen => exact absurd hi hchosen

/-- Who sends literals in two handlers. -/
theorem second_handler {r : Role} (hlit : Literal md r) (hcode : code md r (some .usr2) ≠ []) :
    md = .shm ∧ r = .src := by
  revert hlit hcode
  cases md <;> cases r <;> decide

end Definitions

/-! ## Bytes and messages -/

/-- Bytes of instructions that belong to one thread and are worth whole messages. -/
theorem bytesOf_eq_wire {p : Instr → Bool} {f : Instr → List Msg} {r : Role} {o : Option Signal}
    {log : List Entry}
    (honly : ∀ o' i d, (⟨r, o', .did i d⟩ : Entry) ∈ log → p i = true → o' = o)
    (hbytes : ∀ o' i d, (⟨r, o', .did i d⟩ : Entry) ∈ log → p i = true → d.bytes = wire (f i))
    (hf : ∀ i, p i = false → f i = []) :
    bytesOf p r log = wire ((didOf r o log).flatMap f) := by
  have hfilter : ((didOf r o log).filter p).flatMap f = (didOf r o log).flatMap f := by
    generalize didOf r o log = is
    induction is with
    | nil => rfl
    | cons i is ih =>
      cases hp : p i with
      | true => rw [List.filter_cons_of_pos hp, List.flatMap_cons, List.flatMap_cons, ih]
      | false =>
        rw [List.filter_cons_of_neg (by rw [hp]; exact Bool.false_ne_true), List.flatMap_cons,
          hf i hp, ih, List.nil_append]
  rw [bytesOf, ← hfilter, ← ops_map_fst honly, wire, List.flatMap_assoc, List.flatMap_map]
  refine List.flatMap_congr fun x hx => ?_
  obtain ⟨hp, o', hmem⟩ := mem_ops.mp hx
  exact hbytes o' x.1 x.2 hmem hp

/-- A start in between is no instruction. -/
theorem didOf_around_start (r r' : Role) (o : Option Signal) (s : Signal) (l₁ l₂ : List Entry) :
    didOf r o (l₁ ++ ⟨r', some s, .started⟩ :: l₂) = didOf r o l₁ ++ didOf r o l₂ := by
  rw [← List.singleton_append, didOf_append, didOf_append, didOf_single_of_none rfl,
    List.nil_append]

section Streams

variable {md : Mode} {st : Role → Settings} {σ : Net}
  (h : Reach (machine (fun _ => md) st).step (Orderly md) (start (fun _ => md) st) σ)
  (hc : Calm md st σ)

include h

/-- The literals among some of the entries, if one handler alone is at work there. -/
theorem bytesOf_literal {r : Role} (hlit : Literal md r) (fd : Fd) (s : Signal) {l : List Entry}
    (hl : l ⊆ σ.log) (halone : didOf r (some (other s)) l = []) :
    bytesOf (Instr.sendsOn fd) r l = wire ((didOf r (some s) l).flatMap (Instr.texts fd)) := by
  refine bytesOf_eq_wire (p := Instr.sendsOn fd) (f := Instr.texts fd) ?_ ?_ fun i hi => ?_
  · intro o' i d hx hi
    obtain ⟨arg, rfl⟩ := write_of_sendsOn hi
    obtain ⟨s', m, rfl, -⟩ := write_literal hlit (in_code h (hl hx))
    by_contra hne
    have hs' : s' = other s := by cases s <;> cases s' <;> first | rfl | exact absurd rfl hne
    have hmem := mem_didOf.mpr ⟨d, hx⟩
    rw [hs', halone] at hmem
    cases hmem
  · intro o' i d hx hi
    obtain ⟨arg, rfl⟩ := write_of_sendsOn hi
    obtain ⟨-, m, -, rfl⟩ := write_literal hlit (in_code h (hl hx))
    rcases bytes_of_sends h (hl hx) hi with hnil | ⟨m', hsays | ⟨hchosen, -⟩, hbytes⟩
    · exact absurd hnil (handler_sends h (hl hx))
    · cases hsays
      rw [hbytes]
      simp [Instr.texts, wire]
    · cases hchosen
  · cases i with
    | write fd' arg =>
      cases arg with
      | text m => exact if_neg (of_decide_eq_false hi)
      | chosen => rfl
    | _ => rfl

include hc

/-- What a party has taken, it has asked for. -/
theorem Calm.takenAt_eq (r : Role) (fd : Fd) :
    takenAt (r, fd) σ.log = wire ((didOf r (reader r) σ.log).flatMap (Instr.asks fd)) := by
  have hread : ∀ {i : Instr}, i.readsOn fd = true → ∃ m, i = .read fd m := by
    intro i hi
    cases i with
    | read fd' m =>
      obtain rfl : fd' = fd := of_decide_eq_true hi
      exact ⟨m, rfl⟩
    | _ => cases hi
  refine bytesOf_eq_wire (p := Instr.readsOn fd) (f := Instr.asks fd) ?_ ?_ fun i hi => ?_
  · intro o' i d hx hi
    obtain ⟨m, rfl⟩ := hread hi
    exact reader_of_touchesBuff (in_code h hx) rfl
  · intro o' i d hx hi
    obtain ⟨m, rfl⟩ := hread hi
    rw [hc.whole r o' fd m d hx]
    simp [Instr.asks, wire]
  · cases i with
    | read fd' m => exact if_neg (of_decide_eq_false hi)
    | _ => rfl

/-- A thread has done an initial part of its code. -/
theorem Calm.didOf_initial (r : Role) (o : Option Signal) : didOf r o σ.log <+: code md r o := by
  rcases Reach.once h (hc.alive r) (hc.once r o) with ⟨-, hnil, -⟩ | ⟨-, hcode⟩
  · rw [hnil]
    exact List.nil_prefix
  · exact ⟨_, hcode⟩

/-- **One handler after the other**: when the handler of SIGUSR1 starts, that of SIGUSR2 is done. -/
theorem Calm.in_turn {r : Role} (hlit : Literal md r) {l₁ l₂ : List Entry}
    (hlog : σ.log = l₁ ++ ⟨r, some .usr1, .started⟩ :: l₂) :
    didOf r (some .usr1) l₁ = [] ∧ didOf r (some .usr2) l₁ = code md r (some .usr2) ∧
      didOf r (some .usr2) l₂ = [] := by
  obtain ⟨σ₁, hr, ⟨hdue, hfresh⟩, rfl, -, -⟩ := at_started h hlog
  have hfirst : didOf r (some .usr1) σ₁.log = [] := by
    obtain ⟨rest, hrest, -⟩ := Reach.inOrder hr r (some .usr1)
    rw [hfresh, List.replicate_zero, List.flatten_nil] at hrest
    exact (List.append_eq_nil_iff.mp hrest).1
  have hpre : didOf r (some .usr2) σ₁.log ++ didOf r (some .usr2) l₂
      <+: code md r (some .usr2) := by
    rw [← didOf_around_start r r _ .usr1, ← hlog]
    exact hc.didOf_initial h r (some .usr2)
  have hall : didOf r (some .usr2) σ₁.log = code md r (some .usr2) := by
    have hpre₁ := (List.prefix_append _ _).trans hpre
    by_cases hcode : code md r (some .usr2) = []
    · rw [hcode] at hpre₁ ⊢
      exact List.prefix_nil.mp hpre₁
    · -- the source of shared-memory mode has set `sigusr1_count`, the last thing it does there
      obtain ⟨rfl, rfl⟩ := second_handler hlit hcode
      obtain ⟨o, d, hd⟩ := hdue
      obtain ⟨-, rfl⟩ := setCount_shm (in_code hr hd)
      have hlast : code .shm .src (some .usr2)
          = (code .shm .src (some .usr2)).dropLast ++ [.setCount] := by decide
      rw [hlast] at hpre₁ ⊢
      refine (List.prefix_concat_iff.mp hpre₁).resolve_right fun hshort => ?_
      exact absurd (hshort.subset (mem_didOf.mpr ⟨d, hd⟩)) (by decide)
  refine ⟨hfirst, hall, ?_⟩
  have hlen := hpre.length_le
  rw [List.length_append, hall] at hlen
  exact List.length_eq_zero_iff.mp (by omega)

/-- **What a party that sends literals has sent.** -/
theorem Calm.sentAt_literal {r : Role} (hlit : Literal md r) (fd : Fd) :
    sentAt (r, fd) σ.log = wire (spoken r fd σ.log) := by
  rcases Reach.once h (hc.alive r) (hc.once r (some .usr1)) with ⟨-, hnil, -⟩ | ⟨h1, -⟩
  · rw [spoken, hnil, List.flatMap_nil, List.append_nil]
    exact bytesOf_literal h hlit fd .usr2 (List.Subset.refl _) hnil
  · obtain ⟨l₁, l₂, hlog⟩ := List.append_of_mem (mem_of_starts (by rw [h1]; exact one_ne_zero))
    obtain ⟨hfirst, -, hsecond⟩ := hc.in_turn h hlit hlog
    have hsub₁ : l₁ ⊆ σ.log := by
      rw [hlog]
      exact List.subset_append_left _ _
    have hsub₂ : l₂ ⊆ σ.log := by
      rw [hlog]
      exact List.Subset.trans (List.subset_cons_self _ _) (List.subset_append_right _ _)
    have hsplit : ∀ o, didOf r o σ.log = didOf r o l₁ ++ didOf r o l₂ := fun o => by
      rw [hlog, didOf_around_start]
    have hbytes : sentAt (r, fd) σ.log
        = bytesOf (Instr.sendsOn fd) r l₁ ++ bytesOf (Instr.sendsOn fd) r l₂ := by
      rw [sentAt, hlog, ← List.singleton_append, bytesOf_append, bytesOf_append,
        bytesOf_of_not_did _ _ _ _ rfl, List.nil_append]
    rw [hbytes, bytesOf_literal h hlit fd .usr2 hsub₁ hfirst,
      bytesOf_literal h hlit fd .usr1 hsub₂ hsecond, ← wire_append, spoken, hsplit, hsplit, hfirst,
      hsecond, List.append_nil, List.nil_append]

/-- It has said an initial part of what it has to say. -/
theorem Calm.spoken_initial {r : Role} (hlit : Literal md r) (fd : Fd) :
    spoken r fd σ.log <+: lines md r fd := by
  rcases Reach.once h (hc.alive r) (hc.once r (some .usr1)) with ⟨-, hnil, -⟩ | ⟨h1, -⟩
  · rw [spoken, hnil, List.flatMap_nil, List.append_nil]
    exact ((hc.didOf_initial h r (some .usr2)).flatMap _).trans (List.prefix_append _ _)
  · obtain ⟨l₁, l₂, hlog⟩ := List.append_of_mem (mem_of_starts (by rw [h1]; exact one_ne_zero))
    obtain ⟨-, hall, hsecond⟩ := hc.in_turn h hlit hlog
    have hdone : didOf r (some .usr2) σ.log = code md r (some .usr2) := by
      rw [hlog, didOf_around_start, hall, hsecond, List.append_nil]
    rw [spoken, lines, hdone]
    exact (List.prefix_append_right_inj _).mpr ((hc.didOf_initial h r (some .usr1)).flatMap _)

/-- **What is sent to a party is an initial part of its script.** -/
theorem Calm.sent_script (ht : md.isShm = false → Turns md st σ) {r : Role} {o : Option Signal}
    {fd : Fd} {m : Msg} (hi : .read fd m ∈ code md r o) :
    ∃ ms, ms <+: script md r fd ∧ sentAt (otherEnd (r, fd)) σ.log = wire ms := by
  have hne := List.ne_nil_of_mem (mem_script hi)
  by_cases hlit : Literal md (otherEnd (r, fd)).1
  · rw [script_eq_lines hlit hne]
    exact ⟨_, hc.spoken_initial h hlit _, hc.sentAt_literal h hlit _⟩
  · obtain ⟨hmd, hdst⟩ := not_or.mp hlit
    replace hmd : md.isShm = false := Bool.not_eq_true _ ▸ hmd
    obtain ⟨rfl, rfl⟩ : r = .backup ∧ fd = .dstfd := by
      clear hlit ht hi h hc
      revert hmd hdst hne
      cases md <;> cases r <;> cases fd <;> decide
    rw [script_dst hmd]
    exact ⟨_, List.take_prefix _ _, (ht hmd).said⟩

/-- **What is pending starts with what is asked for.** -/
theorem Calm.inbox_at_read (hst : Proper st) (ht : md.isShm = false → Turns md st σ) {r : Role}
    {o : Option Signal} {fd : Fd} {m : Msg} {t : List Instr}
    (htop : (σ.proc r).todoOf o = .read fd m :: t)
    (hne : σ.world.inbox (r, fd) ≠ []) : ∃ rest, σ.world.inbox (r, fd) = m.bytes ++ rest := by
  rcases Reach.once h (hc.alive r) (hc.once r o) with ⟨-, -, hnil⟩ | ⟨-, hcode⟩
  · rw [hnil] at htop
    cases htop
  · rw [htop] at hcode
    replace hcode : didOf r o σ.log ++ .read fd m :: t = code md r o := hcode
    have hi : .read fd m ∈ code md r o := by
      rw [← hcode]
      exact List.mem_append_right _ List.mem_cons_self
    obtain rfl := reader_of_touchesBuff hi rfl
    obtain ⟨ms, hms, hsent⟩ := hc.sent_script h ht hi
    have hflow := flow_of_proper hst h (r, fd)
    rw [hsent, hc.takenAt_eq h] at hflow
    have hscript : (didOf r (reader r) σ.log).flatMap (Instr.asks fd) ++
        m :: t.flatMap (Instr.asks fd) = script md r fd := by
      rw [script, ← hcode, List.flatMap_append, List.flatMap_cons]
      simp [Instr.asks]
    exact wire_continues hscript hms hflow hne

end Streams

end QemuStudy.Deployment
