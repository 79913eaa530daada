/-
  The destination of a QEMU mode: two handlers, one body.

  Both handlers send the message that `sigusr1_count` selects and then set it.  In an orderly
  environment they run one after the other (`Turns.turn_step`), so the first to run finds it clear
  and the second finds it set (`Turns.count_at`), whichever signal came first; what the destination
  has sent is then the first `dstWrites` messages of `dstScript` (`Turns.said_step`).

  With this every field of `Calm` and `Turns` is kept by every step: `Calm.of_reach`,
  `Turns.of_reach`.
-/
import QemuStudy.Deployment.Calm

namespace QemuStudy.Deployment

open QemuStudy.Controller (Role Signal Fd Msg End otherEnd wire)
open QemuStudy.Threads
open QemuStudy.Runs

/-! ## The code -/

section Code

variable {md : Mode}

/-- Directly before the write of a chosen message stands the choice between the two
    notifications. -/
theorem choose_before_write {r : Role} {o : Option Signal} {i : Instr} {fd : Fd} {t : List Instr}
    (h : i :: .write fd .chosen :: t <:+ code md r o) :
    i = .choose .qemuVmRestart .qemuPostCopyFinish := by
  have hp := precedes_of_suffix h
  cases i with
  | choose clear set =>
    obtain ⟨rfl, rfl⟩ : clear = .qemuVmRestart ∧ set = .qemuPostCopyFinish := of_decide_eq_true hp
    rfl
  | _ => cases hp

/-- A handler looks at `sigusr1_count` once to choose its message. -/
theorem choose_once (hmd : md.isShm = false) (s : Signal) :
    (code md .dst (some s)).count (.choose .qemuVmRestart .qemuPostCopyFinish) ≤ 1 := by
  revert hmd
  cases md <;> cases s <;> decide

/-- It sets `sigusr1_count` only after that, so it does not see its own assignment. -/
theorem setCount_after_choose (hmd : md.isShm = false) (s : Signal) :
    .setCount ∉ (code md .dst (some s)).takeWhile
      (· ≠ .choose .qemuVmRestart .qemuPostCopyFinish) := by
  revert hmd
  cases md <;> cases s <;> decide

/-- Each of the two handlers sets `sigusr1_count`. -/
theorem setCount_mem (hmd : md.isShm = false) (s : Signal) :
    .setCount ∈ code md .dst (some s) := by
  revert hmd
  cases md <;> cases s <;> decide

/-- Nobody else at the destination does. -/
theorem setCount_thread (hmd : md.isShm = false) (s : Signal) {o : Option Signal}
    (hi : .setCount ∈ code md .dst o) : o = some s ∨ o = some (other s) := by
  revert hmd hi
  cases md <;> rcases o with _ | _ | _ <;> cases s <;> decide

/-- A handler sends one message. -/
theorem write_chosen_once (s : Signal) :
    (code md .dst (some s)).count (.write .connfd .chosen) ≤ 1 := by
  cases md <;> cases s <;> decide

/-- Each of the two handlers sends the message it has chosen. -/
theorem write_chosen_mem (hmd : md.isShm = false) (s : Signal) :
    .write .connfd .chosen ∈ code md .dst (some s) := by
  revert hmd
  cases md <;> cases s <;> decide

/-- The destination of a QEMU mode sends nothing else. -/
theorem dst_write_chosen (hmd : md.isShm = false) {o : Option Signal} {fd : Fd} {arg : Arg}
    (hi : .write fd arg ∈ code md .dst o) : arg = .chosen := by
  have hall : ∀ i ∈ code md .dst o, i.texts fd = [] := by
    revert hmd
    cases md <;> rcases o with _ | _ | _ <;> cases fd <;> decide
  cases arg with
  | text m => simpa [Instr.texts] using hall _ hi
  | chosen => rfl

/-- A handler does not start with its write: it has chosen first. -/
theorem handler_ne_write (s : Signal) (t : List Instr) :
    code md .dst (some s) ≠ .write .connfd .chosen :: t := by
  intro heq
  have hhead := congrArg List.head? heq
  cases md <;> cases s <;> cases hhead

/-- When a handler is to start, the other one is not at work. -/
theorem other_idle (hmd : md.isShm = false) {σ : Net} {s : Signal}
    (hx : Orderly md σ (.signal .dst s)) : (σ.proc .dst).todoOf (some (other s)) = [] := by
  have hdue := hx.1
  rw [due_qemu hmd] at hdue
  exact hdue.2

end Code

/-! ## One handler after the other -/

section Steps

variable {md : Mode} {st : Role → Settings} {σ : Net} (hmd : md.isShm = false)
  (h : Reach (machine (fun _ => md) st).step (Orderly md) (start (fun _ => md) st) σ)
  (hc : Calm md st σ) (ht : Turns md st σ)

include h hc ht

/-- While one handler of the destination runs, the other has run completely or not at all. -/
theorem Turns.other_done {s : Signal}
    (hbusy : (σ.proc .dst).todoOf (some s) ≠ []) :
    (starts .dst (some (other s)) σ.log = 0 ∧ didOf .dst (some (other s)) σ.log = []) ∨
      (starts .dst (some (other s)) σ.log ≠ 0 ∧
        didOf .dst (some (other s)) σ.log = code md .dst (some (other s))) := by
  rcases Reach.once h (hc.alive .dst) (hc.once .dst (some (other s))) with
    ⟨h0, hnil, -⟩ | ⟨h1, hcode⟩
  · exact Or.inl ⟨h0, hnil⟩
  · rw [ht.turn s hbusy, List.append_nil] at hcode
    exact Or.inr ⟨by omega, hcode⟩

include hmd

/-- When a handler looks at `sigusr1_count`, it is set exactly if the other one has run. -/
theorem Turns.count_at {s : Signal} {t : List Instr}
    (htop : (σ.proc .dst).todoOf (some s)
      = .choose .qemuVmRestart .qemuPostCopyFinish :: t) :
    (σ.proc .dst).vars.count = true ↔ starts .dst (some (other s)) σ.log ≠ 0 := by
  have hbusy : (σ.proc .dst).todoOf (some s) ≠ [] := by
    rw [htop]
    exact List.cons_ne_nil _ _
  rw [count_iff_did h (hc.alive .dst)]
  constructor
  · rintro ⟨o, d, hx⟩
    have hown : .setCount ∉ didOf .dst (some s) σ.log := by
      rw [Reach.didOf_at h (hc.alive .dst) (hc.once .dst (some s)) htop (choose_once hmd s)]
      exact setCount_after_choose hmd s
    have hset := mem_didOf.mpr ⟨d, hx⟩
    rcases ht.other_done h hc hbusy with ⟨-, hnil⟩ | ⟨hne, -⟩
    · rcases setCount_thread hmd s (in_code h hx) with rfl | rfl
      · exact absurd hset hown
      · rw [hnil] at hset
        cases hset
    · exact hne
  · intro hne
    rcases ht.other_done h hc hbusy with ⟨h0, -⟩ | ⟨-, hcode⟩
    · exact absurd h0 hne
    · have hmem : .setCount ∈ didOf .dst (some (other s)) σ.log := by
        rw [hcode]
        exact setCount_mem hmd (other s)
      obtain ⟨d, hx⟩ := mem_didOf.mp hmem
      exact ⟨_, d, hx⟩

omit h hc in
/-- An entry that is not a write of the destination. -/
theorem Turns.said_other {σ' : Net}
    (h' : Reach (machine (fun _ => md) st).step (Orderly md) (start (fun _ => md) st) σ')
    {e : Entry} (hlog : σ'.log = σ.log ++ [e])
    (hne : ∀ o d, e ≠ ⟨.dst, o, .did (.write .connfd .chosen) d⟩) :
    sentAt (.dst, .connfd) σ'.log = wire (dstScript.take (dstWrites σ'.log)) := by
  have hbytes : bytesOf (Instr.sendsOn .connfd) .dst [e] = [] := by
    by_contra hcon
    obtain ⟨o, i, d, hx, hi, -⟩ := exists_of_bytesOf_ne_nil hcon
    obtain rfl := List.mem_singleton.mp hx
    obtain ⟨arg, rfl⟩ := write_of_sendsOn hi
    have hcode : .write .connfd arg ∈ code md .dst o := by
      refine in_code (d := d) h' ?_
      rw [hlog]
      exact List.mem_append_right _ (List.mem_singleton.mpr rfl)
    rw [dst_write_chosen hmd hcode] at hne
    exact hne o d rfl
  have hdid : ∀ s, .write .connfd .chosen ∈ didOf .dst (some s) σ'.log ↔
      .write .connfd .chosen ∈ didOf .dst (some s) σ.log := by
    intro s
    rw [mem_didOf, mem_didOf, hlog]
    constructor
    · rintro ⟨d, hd⟩
      rcases List.mem_append.mp hd with hd | hd
      · exact ⟨d, hd⟩
      · exact absurd (List.mem_singleton.mp hd).symm (hne _ d)
    · rintro ⟨d, hd⟩
      exact ⟨d, List.mem_append_left _ hd⟩
  have hwrites : dstWrites σ'.log = dstWrites σ.log := by
    simp only [dstWrites, hdid]
  rw [hwrites, hlog, sentAt, bytesOf_append, hbytes, List.append_nil]
  exact ht.said

variable {σ' : Net} {x : Choice} (hx : Orderly md σ x)
  (hchange : Change (machine (fun _ => md) st) σ σ' x)

include hx hchange

/-- The handlers of the destination run one after the other. -/
theorem Turns.turn_step (hst : Proper st) (s : Signal)
    (hbusy : (σ'.proc .dst).todoOf (some s) ≠ []) :
    (σ'.proc .dst).todoOf (some (other s)) = [] := by
  have hkeep : σ'.proc .dst = σ.proc .dst → (σ'.proc .dst).todoOf (some (other s)) = [] := by
    intro heq
    rw [heq] at hbusy ⊢
    exact ht.turn s hbusy
  have hdead : ∀ {r' : Role}, (σ'.proc r').alive = false → r' ≠ .dst := by
    rintro r' hd rfl
    rw [hc.alive_step h hst hx hchange .dst] at hd
    cases hd
  cases hchange with
  | quiet _ _ hsame =>
    rw [(hsame .dst).todo] at hbusy ⊢
    exact ht.turn s hbusy
  | drifts _ _ hproc => exact hkeep (by rw [hproc])
  | stops _ _ _ hd hframe _ _ => exact hkeep (hframe .dst (hdead hd).symm)
  | kills _ _ hd hframe _ _ => exact hkeep (hframe .dst (hdead hd).symm)
  | @does r' c o i t v l w d _ htop _ hmoved _ _ hframe _ _ =>
    by_cases hr : .dst = r'
    · subst hr
      rw [hmoved.todo] at hbusy ⊢
      have hbefore : (σ.proc .dst).todoOf (some s) ≠ [] := by
        by_cases ho : some s = o
        · rw [ho, htop]
          exact List.cons_ne_nil _ _
        · rw [Function.update_of_ne ho] at hbusy
          exact hbusy
      have hother := ht.turn s hbefore
      have ho : some (other s) ≠ o := by
        rintro rfl
        rw [hother] at htop
        cases htop
      rw [Function.update_of_ne ho]
      exact hother
    · exact hkeep (hframe .dst hr)
  | @starts r' s' _ _ hidle hmoved _ _ hframe _ _ =>
    by_cases hr : .dst = r'
    · subst hr
      rw [hmoved.todo] at hbusy ⊢
      by_cases hs : s = s'
      · subst hs
        rw [Function.update_of_ne (by cases s <;> decide)]
        exact other_idle hmd hx
      · have hs' : s = other s' := by cases s <;> cases s' <;> first | rfl | exact absurd rfl hs
        subst hs'
        rw [Function.update_of_ne (by cases s' <;> decide)] at hbusy
        exact absurd (other_idle hmd hx) hbusy
    · exact hkeep (hframe .dst hr)

/-- What a handler of the destination is about to send. -/
theorem Turns.chosen_step (hst : Proper st) (s : Signal) (t : List Instr)
    (htodo : (σ'.proc .dst).todoOf (some s) = .write .connfd .chosen :: t) :
    ((machine (fun _ => md) st).locOf (σ'.proc .dst) (some s)).arg
      = if starts .dst (some (other s)) σ'.log = 0 then .qemuVmRestart
        else .qemuPostCopyFinish := by
  have hkeep : σ'.proc .dst = σ.proc .dst →
      starts .dst (some (other s)) σ'.log = starts .dst (some (other s)) σ.log →
      ((machine (fun _ => md) st).locOf (σ'.proc .dst) (some s)).arg
        = if starts .dst (some (other s)) σ'.log = 0 then .qemuVmRestart
          else .qemuPostCopyFinish := by
    intro hproc hstarts
    rw [hproc] at htodo ⊢
    rw [hstarts]
    exact ht.chosen s t htodo
  have hdead : ∀ {r' : Role}, (σ'.proc r').alive = false → r' ≠ .dst := by
    rintro r' hd rfl
    rw [hc.alive_step h hst hx hchange .dst] at hd
    cases hd
  cases hchange with
  | quiet _ hlog hsame =>
    rw [(hsame .dst).todo] at htodo
    rw [(hsame .dst).loc _ (by rw [htodo]; exact List.cons_ne_nil _ _), hlog]
    exact ht.chosen s t htodo
  | drifts _ hlog hproc => exact hkeep (by rw [hproc]) (by rw [hlog])
  | stops _ _ _ hd hframe _ hlog =>
    exact hkeep (hframe .dst (hdead hd).symm) (by rw [hlog, starts_append_of_not_start rfl])
  | kills _ _ hd hframe _ hlog =>
    exact hkeep (hframe .dst (hdead hd).symm) (by rw [hlog, starts_append_of_not_start rfl])
  | @does r' c o i t' v l w d _ htop hexec hmoved _ _ hframe _ hlog =>
    have hstarts : starts .dst (some (other s)) σ'.log = starts .dst (some (other s)) σ.log := by
      rw [hlog, starts_append_of_not_start rfl]
    by_cases hr : .dst = r'
    · subst hr
      rw [hmoved.todo] at htodo
      by_cases ho : some s = o
      · -- the instruction before the write is the choice
        subst ho
        rw [Function.update_self] at htodo
        subst htodo
        have hsuffix := Reach.each todo_suffix_kept h .dst (hc.alive .dst) (some s)
        rw [htop] at hsuffix
        obtain rfl := choose_before_write hsuffix
        have hcount := ht.count_at hmd h hc htop
        cases hexec
        rw [hmoved.loc, hstarts]
        by_cases h0 : starts .dst (some (other s)) σ.log = 0
        · have hfalse : ¬ (σ.proc .dst).vars.count = true := fun hc' => hcount.mp hc' h0
          rw [if_pos h0]
          exact if_neg hfalse
        · rw [if_neg h0]
          exact if_pos (hcount.mpr h0)
      · rw [Function.update_of_ne ho] at htodo
        rw [hmoved.frame _ ho, hstarts]
        exact ht.chosen s t htodo
    · exact hkeep (hframe .dst hr) hstarts
  | @starts r' s' _ _ _ hmoved _ _ hframe _ hlog =>
    by_cases hr : .dst = r'
    · subst hr
      rw [hmoved.todo] at htodo
      by_cases hs : s = s'
      · subst hs
        rw [Function.update_self] at htodo
        exact absurd htodo (handler_ne_write s t)
      · -- the other handler cannot start while this one is active
        have hs' : s = other s' := by cases s <;> cases s' <;> first | rfl | exact absurd rfl hs
        subst hs'
        rw [Function.update_of_ne (by cases s' <;> decide), other_idle hmd hx] at htodo
        cases htodo
    · refine hkeep (hframe .dst hr) ?_
      rw [hlog, starts_append_start, if_neg fun hc' => hr hc'.1.symm]
      rfl

/-- What the destination has sent. -/
theorem Turns.said_step
    (h' : Reach (machine (fun _ => md) st).step (Orderly md) (start (fun _ => md) st) σ') :
    sentAt (.dst, .connfd) σ'.log = wire (dstScript.take (dstWrites σ'.log)) := by
  cases hchange with
  | quiet _ hlog _ => rw [hlog]; exact ht.said
  | drifts _ hlog _ => rw [hlog]; exact ht.said
  | stops _ _ _ _ _ _ hlog => exact ht.said_other hmd h' hlog fun _ _ => by simp
  | kills _ _ _ _ _ hlog => exact ht.said_other hmd h' hlog fun _ _ => by simp
  | starts _ _ _ _ _ _ _ _ hlog => exact ht.said_other hmd h' hlog fun _ _ => by simp
  | @does r c o i t v l w d _ htop hexec _ _ _ _ _ hlog =>
    by_cases hi : r = .dst ∧ i = .write .connfd .chosen
    · obtain ⟨rfl, rfl⟩ := hi
      have hentry : (⟨.dst, o, .did (.write .connfd .chosen) d⟩ : Entry) ∈ σ'.log := by
        rw [hlog]
        exact List.mem_append_right _ (List.mem_singleton.mpr rfl)
      obtain ⟨s, rfl, -⟩ := write_handler (by decide) (in_code h' hentry)
      have hbytes :
          d.bytes = ((machine (fun _ => md) st).locOf (σ.proc .dst) (some s)).arg.bytes := by
        have hne := handler_sends h' hentry
        cases machine_effect hexec with
        | plain hp => cases hp
        | write _ _ _ => rfl
        | writeNowhere _ _ _ => exact absurd rfl hne
      have hown : .write .connfd .chosen ∉ didOf .dst (some s) σ.log := by
        rw [Reach.didOf_at h (hc.alive .dst) (hc.once .dst (some s)) htop (write_chosen_once s)]
        intro hmem
        simpa using List.mem_takeWhile_imp hmem
      have hown' : .write .connfd .chosen ∈ didOf .dst (some s) σ'.log := mem_didOf.mpr ⟨d, hentry⟩
      have hother : didOf .dst (some (other s)) σ'.log = didOf .dst (some (other s)) σ.log := by
        rw [hlog, didOf_append, didOf_single_of_ne (by cases s <;> decide), List.append_nil]
      have hsent : sentAt (.dst, .connfd) σ'.log = sentAt (.dst, .connfd) σ.log ++ d.bytes := by
        rw [hlog, sentAt, bytesOf_append, bytesOf_did, if_pos ⟨rfl, rfl⟩]
        rfl
      rw [hsent, ht.said, hbytes, ht.chosen s t htop, dstWrites_eq s σ.log, dstWrites_eq s σ'.log,
        hother, if_neg hown, if_pos hown']
      -- the other handler has written exactly if it was started
      rcases ht.other_done h hc (by rw [htop]; exact List.cons_ne_nil _ _) with
        ⟨h0, hnil⟩ | ⟨hne, hcode⟩
      · rw [hnil, if_pos h0, if_neg List.not_mem_nil]
        rfl
      · rw [hcode, if_neg hne, if_pos (write_chosen_mem hmd (other s))]
        rfl
    · refine ht.said_other hmd h' hlog fun o' d' heq => hi ?_
      cases heq
      exact ⟨rfl, rfl⟩

end Steps

/-- **Every orderly run is calm**, and the destination of a QEMU mode takes turns. -/
theorem calm_of_reach {md : Mode} {st : Role → Settings} (hst : Proper st) {σ : Net}
    (h : Reach (machine (fun _ => md) st).step (Orderly md) (start (fun _ => md) st) σ) :
    Calm md st σ ∧ (md.isShm = false → Turns md st σ) := by
  refine Reach.invariant (fun σ => Calm md st σ ∧ (md.isShm = false → Turns md st σ))
    ⟨Calm.initial, fun _ => Turns.initial⟩ (fun σ x hr hinv hx => ?_) h
  obtain ⟨hc, ht⟩ := hinv
  have hchange := Reach.change hr x
  refine ⟨⟨hc.alive_step hr hst hx hchange, hc.once_step hx hchange,
    hc.whole_step hr hst hx hchange ht, hc.lens_step hr hst hx hchange ht⟩, fun hmd => ?_⟩
  have htm := ht hmd
  exact ⟨htm.turn_step hmd hr hc hx hchange hst, htm.chosen_step hmd hr hc hx hchange hst,
    htm.said_step hmd hr hc hx hchange (Reach.next hr hx)⟩

/-- In every mode: nobody has stopped, no handler has run twice, every `read` was whole. -/
theorem Calm.of_reach {md : Mode} {st : Role → Settings} (hst : Proper st) {σ : Net}
    (h : Reach (machine (fun _ => md) st).step (Orderly md) (start (fun _ => md) st) σ) :
    Calm md st σ := (calm_of_reach hst h).1

/-- In a QEMU mode: the destination's handlers take turns, and what they have sent is known. -/
theorem Turns.of_reach {md : Mode} (hmd : md.isShm = false) {st : Role → Settings}
    (hst : Proper st) {σ : Net}
    (h : Reach (machine (fun _ => md) st).step (Orderly md) (start (fun _ => md) st) σ) :
    Turns md st σ := (calm_of_reach hst h).2 hmd

end QemuStudy.Deployment
