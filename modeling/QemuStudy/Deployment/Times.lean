/-
  Times and order in the history of a deployment, whatever the environment.

  Every instruction is recorded with the time at which it was done.

  1. Recorded times never decrease along the history (`Before.time_le`).
  2. A clock variable holds the time of one of its readings (`stamp_of_reach`).
  3. "Happened before" (`Before`) follows from the code inside a thread (`before_in_thread`) and,
     between parties, from a matched message (`before_of_matched`).  An entry may occur more than
     once, so the relation is not transitive; a chain is built by going back to the state in which
     the later entry was recorded (`Before.state`).
-/
import QemuStudy.Deployment.Authentic

namespace QemuStudy.Deployment

open QemuStudy.Controller (Role Signal Fd Msg End otherEnd)
open QemuStudy.Threads
open QemuStudy.Runs

/-! ## Times -/

theorem Effect.time {st : Settings} {r : Role} {i : Instr} {v v' : Vars} {l l' : Locals}
    {w w' : World} {d : Data} (h : Effect st r v l w i v' l' w' d) :
    d.time = w.now ∧ w'.now = w.now := by
  cases h with
  | write fd arg _ =>
    obtain ⟨inbox, hw⟩ := w.send_eq (r, fd) (arg.eval l).bytes
    rw [hw]
    exact ⟨rfl, rfl⟩
  | _ => exact ⟨rfl, rfl⟩

/-- `x` stands before `y` in the history. -/
def Before (log : List Entry) (x y : Entry) : Prop := ∃ l₁ l₂, log = l₁ ++ y :: l₂ ∧ x ∈ l₁

theorem Before.left {log : List Entry} {x y : Entry} (h : Before log x y) : x ∈ log := by
  obtain ⟨l₁, l₂, rfl, hx⟩ := h
  exact List.mem_append_left _ hx

/-! ## Who sends what -/

/-- The handler that sends a literal, and the descriptor. -/
def senderOf : Msg → Option (Role × Signal × Fd)
  | .qemuMigrate | .shmMigrate | .shmMigrateSwitchover => some (.backup, .usr1, .srcfd)
  | .startTargetVm | .shmLoadVmImage => some (.backup, .usr1, .dstfd)
  | .qemuPreCopyFinish | .completeVmImage => some (.src, .usr1, .connfd)
  | .shmPreCopyFinish => some (.src, .usr2, .connfd)
  | .switchoverFinished => some (.dst, .usr1, .connfd)
  | .qemuVmRestart | .qemuPostCopyFinish => none

section Senders

variable {md : Mode} {r : Role} {o : Option Signal} {fd : Fd}

theorem sender_of_text {r' : Role} {fd' : Fd} {m : Msg} {s : Signal}
    (hm : senderOf m = some (r', s, fd')) (hi : .write fd (.text m) ∈ code md r o) :
    r = r' ∧ o = some s ∧ fd = fd' := by
  have hall : ∀ i ∈ code md r o, ∀ f ∈ [Fd.connfd, .srcfd, .dstfd], ∀ m' ∈ i.texts f,
      ∀ x ∈ senderOf m', r = x.1 ∧ o = some x.2.1 ∧ f = x.2.2 := by
    cases md <;> cases r <;> rcases o with _ | _ | _ <;> decide
  exact hall _ hi fd (by cases fd <;> decide) m (by simp [Instr.texts]) _ hm

/-- Only the destination of a QEMU mode chooses what to send. -/
theorem chosen_is_dst (hi : .write fd .chosen ∈ code md r o) : md.isShm = false ∧ r = .dst := by
  revert hi
  cases md <;> cases r <;> rcases o with _ | _ | _ <;> cases fd <;> decide

theorem sender_of_dst {m : Msg} (hmd : md.isShm = false) (hdst : (otherEnd (r, fd)).1 = .dst)
    (hi : .read fd m ∈ code md r o) : senderOf m = none := by
  have hall : ∀ i ∈ code md r o, ∀ m' ∈ i.asks fd, senderOf m' = none := by
    clear hi
    revert hmd hdst
    cases md <;> cases r <;> rcases o with _ | _ | _ <;> cases fd <;> decide
  exact hall _ hi m (by simp [Instr.asks])

end Senders

section Runs

variable {mode : Role → Mode} {st : Role → Settings} {allowed : Net → Choice → Prop} {σ : Net}
  (h : Reach (machine mode st).step allowed (start mode st) σ)

include h

/-- Back to the state in which the later entry is recorded. -/
theorem Before.state {x : Entry} {r : Role} {o : Option Signal} {i : Instr} {d : Data}
    (hb : Before σ.log x ⟨r, o, .did i d⟩) :
    ∃ σ₁, Reach (machine mode st).step allowed (start mode st) σ₁ ∧ x ∈ σ₁.log ∧
      σ₁.log ++ [⟨r, o, .did i d⟩] <+: σ.log := by
  obtain ⟨l₁, l₂, hlog, hx⟩ := hb
  obtain ⟨σ₁, c, t, v, l, w, hr, -, rfl, -⟩ := at_did h hlog
  exact ⟨σ₁, hr, hx, l₂, by rw [hlog, List.append_assoc, List.singleton_append]⟩

/-- Nothing is recorded in the future. -/
theorem time_le_now : ∀ e ∈ σ.log, ∀ i d, e.event = .did i d → d.time ≤ σ.world.now := by
  refine Reach.recorded (fun w log => ∀ e ∈ log, ∀ i d, e.event = .did i d → d.time ≤ w.now)
    (fun e he => absurd he List.not_mem_nil)
    (fun ih e he i d hd => (ih e he i d hd).trans (Nat.le_add_right _ _))
    (fun hx ih e he i d hd => ?_) (fun _ ih _ _ hexec e he i d hd => ?_) h
  · rcases List.mem_append.mp he with he | he
    · exact ih e he i d hd
    · rw [← List.mem_singleton.mp he, hd] at hx
      cases hx
  · obtain ⟨htime, hnow⟩ := (machine_effect hexec).time
    rcases List.mem_append.mp he with he | he
    · exact hnow ▸ ih e he i d hd
    · rw [List.mem_singleton.mp he] at hd
      cases hd
      rw [htime, hnow]

/-- **Recorded times never decrease.** -/
theorem Before.time_le {r r' : Role} {o o' : Option Signal} {i j : Instr} {d d' : Data}
    (hb : Before σ.log ⟨r', o', .did j d'⟩ ⟨r, o, .did i d⟩) : d'.time ≤ d.time := by
  obtain ⟨l₁, l₂, hlog, hx⟩ := hb
  obtain ⟨σ₁, c, t, v, l, w, hr, -, hl, -, -, hexec⟩ := at_did h hlog
  rw [(machine_effect hexec).time.1]
  exact time_le_now hr _ (hl ▸ hx) j d' rfl

/-- A clock variable that was set holds the time of one of its readings. -/
theorem stamp_of_reach {r : Role} (hlive : (σ.proc r).alive = true) {x : Clock}
    (hdid : Did r (.clock x) σ.log) :
    ∃ o d, (⟨r, o, .did (.clock x) d⟩ : Entry) ∈ σ.log ∧ (σ.proc r).vars.stamp x = d.time := by
  have hkept : Kept (machine mode st) fun r p log => Did r (.clock x) log →
      ∃ o d, (⟨r, o, .did (.clock x) d⟩ : Entry) ∈ log ∧ p.vars.stamp x = d.time := by
    have hother : ∀ {r : Role} {v : Vars} {log : List Entry} {e : Entry},
        (Did r (.clock x) log →
          ∃ o d, (⟨r, o, .did (.clock x) d⟩ : Entry) ∈ log ∧ v.stamp x = d.time) →
        (∀ o d, e ≠ ⟨r, o, .did (.clock x) d⟩) → Did r (.clock x) (log ++ [e]) →
        ∃ o d, (⟨r, o, .did (.clock x) d⟩ : Entry) ∈ log ++ [e] ∧ v.stamp x = d.time := by
      intro r v log e ih hne hd
      obtain ⟨o, d, hmem, hstamp⟩ :=
        ih ((did_append.mp hd).resolve_right fun ⟨o, d, heq⟩ => hne o d heq)
      exact ⟨o, d, List.mem_append_left _ hmem, hstamp⟩
    constructor
    · rintro r ⟨o, d, hx⟩
      cases hx
    · exact fun r p p' log hsame ih => hsame.vars ▸ ih
    · exact fun r p log e he ih hd => hother ih (fun o d heq => he (heq ▸ rfl)) hd
    · intro r c o i t v l w w' d p p' log ih _ hexec _ hvars hd
      rw [hvars]
      by_cases hi : i = .clock x
      · subst hi
        refine ⟨o, d, List.mem_append_right _ (List.mem_singleton.mpr rfl), ?_⟩
        cases machine_effect hexec with
        | plain hp => cases hp
        | clock _ => simp [World.note]
      · have hkeeps : v.stamp x = p.vars.stamp x := by
          cases machine_effect hexec with
          | clock y => exact Function.update_of_ne (fun heq : x = y => hi (by rw [heq])) _ _
          | _ => rfl
        rw [hkeeps]
        refine hother ih (fun o' d' heq => ?_) hd
        cases heq
        exact hi rfl
    · intro r s p p' log ih _ _ hvars hd
      rw [hvars]
      refine hother ih (fun o d heq => ?_) hd
      cases heq
  exact Reach.each hkept h r hlive hdid

/-! ## What happened before -/

/-- Inside a thread the code decides. -/
theorem before_in_thread {r : Role} {o : Option Signal} {i j : Instr} {d : Data}
    (hx : (⟨r, o, .did i d⟩ : Entry) ∈ σ.log)
    (hj : j ∈ (code (mode r) r o).takeWhile (· ≠ i)) :
    ∃ d', Before σ.log ⟨r, o, .did j d'⟩ ⟨r, o, .did i d⟩ := by
  obtain ⟨l₁, l₂, hlog⟩ := List.append_of_mem hx
  obtain ⟨d', hd'⟩ := mem_before_did h hlog hj
  exact ⟨d', l₁, l₂, hlog, hd'⟩

/-- A message was sent before it was matched. -/
theorem before_of_matched {r : Role} {o : Option Signal} {m : Msg} {d : Data}
    (hx : (⟨r, o, .did (.assertStrcmp m) d⟩ : Entry) ∈ σ.log) :
    ∃ fd, .read fd m ∈ code (mode r) r o ∧ ∃ o' arg d', d'.bytes = m.bytes ∧
      Before σ.log ⟨(otherEnd (r, fd)).1, o', .did (.write (otherEnd (r, fd)).2 arg) d'⟩
        ⟨r, o, .did (.assertStrcmp m) d⟩ := by
  obtain ⟨l₁, l₂, hlog⟩ := List.append_of_mem hx
  obtain ⟨σ₁, c, t, v, l, w, hr, -, rfl, hlive, htop, hexec⟩ := at_did h hlog
  obtain ⟨fd, hread, o', i, d', hd', hi, hbytes⟩ :=
    sent_of_matched hr hlive htop (cstr_of_assertStrcmp hexec)
  obtain ⟨arg, rfl⟩ := write_of_sendsOn hi
  exact ⟨fd, hread, o', arg, d', hbytes, _, l₂, hlog, hd'⟩

/-- **One message back.**  A literal that was matched comes out of the handler that sends it, in a
    process of the same family. -/
theorem handler_before_match {r r' : Role} {o : Option Signal} {m : Msg} {d : Data} {s : Signal}
    {fd' : Fd} (hm : senderOf m = some (r', s, fd'))
    (hx : (⟨r, o, .did (.assertStrcmp m) d⟩ : Entry) ∈ σ.log) :
    (mode r').isShm = (mode r).isShm ∧ ∃ d', d'.bytes = m.bytes ∧
      Before σ.log ⟨r', some s, .did (.write fd' (.text m)) d'⟩
        ⟨r, o, .did (.assertStrcmp m) d⟩ := by
  obtain ⟨fd, hread, o', arg, d', hbytes, hbefore⟩ := before_of_matched h hx
  have hsends : Instr.sendsOn (otherEnd (r, fd)).2 (.write (otherEnd (r, fd)).2 arg) = true := by
    simp [Instr.sendsOn]
  have hfamily := family_of_sent h hread ⟨o', _, d', hbefore.left, hsends, hbytes⟩
  have hcode := mem_code h hbefore.left
  have harg : arg = .text m := by
    cases arg with
    | chosen =>
      obtain ⟨hqemu, hdst⟩ := chosen_is_dst hcode
      rw [sender_of_dst (hfamily ▸ hqemu) hdst hread] at hm
      cases hm
    | text m' =>
      rcases bytes_of_sends h hbefore.left hsends with hnil | ⟨m'', hsays, hm''⟩
      · exact absurd (hbytes.symm.trans hnil) m.bytes_ne_nil
      · rcases hsays with htext | ⟨hchosen, -⟩
        · cases htext
          rw [Msg.bytes_injective (hbytes.symm.trans hm'')]
        · cases hchosen
  subst harg
  obtain ⟨hrole, rfl, hfd⟩ := sender_of_text hm hcode
  refine ⟨hrole ▸ hfamily, d', hbytes, ?_⟩
  rw [hrole, hfd] at hbefore
  exact hbefore

end Runs

end QemuStudy.Deployment
