/-
  What the history of the three parties means, whatever the schedule.

  `Inv` collects what holds in every reachable state of `Net`, with no assumption on the schedule,
  on how streams are cut into `read`s, or on which signals arrive when:

  * `shaped`  — every thread's remaining code is `Shaped`;
  * `traced`  — what a thread has recorded, followed by what its remaining code is going to record,
                is its program once per delivery.  So recorded actions come in program order, and a
                finished handler has recorded all of its own;
  * `flow`    — all bytes ever written to an end are: the messages accepted there, then the chunk
                that a `read` has just put into the buffer (`Held`), then the inbox;
  * `counted` — `sigusr1_count` is set exactly if some `sigusr1_count = 1` is on record.

  A party that has stopped keeps what it had recorded, so `traced` and `flow` stay true of it with
  an unknown rest.  There is one preservation lemma per field, each a walk through what a step can
  change (`Change`), and `Inv.of_reach` puts them together.

  The second half is what later proofs use:

  * `Inv.hist_repeats`    — a thread records its program, in order, again and again;
  * `Inv.mem_code`        — so whatever is on record stands in the program of its thread;
  * `Inv.matched_of_wrote` — the bytes of the messages accepted at an end are a prefix of the bytes
                            written at the other end;
  * `at_action`           — the state in which a recorded action was done.
-/
import QemuStudy.Controller.History

namespace QemuStudy.Controller

open QemuStudy.Runs

/-- What holds in every state, whatever the schedule, the segmentation and the signals. -/
structure Inv (σ : Net) : Prop where
  wf : ∀ r, (σ.proc r).WF
  shaped : ∀ r, (σ.proc r).alive = true → ∀ o, Shaped r o ((σ.proc r).todoOf o)
  traced : ∀ r o, ∃ f, hist r o σ.log ++ f
      = (List.replicate (starts r o σ.log) (future ((shm r).code o))).flatten ∧
    ((σ.proc r).alive = true → f = future ((σ.proc r).todoOf o))
  flow : ∀ e : End, ∃ cur, wire (wroteAt (otherEnd e) σ.log)
      = wire (matchedAt e σ.log) ++ cur ++ σ.inbox e ∧
    ((σ.proc e.1).alive = true →
      Held e.2 (σ.proc e.1).vars.buff cur ((σ.proc e.1).todoOf (readerOf e.1)))
  counted : ∀ r, (σ.proc r).alive = true →
    ((σ.proc r).vars.count = true ↔ ∃ o, (⟨r, o, .countSet⟩ : Entry) ∈ σ.log)

/-! ## The start -/

theorem Inv.init : Inv Net.start where
  wf r := ⟨List.nodup_nil, by intro s hs; cases hs⟩
  shaped r _ o := by
    cases o with
    | none => exact ⟨_, List.suffix_refl _, Or.inl rfl⟩
    | some s => exact ⟨[], List.nil_suffix, Or.inl rfl⟩
  traced r o := by
    refine ⟨_, ?_, fun _ => rfl⟩
    cases o with
    | none => simp [hist, Net.start, starts, Proc.todoOf, Program.start, Program.code]
    | some s => simp [hist, Net.start, starts, Proc.todoOf, Program.start, todoIn]
  flow e := by
    have hsource : ∀ r, ∀ s ∈ (Net.start.proc r).todoOf (readerOf r), s.source = true := by
      intro r; cases r <;> decide
    exact ⟨[], rfl, fun _ => held_of_source (hsource e.1)⟩
  counted r _ := by simp [Net.start, Program.start]

/-! ## What a step adds to the history -/

/-- A step records at most one entry, of the party that it is about. -/
theorem Change.log_cases {σ σ' : Net} {r : Role} {c : Choice} (h : Change σ σ' r c) :
    σ'.log = σ.log ∨ ∃ o a, σ'.log = σ.log ++ [⟨r, o, a⟩] := by
  cases h with
  | quiet _ _ _ _ hlog => exact Or.inl hlog
  | @moves k ok o s t t' v a _ _ _ _ _ _ _ hlog =>
    cases a with
    | none => exact Or.inl (by simpa using hlog)
    | some a => exact Or.inr ⟨o, a, hlog⟩
  | delivers _ _ _ _ _ _ _ hlog => exact Or.inr ⟨_, _, hlog⟩
  | fails _ _ _ _ _ hlog => exact Or.inr ⟨_, _, hlog⟩
  | killed _ _ _ _ hlog => exact Or.inr ⟨_, _, hlog⟩

/-- Another thread's entry, or one the code does not determine, leaves a thread's record alone. -/
theorem hist_concat_other {r r' : Role} {o o' : Option Signal} {a : Action}
    (h : ¬ (r' = r ∧ o' = o) ∨ Controller.traced a = false) (log : List Entry) :
    hist r o (log ++ [⟨r', o', a⟩]) = hist r o log := by
  rw [hist_append]
  rcases h with h | h
  · rw [hist_single_of_ne h, List.append_nil]
  · rw [hist_single_untraced _ _ _ _ h, List.append_nil]

theorem starts_concat_other {r r' : Role} {o o' : Option Signal} {a : Action}
    (h : ¬ (r' = r ∧ o' = o) ∨ a ≠ .delivered) (log : List Entry) :
    starts r o (log ++ [⟨r', o', a⟩]) = starts r o log := by
  cases o with
  | none => rfl
  | some s =>
    rw [starts, List.count_append, List.count_singleton, if_neg, starts, Nat.add_zero]
    rw [beq_iff_eq, Entry.mk.injEq]
    rintro ⟨hr, ho, ha⟩
    exact h.elim (fun h => h ⟨hr, ho⟩) (fun h => h ha)

section Step

variable {σ σ' : Net} {r₀ : Role} {c : Choice}

/-- Threads keep their shape. -/
theorem Inv.shaped_step (h : Inv σ) (hc : Change σ σ' r₀ c)
    (hframe : ∀ r, r ≠ r₀ → σ'.proc r = σ.proc r) :
    ∀ r, (σ'.proc r).alive = true → ∀ o, Shaped r o ((σ'.proc r).todoOf o) := by
  intro r hlive o
  by_cases hr : r = r₀
  · subst hr
    cases hc with
    | quiet htodo _ halive _ _ => rw [htodo]; exact h.shaped r (halive ▸ hlive) o
    | @moves k ok o₁ s t t' v a hl htop hexec htodo _ _ _ _ =>
      rw [htodo]
      by_cases ho : o = o₁
      · subst ho
        rw [Function.update_self]
        exact (htop ▸ h.shaped r hl o).exec hexec
      · rw [Function.update_of_ne ho]; exact h.shaped r hl o
    | @delivers s hl _ _ htodo _ _ _ _ =>
      rw [htodo]
      by_cases ho : o = some s
      · subst ho
        rw [Function.update_self]
        exact ⟨_, List.suffix_refl _, Or.inl rfl⟩
      · rw [Function.update_of_ne ho]; exact h.shaped r hl o
    | fails _ _ _ hdead _ _ => rw [hdead] at hlive; cases hlive
    | killed _ _ hdead _ _ => rw [hdead] at hlive; cases hlive
  · rw [hframe r hr] at hlive ⊢; exact h.shaped r hlive o

/-- The history of a thread stays a beginning of its code, once per start. -/
theorem Inv.traced_step (h : Inv σ) (hc : Change σ σ' r₀ c)
    (hframe : ∀ r, r ≠ r₀ → σ'.proc r = σ.proc r) :
    ∀ r o, ∃ f, hist r o σ'.log ++ f
      = (List.replicate (starts r o σ'.log) (future ((shm r).code o))).flatten ∧
      ((σ'.proc r).alive = true → f = future ((σ'.proc r).todoOf o)) := by
  intro r o
  obtain ⟨f, hf, hfut⟩ := h.traced r o
  by_cases hr : r = r₀
  · subst hr
    cases hc with
    | quiet htodo _ halive _ hlog =>
      refine ⟨f, by rw [hlog]; exact hf, fun hl => ?_⟩
      rw [htodo]; exact hfut (halive ▸ hl)
    | @moves k ok o₁ s t t' v a hl htop hexec htodo _ _ _ hlog =>
      have hplain := (htop ▸ h.shaped r hl o₁).cons.2.1
      by_cases ho : o = o₁
      · subst ho
        refine ⟨future t', ?_, fun _ => by rw [htodo, Function.update_self]⟩
        rw [hfut hl, htop, ← exec_future hplain hexec, ← List.append_assoc] at hf
        cases a with
        | none => simpa [hlog] using hf
        | some a =>
          have hnd := exec_not_delivered hexec
          have hstart : starts r o σ'.log = starts r o σ.log := by
            rw [hlog]
            exact starts_concat_other (Or.inr fun ha => hnd (congrArg some ha)) _
          rw [hstart, hlog]
          show hist r o (σ.log ++ [⟨r, o, a⟩]) ++ _ = _
          rw [hist_append, hist_single]
          exact hf
      · refine ⟨f, ?_, fun _ => by rw [htodo, Function.update_of_ne ho]; exact hfut hl⟩
        cases a with
        | none => simpa [hlog] using hf
        | some a =>
          have hne : ¬ (r = r ∧ o₁ = o) := fun h => ho h.2.symm
          rw [hlog]
          show hist r o (σ.log ++ [⟨r, o₁, a⟩]) ++ _
            = (List.replicate (starts r o (σ.log ++ [⟨r, o₁, a⟩])) _).flatten
          rw [hist_concat_other (Or.inl hne), starts_concat_other (Or.inl hne)]
          exact hf
    | @delivers s hl _ hidle htodo _ _ _ hlog =>
      rw [hlog, hist_concat_other (Or.inr rfl)]
      by_cases ho : o = some s
      · -- the thread starts over: one more copy of its program is due
        subst ho
        refine ⟨future ((shm r).handler s), ?_, fun _ => by rw [htodo, Function.update_self]⟩
        have hcount : starts r (some s) (σ.log ++ [⟨r, some s, .delivered⟩])
            = starts r (some s) σ.log + 1 := by simp [starts]
        rw [hfut hl, hidle, future_nil, List.append_nil] at hf
        rw [hcount, List.replicate_succ', List.flatten_append, ← hf]
        simp [Program.code]
      · refine ⟨f, ?_, fun _ => by rw [htodo, Function.update_of_ne ho]; exact hfut hl⟩
        rw [starts_concat_other (Or.inl fun h => ho h.2.symm)]
        exact hf
    | fails _ _ _ hdead _ hlog =>
      refine ⟨f, ?_, fun hl => by rw [hdead] at hl; cases hl⟩
      rw [hlog, hist_concat_other (Or.inr rfl), starts_concat_other (Or.inr (by simp))]
      exact hf
    | killed _ _ hdead _ hlog =>
      refine ⟨f, ?_, fun hl => by rw [hdead] at hl; cases hl⟩
      rw [hlog, hist_concat_other (Or.inr rfl), starts_concat_other (Or.inr (by simp))]
      exact hf
  · refine ⟨f, ?_, fun hl => by rw [hframe r hr] at hl ⊢; exact hfut hl⟩
    rcases hc.log_cases with hlog | ⟨o', a, hlog⟩
    · rw [hlog]; exact hf
    · have hne : ¬ (r₀ = r ∧ o' = o) := fun h => hr h.1.symm
      rw [hlog, hist_concat_other (Or.inl hne), starts_concat_other (Or.inl hne)]
      exact hf

theorem seenAt_concat (π : Action → List Msg) (r r' : Role) (o : Option Signal) (a : Action)
    (log : List Entry) : seenAt π r (log ++ [⟨r', o, a⟩])
      = seenAt π r log ++ if r' = r then π a else [] := by
  rw [seenAt_append]
  simp [seenAt]

/-- Entries that carry no messages do not disturb the streams. -/
theorem Inv.flow_of_still (h : Inv σ) {o : Option Signal} {a : Action}
    (hw : ∀ fd, a.wroteOn fd = []) (hm : ∀ fd, a.matchedOn fd = [])
    (hlog : σ'.log = σ.log ++ [⟨r₀, o, a⟩]) (hinbox : σ'.inbox = σ.inbox) (e : End) :
    ∃ cur, wire (wroteAt (otherEnd e) σ'.log) = wire (matchedAt e σ'.log) ++ cur ++ σ'.inbox e ∧
      ((σ.proc e.1).alive = true →
        Held e.2 (σ.proc e.1).vars.buff cur ((σ.proc e.1).todoOf (readerOf e.1))) := by
  obtain ⟨cur, hcur, hheld⟩ := h.flow e
  refine ⟨cur, ?_, hheld⟩
  rw [hinbox, hlog, wroteAt, matchedAt, seenAt_concat, seenAt_concat, hw, hm, ite_self, ite_self,
    List.append_nil, List.append_nil]
  exact hcur

/-- Neither does the end of a party: what it held is no longer asked for. -/
theorem Inv.flow_of_dead (h : Inv σ) (hframe : ∀ r, r ≠ r₀ → σ'.proc r = σ.proc r)
    {o : Option Signal} {a : Action} (hw : ∀ fd, a.wroteOn fd = []) (hm : ∀ fd, a.matchedOn fd = [])
    (hdead : (σ'.proc r₀).alive = false) (hlog : σ'.log = σ.log ++ [⟨r₀, o, a⟩])
    (hinbox : σ'.inbox = σ.inbox) (e : End) :
    ∃ cur, wire (wroteAt (otherEnd e) σ'.log) = wire (matchedAt e σ'.log) ++ cur ++ σ'.inbox e ∧
      ((σ'.proc e.1).alive = true →
        Held e.2 (σ'.proc e.1).vars.buff cur ((σ'.proc e.1).todoOf (readerOf e.1))) := by
  obtain ⟨cur, hcur, hheld⟩ := h.flow_of_still hw hm hlog hinbox e
  refine ⟨cur, hcur, fun hlive => ?_⟩
  by_cases hr : e.1 = r₀
  · rw [hr, hdead] at hlive; cases hlive
  · rw [hframe _ hr] at hlive ⊢; exact hheld hlive

/-- The bytes of every connection stay accounted for. -/
theorem Inv.flow_step (h : Inv σ) (hc : Change σ σ' r₀ c)
    (hframe : ∀ r, r ≠ r₀ → σ'.proc r = σ.proc r) :
    ∀ e : End, ∃ cur, wire (wroteAt (otherEnd e) σ'.log)
        = wire (matchedAt e σ'.log) ++ cur ++ σ'.inbox e ∧
      ((σ'.proc e.1).alive = true →
        Held e.2 (σ'.proc e.1).vars.buff cur ((σ'.proc e.1).todoOf (readerOf e.1))) := by
  intro e
  obtain ⟨cur, hcur, hheld⟩ := h.flow e
  cases hc with
  | quiet htodo hvars halive hinbox hlog =>
    refine ⟨cur, by rw [hinbox, hlog]; exact hcur, ?_⟩
    by_cases hr : e.1 = r₀
    · rw [hr] at hheld ⊢; rw [htodo, hvars, halive]; exact hheld
    · rw [hframe _ hr]; exact hheld
  | @moves k ok o s t t' v a hl htop hexec htodo hvars hl' hinbox hlog =>
    -- what the entry adds to the written and to the accepted messages
    have hseen : ∀ (π : Action → List Msg) (r : Role), seenAt π r σ'.log
        = seenAt π r σ.log ++ if r₀ = r then a.toList.flatMap π else [] := by
      intro π r
      cases a with
      | none => simp [hlog]
      | some a => rw [hlog]; simpa using seenAt_concat π r r₀ o a σ.log
    have hwrote : wire (wroteAt (otherEnd e) σ'.log) = wire (wroteAt (otherEnd e) σ.log) ++
        (if (otherEnd e).1 = r₀ then
          wire (a.toList.flatMap (Action.wroteOn (otherEnd e).2)) else []) := by
      rw [wroteAt, hseen, wire_append, wroteAt]
      by_cases hr : r₀ = (otherEnd e).1
      · rw [if_pos hr, if_pos hr.symm]
      · rw [if_neg hr, if_neg (Ne.symm hr), wire_nil]
    have hmatched : wire (matchedAt e σ'.log) = wire (matchedAt e σ.log) ++
        (if r₀ = e.1 then wire (a.toList.flatMap (Action.matchedOn e.2)) else []) := by
      rw [matchedAt, hseen, wire_append, matchedAt]
      split <;> rfl
    by_cases hr : e.1 = r₀
    · -- the party at this end moves: its reading thread, or one that leaves the buffer alone
      subst hr
      have hshape := htop ▸ h.shaped e.1 hl o
      obtain ⟨cur', hheld', hbytes⟩ : ∃ cur',
          Held e.2 v.buff cur' ((σ'.proc e.1).todoOf (readerOf e.1)) ∧
          wire (a.toList.flatMap (Action.matchedOn e.2)) ++ cur' ++
            (σ.inbox e).drop (a.elim 0 (Action.takenOn e.2)) = cur ++ σ.inbox e := by
        by_cases ho : o = readerOf e.1
        · rw [htodo, ← ho, Function.update_self]
          have hbefore := hheld hl
          rw [← ho, htop] at hbefore
          exact exec_held hshape.cons.2.1 hshape.source_tail hexec hbefore
        · have hreads : s.reads = false := by
            cases hs : s.reads with
            | false => rfl
            | true => exact absurd (hshape.cons.2.2.1 hs) ho
          obtain ⟨hbuff, hm, htk⟩ := exec_not_reads hreads hexec
          refine ⟨cur, ?_, by simp [hm, htk]⟩
          rw [htodo, Function.update_of_ne (Ne.symm ho), hbuff]
          exact hheld hl
      refine ⟨cur', ?_, fun _ => hvars ▸ hheld'⟩
      rw [hwrote, hcur, hmatched, if_pos rfl, hinbox, transmit, if_pos rfl,
        List.append_assoc _ cur, ← hbytes]
      simp only [List.append_assoc]
    · refine ⟨cur, ?_, by rw [hframe _ hr]; exact hheld⟩
      rw [hwrote, hcur, hmatched, if_neg (Ne.symm hr), List.append_nil, hinbox, transmit,
        if_neg hr, List.append_assoc]
  | @delivers s hl _ hidle htodo hvars hl' hinbox hlog =>
    obtain ⟨cur, hcur, hheld⟩ := h.flow_of_still (fun _ => rfl) (fun _ => rfl) hlog hinbox e
    refine ⟨cur, hcur, fun hlive => ?_⟩
    by_cases hr : e.1 = r₀
    · subst hr
      rw [htodo, hvars]
      by_cases ho : readerOf e.1 = some s
      · -- the reading thread starts: nothing was held, nothing is
        have hbefore := hheld hl
        rw [ho, hidle] at hbefore
        obtain rfl : cur = [] := hbefore
        rw [ho, Function.update_self]
        exact held_of_source fun x hx => (shm_code e.1 (some s) x hx).2.1
      · rw [Function.update_of_ne ho]; exact hheld hl
    · rw [hframe _ hr] at hlive ⊢; exact hheld hlive
  | fails _ _ _ hdead hinbox hlog =>
    exact h.flow_of_dead hframe (fun _ => rfl) (fun _ => rfl) hdead hlog hinbox e
  | killed _ _ hdead hinbox hlog =>
    exact h.flow_of_dead hframe (fun _ => rfl) (fun _ => rfl) hdead hlog hinbox e

theorem exec_count {env : Env} {v v' : Vars} {s : Stmt} {t t' : List Stmt} {a : Option Action}
    (h : exec env v t s = some (v', t', a)) :
    v'.count = true ↔ v.count = true ∨ a = some .countSet := by
  cases s <;> simp only [exec] at h <;> (try split at h) <;> cases h <;> simp

/-- The flag is set exactly if somebody has set it. -/
theorem Inv.counted_step (h : Inv σ) (hc : Change σ σ' r₀ c)
    (hframe : ∀ r, r ≠ r₀ → σ'.proc r = σ.proc r) :
    ∀ r, (σ'.proc r).alive = true →
      ((σ'.proc r).vars.count = true ↔ ∃ o, (⟨r, o, .countSet⟩ : Entry) ∈ σ'.log) := by
  intro r hlive
  by_cases hr : r = r₀
  · subst hr
    cases hc with
    | quiet _ hvars halive _ hlog => rw [hvars, hlog]; exact h.counted r (halive ▸ hlive)
    | @moves k ok o s t t' v a hl _ hexec _ hvars _ _ hlog =>
      rw [hvars, exec_count hexec, h.counted r hl, hlog]
      cases a with
      | none => simp
      | some a =>
        constructor
        · rintro (⟨o', ho'⟩ | ha)
          · exact ⟨o', List.mem_append_left _ ho'⟩
          · cases ha; exact ⟨o, by simp⟩
        · rintro ⟨o', ho'⟩
          rcases List.mem_append.mp ho' with ho' | ho'
          · exact Or.inl ⟨o', ho'⟩
          · simp only [Option.map_some, Option.toList_some, List.mem_singleton,
              Entry.mk.injEq] at ho'
            exact Or.inr (congrArg some ho'.2.2.symm)
    | delivers hl _ _ _ hvars _ _ hlog =>
      rw [hvars, hlog, h.counted r hl]
      simp
    | fails _ _ _ hdead _ _ => rw [hdead] at hlive; cases hlive
    | killed _ _ hdead _ _ => rw [hdead] at hlive; cases hlive
  · rw [hframe r hr] at hlive ⊢
    rw [h.counted r hlive]
    rcases hc.log_cases with hlog | ⟨o', a, hlog⟩
    · rw [hlog]
    · simp [hlog, hr]

end Step

/-- **Every reachable state satisfies the invariants.** -/
theorem Inv.of_reach {allowed : Net → Choice → Prop} {σ : Net}
    (h : Reach Net.step allowed Net.start σ) : Inv σ := by
  refine h.invariant Inv Inv.init fun σ c _ hinv _ => ?_
  obtain ⟨hwf, hc⟩ := Net.step_change hinv.wf c
  have hframe : ∀ r, r ≠ c.role → (σ.step c).proc r = σ.proc r := fun r hr =>
    σ.step_proc_of_ne c hr
  exact ⟨hwf, hinv.shaped_step hc hframe, hinv.traced_step hc hframe, hinv.flow_step hc hframe,
    hinv.counted_step hc hframe⟩

/-! ## Using the invariants -/

/-- A thread records its program, in order, again and again. -/
theorem Inv.hist_repeats {σ : Net} (h : Inv σ) (r : Role) (o : Option Signal) :
    hist r o σ.log <+: (List.replicate (starts r o σ.log) (future ((shm r).code o))).flatten := by
  obtain ⟨f, hf, -⟩ := h.traced r o
  exact ⟨f, hf⟩

/-- What is on record stands in the program of its thread. -/
theorem Inv.mem_code {σ : Net} (h : Inv σ) {x : Entry} (hx : x ∈ σ.log)
    (ht : Controller.traced x.action = true) :
    x.action ∈ future ((shm x.role).code x.origin) :=
  mem_of_prefix_repeat (mem_hist hx ht) (h.hist_repeats x.role x.origin)

/-- Nothing is accepted at an end that was not written at the other. -/
theorem Inv.matched_of_wrote {σ : Net} (h : Inv σ) (e : End) :
    wire (matchedAt e σ.log) <+: wire (wroteAt (otherEnd e) σ.log) := by
  obtain ⟨cur, hcur, -⟩ := h.flow e
  exact ⟨cur ++ σ.inbox e, by rw [hcur, List.append_assoc]⟩

theorem Net.records : Records Net.step Net.log := by
  intro σ c
  cases c with
  | run r k ok =>
    cases hres : ((σ.proc r).run (σ.env r k ok)).2 with
    | none => exact Or.inl (by simp [Net.step, Net.after, hres])
    | some e => exact Or.inr ⟨⟨r, e.origin, e.action⟩, by simp [Net.step, Net.after, hres]⟩
  | signal r s =>
    cases hres : ((σ.proc r).deliver (shm r) s).2 with
    | none => exact Or.inl (by simp [Net.step, Net.after, hres])
    | some e => exact Or.inr ⟨⟨r, e.origin, e.action⟩, by simp [Net.step, Net.after, hres]⟩

/-- The invariants hold of every initial part of a history. -/
theorem inv_at {allowed : Net → Choice → Prop} {σ : Net}
    (h : Reach Net.step allowed Net.start σ) {l₁ l₂ : List Entry} {x : Entry}
    (hlog : σ.log = l₁ ++ x :: l₂) :
    ∃ σ₁ σ₂, Inv σ₁ ∧ Inv σ₂ ∧ σ₁.log = l₁ ∧ σ₂.log = l₁ ++ [x] := by
  obtain ⟨σ₁, c, hr, hc, h1, h2⟩ := h.at_event Net.records rfl hlog
  exact ⟨σ₁, σ₁.step c, Inv.of_reach hr, Inv.of_reach (Reach.next hr hc), h1, h2⟩

/-- **The moment of an action**: the state before it, in which its thread stands at the statement
    that records it. -/
theorem at_action {allowed : Net → Choice → Prop} {σ : Net}
    (h : Reach Net.step allowed Net.start σ) {l₁ l₂ : List Entry} {r : Role} {o : Option Signal}
    {a : Action} (hlog : σ.log = l₁ ++ ⟨r, o, a⟩ :: l₂) (hd : a ≠ .delivered) (hk : a ≠ .killed)
    (hf : ∀ s, a ≠ .failed s) :
    ∃ σ₁ env s t v t', Inv σ₁ ∧ σ₁.log = l₁ ∧ (σ₁.proc r).alive = true ∧
      (σ₁.proc r).todoOf o = s :: t ∧ exec env (σ₁.proc r).vars t s = some (v, t', some a) := by
  obtain ⟨σ₁, c, hr, hc, h1, h2⟩ := h.at_event Net.records rfl hlog
  have hinv := Inv.of_reach hr
  obtain ⟨-, hchange⟩ := Net.step_change hinv.wf c
  rw [← h1] at h2
  generalize c.role = r₀ at hchange
  cases hchange with
  | quiet _ _ _ _ hsame => rw [hsame] at h2; simp at h2
  | @moves k ok o' s t t' v a' hl htop hexec _ _ _ _ hsame =>
    rw [hsame] at h2
    cases a' with
    | none => simp at h2
    | some a' =>
      have heq := List.append_cancel_left h2
      simp only [Option.map_some, Option.toList_some, List.cons.injEq, Entry.mk.injEq,
        and_true] at heq
      obtain ⟨hrole, rfl, rfl⟩ := heq
      rw [hrole] at hl htop hexec
      exact ⟨σ₁, _, s, t, v, t', hinv, h1, hl, htop, hexec⟩
  | delivers _ _ _ _ _ _ _ hsame =>
    rw [hsame] at h2
    have heq := List.append_cancel_left h2
    simp only [List.cons.injEq, Entry.mk.injEq, and_true] at heq
    exact absurd heq.2.2.symm hd
  | fails _ _ _ _ _ hsame =>
    rw [hsame] at h2
    have heq := List.append_cancel_left h2
    simp only [List.cons.injEq, Entry.mk.injEq, and_true] at heq
    exact absurd heq.2.2.symm (hf _)
  | killed _ _ _ _ hsame =>
    rw [hsame] at h2
    have heq := List.append_cancel_left h2
    simp only [List.cons.injEq, Entry.mk.injEq, and_true] at heq
    exact absurd heq.2.2.symm hk

end QemuStudy.Controller
