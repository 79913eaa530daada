/-
  RUNS OF A STEPPED SYSTEM, and what a recorded history says about its past.

  A system is a state type `σ`, a type `ι` of choices (which party moves, what the environment
  does) and a function `step : σ → ι → σ`; `allowed` says which choices the environment may make in
  a state.  `Reach` is the set of states some run ends in.

  Four ways to use it:

  1. `Reach.invariant` — what holds at the start and survives every allowed step holds everywhere;
  2. `Reach.simulates` — if another system can follow every step, it can follow every run;
  3. `Reach.at_event`  — if the state carries a HISTORY that grows by at most one event per step
                         (`Records`), then for every event in the history there is the reachable
                         state it was recorded in, with exactly the history before it.  So an
                         invariant of reachable states is automatically a statement about every
                         prefix of a history, and "e happened only after d" is proved by looking at
                         the one state in which `e` happens;
  4. `FairRun.reaches`  — an infinite run in which nobody who can act is passed over for ever gets
                         somewhere, if a measure never grows and in every state somebody is ready
                         who makes it smaller and stays ready until it gets smaller.

  The last section is about histories that repeat one word (a handler that runs again and again).
-/
import Mathlib.Data.List.Basic

namespace QemuStudy.Runs

variable {σ ι ε : Type*}

/-! ## Reachable states -/

/-- The states that runs from `s₀` with allowed choices end in. -/
inductive Reach (step : σ → ι → σ) (allowed : σ → ι → Prop) (s₀ : σ) : σ → Prop
  | start : Reach step allowed s₀ s₀
  | next {s : σ} {i : ι} : Reach step allowed s₀ s → allowed s i →
      Reach step allowed s₀ (step s i)

variable {step : σ → ι → σ} {allowed : σ → ι → Prop} {s₀ : σ}

theorem Reach.invariant (Inv : σ → Prop) (h0 : Inv s₀)
    (hstep : ∀ s i, Reach step allowed s₀ s → Inv s → allowed s i → Inv (step s i)) {s : σ}
    (h : Reach step allowed s₀ s) : Inv s := by
  induction h with
  | start => exact h0
  | next hr hi ih => exact hstep _ _ hr ih hi

/-- The choices `is` are allowed one after the other. -/
def Playable (step : σ → ι → σ) (allowed : σ → ι → Prop) : σ → List ι → Prop
  | _, [] => True
  | s, i :: is => allowed s i ∧ Playable step allowed (step s i) is

instance Playable.decidable [∀ s i, Decidable (allowed s i)] :
    ∀ s is, Decidable (Playable step allowed s is)
  | _, [] => isTrue trivial
  | s, i :: is =>
    have := Playable.decidable (step s i) is
    inferInstanceAs (Decidable (allowed s i ∧ Playable step allowed (step s i) is))

/-- A concrete run. -/
theorem Reach.play {s : σ} (h : Reach step allowed s₀ s) {is : List ι}
    (his : Playable step allowed s is) : Reach step allowed s₀ (is.foldl step s) := by
  induction is generalizing s with
  | nil => exact h
  | cons i is ih => exact ih (Reach.next h his.1) his.2

theorem Reach.trans {s s' : σ} (h : Reach step allowed s₀ s) (h' : Reach step allowed s s') :
    Reach step allowed s₀ s' := by
  induction h' with
  | start => exact h
  | next _ hi ih => exact .next ih hi

/-- **Forward simulation.**  If every step of one system can be followed by some steps of another,
    from related states to related states, then every reachable state has a reachable
    counterpart. -/
theorem Reach.simulates {τ κ : Type*} {step' : τ → κ → τ} {allowed' : τ → κ → Prop} {t₀ : τ}
    (Rel : σ → τ → Prop) (h0 : Rel s₀ t₀)
    (hstep : ∀ s i t, Reach step allowed s₀ s → allowed s i → Rel s t →
      ∃ t', Reach step' allowed' t t' ∧ Rel (step s i) t') {s : σ}
    (h : Reach step allowed s₀ s) : ∃ t, Reach step' allowed' t₀ t ∧ Rel s t := by
  induction h with
  | start => exact ⟨t₀, .start, h0⟩
  | next hr hi ih =>
    obtain ⟨t, ht, hrel⟩ := ih
    obtain ⟨t', ht', hrel'⟩ := hstep _ _ t hr hi hrel
    exact ⟨t', ht.trans ht', hrel'⟩

/-! ## Histories -/

/-- A history that grows by at most one event per step. -/
def Records (step : σ → ι → σ) (log : σ → List ε) : Prop :=
  ∀ s i, log (step s i) = log s ∨ ∃ e, log (step s i) = log s ++ [e]

/-- **The moment of an event.**  Every event of a history was recorded by a step from a reachable
    state whose history is what stands before the event. -/
theorem Reach.at_event {log : σ → List ε} (hrec : Records step log) (h0 : log s₀ = []) {s : σ}
    (h : Reach step allowed s₀ s) : ∀ {l₁ l₂ : List ε} {e : ε}, log s = l₁ ++ e :: l₂ →
    ∃ s₁ i, Reach step allowed s₀ s₁ ∧ allowed s₁ i ∧ log s₁ = l₁ ∧
      log (step s₁ i) = l₁ ++ [e] := by
  induction h with
  | start => intro l₁ l₂ e he; rw [h0] at he; simp at he
  | @next s i hr hi ih =>
    intro l₁ l₂ e he
    rcases hrec s i with hsame | ⟨e', hmore⟩
    · exact ih (hsame ▸ he)
    · rcases List.eq_nil_or_concat l₂ with rfl | ⟨l₂', e'', rfl⟩
      · -- the event is the one this step records
        rw [hmore] at he
        obtain ⟨hl, he'⟩ := List.append_inj' he rfl
        refine ⟨s, i, hr, hi, hl, ?_⟩
        rw [hmore, hl, he']
      · rw [hmore, List.concat_eq_append, ← List.cons_append, ← List.append_assoc] at he
        obtain ⟨hl, -⟩ := List.append_inj' he rfl
        exact ih hl

/-! ## Fair runs -/

/-- The states of the run that makes the choices `ρ`. -/
def stateAt (step : σ → ι → σ) (s₀ : σ) (ρ : Nat → ι) : Nat → σ
  | 0 => s₀
  | n + 1 => step (stateAt step s₀ ρ n) (ρ n)

/-- An infinite run.  `of a i` says that the choice `i` is a turn of `a`; an `a` that could have a
    turn from some moment on gets one. -/
structure FairRun {α : Type*} (step : σ → ι → σ) (allowed : σ → ι → Prop) (of : α → ι → Prop)
    (s₀ : σ) where
  choice : Nat → ι
  lawful : ∀ n, allowed (stateAt step s₀ choice n) (choice n)
  fair : ∀ a n, (∀ m, n ≤ m → ∃ i, of a i ∧ allowed (stateAt step s₀ choice m) i) →
    ∃ m, n ≤ m ∧ of a (choice m)

section Fair

variable {α : Type*} {of : α → ι → Prop}

/-- The state after `n` choices. -/
def FairRun.state (ρ : FairRun step allowed of s₀) (n : Nat) : σ := stateAt step s₀ ρ.choice n

theorem FairRun.reach (ρ : FairRun step allowed of s₀) (n : Nat) :
    Reach step allowed s₀ (ρ.state n) := by
  induction n with
  | zero => exact .start
  | succ n ih => exact .next ih (ρ.lawful n)

/-- **Fair runs get there.** -/
theorem FairRun.reaches (ρ : FairRun step allowed of s₀) (μ : σ → Nat) (ready : σ → α → Prop)
    (Goal : σ → Prop)
    (hmono : ∀ s i, Reach step allowed s₀ s → allowed s i → μ (step s i) ≤ μ s)
    (hready : ∀ s, Reach step allowed s₀ s → Goal s ∨ ∃ a, ready s a)
    (hcan : ∀ s a, Reach step allowed s₀ s → ready s a → ∃ i, of a i ∧ allowed s i)
    (hhelps : ∀ s a i, Reach step allowed s₀ s → ready s a → of a i → allowed s i →
      μ (step s i) < μ s)
    (hstays : ∀ s a i, Reach step allowed s₀ s → ready s a → allowed s i →
      μ (step s i) < μ s ∨ ready (step s i) a) (n : Nat) : ∃ m, n ≤ m ∧ Goal (ρ.state m) := by
  -- the measure shrinks after every moment at which somebody is ready
  have hshrinks : ∀ n a, ready (ρ.state n) a → ∃ m, n ≤ m ∧ μ (ρ.state m) < μ (ρ.state n) := by
    intro n a ha
    by_contra hcon
    push Not at hcon
    have hkeeps : ∀ k, ready (ρ.state (n + k)) a ∧ μ (ρ.state (n + k)) = μ (ρ.state n) := by
      intro k
      induction k with
      | zero => exact ⟨ha, rfl⟩
      | succ k ih =>
        have hle : μ (ρ.state (n + (k + 1))) ≤ μ (ρ.state (n + k)) :=
          hmono _ _ (ρ.reach (n + k)) (ρ.lawful (n + k))
        have hge := hcon (n + (k + 1)) (Nat.le_add_right _ _)
        refine ⟨(hstays _ a _ (ρ.reach (n + k)) ih.1 (ρ.lawful (n + k))).resolve_left ?_, by omega⟩
        intro hlt
        have hlt' : μ (ρ.state (n + (k + 1))) < μ (ρ.state (n + k)) := hlt
        omega
    obtain ⟨m, hm, hof⟩ := ρ.fair a n fun m hm => by
      obtain ⟨k, rfl⟩ := Nat.exists_eq_add_of_le hm
      exact hcan _ a (ρ.reach (n + k)) (hkeeps k).1
    obtain ⟨k, rfl⟩ := Nat.exists_eq_add_of_le hm
    have hlt : μ (ρ.state (n + k + 1)) < μ (ρ.state (n + k)) :=
      hhelps _ a _ (ρ.reach (n + k)) (hkeeps k).1 hof (ρ.lawful (n + k))
    have hge := hcon (n + k + 1) (by omega)
    have heq := (hkeeps k).2
    omega
  induction hμ : μ (ρ.state n) using Nat.strongRecOn generalizing n with
  | _ k ih =>
    rcases hready _ (ρ.reach n) with hgoal | ⟨a, ha⟩
    · exact ⟨n, Nat.le_refl n, hgoal⟩
    · obtain ⟨m, hm, hlt⟩ := hshrinks n a ha
      obtain ⟨m', hm', hgoal⟩ := ih _ (hμ ▸ hlt) m rfl
      exact ⟨m', Nat.le_trans hm hm', hgoal⟩

/-- Nothing changes any more. -/
def FairRun.rest (tl : Nat → ι) (hlawful : ∀ n, allowed s₀ (tl n)) (hfix : ∀ n, step s₀ (tl n) = s₀)
    (hfair : ∀ a, (∃ i, of a i ∧ allowed s₀ i) → ∀ n, ∃ m, n ≤ m ∧ of a (tl m)) :
    FairRun step allowed of s₀ :=
  have hstate : ∀ n, stateAt step s₀ tl n = s₀ := fun n => by
    induction n with
    | zero => rfl
    | succ n ih => rw [stateAt, ih, hfix]
  { choice := tl
    lawful := fun n => by
      rw [hstate]
      exact hlawful n
    fair := fun a n hcan => hfair a (by rw [← hstate n]; exact hcan n (Nat.le_refl n)) n }

theorem stateAt_succ (ρ : Nat → ι) (n : Nat) :
    stateAt step s₀ ρ (n + 1) = stateAt step (step s₀ (ρ 0)) (fun k => ρ (k + 1)) n := by
  induction n with
  | zero => rfl
  | succ n ih => rw [stateAt, ih, stateAt]

/-- One choice, and then a fair run. -/
def FairRun.cons (i : ι) (hi : allowed s₀ i) (ρ : FairRun step allowed of (step s₀ i)) :
    FairRun step allowed of s₀ where
  choice
    | 0 => i
    | n + 1 => ρ.choice n
  lawful
    | 0 => hi
    | n + 1 => by
      rw [stateAt_succ]
      exact ρ.lawful n
  fair a n hcan := by
    obtain ⟨m, hm, hof⟩ := ρ.fair a n fun m hm => by
      have := hcan (m + 1) (by omega)
      rw [stateAt_succ] at this
      exact this
    exact ⟨m + 1, by omega, hof⟩

/-- Some choices, and then a fair run. -/
def FairRun.play : ∀ (is : List ι) (s₀ : σ), Playable step allowed s₀ is →
    FairRun step allowed of (is.foldl step s₀) → FairRun step allowed of s₀
  | [], _, _, ρ => ρ
  | i :: is, s₀, h, ρ => .cons i h.1 (FairRun.play is (step s₀ i) h.2 ρ)

end Fair

/-! ## Repeated words -/

/-- A history that repeats the word `u ++ x :: v` cannot reach an `x` without `u` before it. -/
theorem prefix_of_repeat {u v l : List ε} {x : ε} {n : Nat} (hx : x ∉ u)
    (h : l ++ [x] <+: (List.replicate n (u ++ x :: v)).flatten) : u <+: l := by
  have hul : u <+: l ++ [x] := by
    cases n with
    | zero => simp at h
    | succ n =>
      rw [List.replicate_succ, List.flatten_cons] at h
      have hu : u <+: u ++ x :: v ++ (List.replicate n (u ++ x :: v)).flatten := by
        rw [List.append_assoc]; exact List.prefix_append _ _
      rcases List.prefix_or_prefix_of_prefix hu h with hul | hlu
      · exact hul
      · exact absurd (hlu.subset (by simp)) hx
  rcases List.prefix_concat_iff.mp hul with heq | hpre
  · exact absurd (heq ▸ (by simp : x ∈ l ++ [x])) hx
  · exact hpre

/-- Without an `x` it has not got beyond `u`. -/
theorem prefix_of_repeat_of_not_mem {u v l : List ε} {x : ε} {n : Nat} (hx : x ∉ l)
    (h : l <+: (List.replicate n (u ++ x :: v)).flatten) : l <+: u := by
  cases n with
  | zero => simp at h; simp [h]
  | succ n =>
    rw [List.replicate_succ, List.flatten_cons] at h
    have hux : u ++ [x] <+: u ++ x :: v ++ (List.replicate n (u ++ x :: v)).flatten := by
      rw [List.append_assoc, List.cons_append]
      exact List.prefix_append_right_inj u |>.mpr (by simp)
    rcases List.prefix_or_prefix_of_prefix h hux with hlu | hul
    · rcases List.prefix_concat_iff.mp hlu with heq | hpre
      · exact absurd (heq ▸ (by simp : x ∈ u ++ [x])) hx
      · exact hpre
    · exact absurd (hul.subset (by simp)) hx

theorem mem_of_prefix_repeat {w l : List ε} {x : ε} {n : Nat} (hx : x ∈ l)
    (h : l <+: (List.replicate n w).flatten) : x ∈ w := by
  obtain ⟨w', hw', hxw⟩ := List.mem_flatten.mp (h.subset hx)
  rw [List.eq_of_mem_replicate hw'] at hxw
  exact hxw

end QemuStudy.Runs
