/-
  HOW FAR A MACHINE OF INTERRUPTED THREADS HAS TO GO (`Lib.Threads`).

  * `Proc.size` counts what is left on a stack: the instructions of every frame, and one return
    each.  An instruction that is done and a handler that returns make it smaller; a process that
    runs does one of these, does not move at all, or stops (`runProc_moves`).

  * `Proc.next_cases`: a process whose main thread never ends either returns from a handler or has
    an instruction to execute.

  * `Reach.once`: a thread that is started at most once has done an initial part of its code, and
    the rest is what it has to do.  So if it stands at an instruction that occurs once, its record
    is known (`Reach.didOf_at`).

  Together with an invariant that no instruction fails this is what a proof of completion needs: as
  long as somebody can move, the total size shrinks.
-/
import QemuStudy.Lib.Threads

namespace QemuStudy.Threads

open QemuStudy.Runs

variable {R S I V L W C D : Type*}

/-! ## Size -/

/-- The instructions left in every frame, and a return for each. -/
def sizeIn : List (Frame S I L) → Nat
  | [] => 0
  | f :: fs => f.todo.length + 1 + sizeIn fs

def Proc.size (p : Proc S I V L) : Nat := sizeIn p.stack

section Size

variable {M : Machine R S I V L W C D} {r : R} {c : C} {w : W} {p : Proc S I V L}

theorem runProc_return {o : Option S} {l : L} {f : Frame S I L} {fs : List (Frame S I L)}
    (hlive : p.alive = true) (hstack : p.stack = ⟨o, [], l⟩ :: f :: fs) :
    (M.runProc r c w p).1.size < p.size := by
  have hres : M.runProc r c w p = (⟨f :: fs, p.vars, p.alive⟩, w, none) := by
    rw [Machine.runProc, if_pos hlive, hstack]
  rw [hres, Proc.size, Proc.size, hstack]
  show sizeIn (f :: fs) < 0 + 1 + sizeIn (f :: fs)
  omega

variable [DecidableEq S]

theorem runProc_done {o : Option S} {i : I} {v : V} {l : L} {w' : W} {d : D}
    (hlive : p.alive = true) (hnext : p.top = some (o, i))
    (hexec : M.exec r c i p.vars (M.locOf p o) w = .done v l w' d) :
    (M.runProc r c w p).1.size < p.size := by
  rw [Proc.top] at hnext
  split at hnext
  · rename_i o' i' t l' fs hstack
    cases hnext
    have hloc : M.locOf p o = l' := by rw [Machine.locOf, hstack, locIn, if_pos rfl]
    rw [hloc] at hexec
    have hres : M.runProc r c w p = (⟨⟨o, t, l⟩ :: fs, v, true⟩, w', some ⟨r, o, .did i d⟩) := by
      rw [Machine.runProc, if_pos hlive, hstack]
      simp only [hexec]
    rw [hres, Proc.size, Proc.size, hstack]
    show t.length + 1 + sizeIn fs < (i :: t).length + 1 + sizeIn fs
    rw [List.length_cons]
    omega
  · cases hnext

theorem runProc_again {o : Option S} {i : I} (hnext : p.top = some (o, i))
    (hexec : M.exec r c i p.vars (M.locOf p o) w = .again) : M.runProc r c w p = (p, w, none) := by
  rw [Proc.top] at hnext
  split at hnext
  · rename_i o' i' t l fs hstack
    cases hnext
    have hloc : M.locOf p o = l := by rw [Machine.locOf, hstack, locIn, if_pos rfl]
    rw [hloc] at hexec
    rw [Machine.runProc, hstack]
    simp only [hexec, ite_self]
  · cases hnext

/-- A process that runs gets on, does not move, or stops at an instruction. -/
theorem runProc_moves :
    (M.runProc r c w p).1.size < p.size ∨ M.runProc r c w p = (p, w, none) ∨
      ∃ o i t, p.top = some (o, i) ∧ p.todoOf o = i :: t ∧
        M.exec r c i p.vars (M.locOf p o) w = .stop := by
  cases hlive : p.alive with
  | false =>
    rw [Machine.runProc, if_neg (by rw [hlive]; exact Bool.false_ne_true)]
    exact Or.inr (Or.inl rfl)
  | true =>
    rcases hstack : p.stack with _ | ⟨⟨o, _ | ⟨i, t⟩, l⟩, _ | ⟨f, fs⟩⟩
    · rw [Machine.runProc, if_pos hlive, hstack]
      exact Or.inr (Or.inl rfl)
    · rw [Machine.runProc, if_pos hlive, hstack]
      exact Or.inr (Or.inl rfl)
    · exact Or.inl (runProc_return hlive hstack)
    all_goals
      have hnext : p.top = some (o, i) := by rw [Proc.top, hstack]
      cases hexec : M.exec r c i p.vars (M.locOf p o) w with
      | done v l' w' d => exact Or.inl (runProc_done hlive hnext hexec)
      | again => exact Or.inr (Or.inl (runProc_again hnext hexec))
      | stop =>
        refine Or.inr (Or.inr ⟨o, i, t, hnext, ?_, hexec⟩)
        rw [Proc.todoOf, hstack, todoIn, if_pos rfl]

/-! ## What comes next -/

/-- Main is at the bottom of the stack. -/
def Proc.Based (p : Proc S I V L) : Prop := ∃ fs f, p.stack = fs ++ [f] ∧ f.origin = none

/-- A process whose main thread has something to do returns from a handler or executes an
    instruction. -/
theorem Proc.next_cases (hb : p.Based) (hmain : p.todoOf none ≠ []) :
    (∃ o l f fs, p.stack = ⟨o, [], l⟩ :: f :: fs) ∨
      ∃ o i t, p.top = some (o, i) ∧ p.todoOf o = i :: t := by
  obtain ⟨fs, f, hstack, hf⟩ := hb
  rcases hs : p.stack with _ | ⟨⟨o, _ | ⟨i, t⟩, l⟩, gs⟩
  · rw [hs] at hstack
    simp at hstack
  · cases gs with
    | cons g gs => exact Or.inl ⟨o, l, g, gs, rfl⟩
    | nil =>
      rw [hs] at hstack
      have hone : fs = [] ∧ f = ⟨o, [], l⟩ := by
        cases fs with
        | nil => exact ⟨rfl, (List.cons.inj hstack).1.symm⟩
        | cons a as =>
          have := (List.cons.inj hstack).2
          simp at this
      rw [hone.2] at hf
      refine absurd ?_ hmain
      rw [Proc.todoOf, hs, todoIn, if_pos hf]
  · refine Or.inr ⟨o, i, t, ?_, ?_⟩
    · rw [Proc.top, hs]
    · rw [Proc.todoOf, hs, todoIn, if_pos rfl]

/-- When main runs, no handler is active. -/
theorem Proc.main_alone (hb : p.Based) (hwf : p.WF) {i : I} (hnext : p.top = some (none, i))
    (s : S) : p.todoOf (some s) = [] := by
  obtain ⟨fs, f, hstack, hf⟩ := hb
  rw [Proc.top] at hnext
  split at hnext
  · rename_i o i' t l gs hs
    cases hnext
    rw [Proc.WF, hstack] at hwf
    have hfs : fs = [] := by
      cases fs with
      | nil => rfl
      | cons a as =>
        have ha : a = ⟨none, i :: t, l⟩ := by
          rw [hstack] at hs
          exact (List.cons.inj hs).1
        simp [ha, hf] at hwf
    rw [Proc.todoOf, hstack, hfs, List.nil_append, todoIn, if_neg (by rw [hf]; simp)]
    rfl
  · cases hnext

end Size

theorem runProc_based {M : Machine R S I V L W C D} {r : R} {c : C} {w : W} {p : Proc S I V L}
    (hb : p.Based) : (M.runProc r c w p).1.Based := by
  cases hlive : p.alive with
  | false =>
    rw [Machine.runProc, if_neg (by rw [hlive]; exact Bool.false_ne_true)]
    exact hb
  | true =>
    obtain ⟨fs, f, hstack, hf⟩ := hb
    rcases hs : p.stack with _ | ⟨⟨o, _ | ⟨i, t⟩, l⟩, gs⟩
    · rw [hs] at hstack
      simp at hstack
    · cases gs with
      | nil =>
        rw [Machine.runProc, if_pos hlive, hs]
        exact ⟨fs, f, hstack, hf⟩
      | cons g gs =>
        rw [Machine.runProc, if_pos hlive, hs]
        rw [hs] at hstack
        cases fs with
        | nil =>
          have := (List.cons.inj hstack).2
          simp at this
        | cons a as => exact ⟨as, f, (List.cons.inj hstack).2, hf⟩
    · rw [Machine.runProc, if_pos hlive, hs]
      dsimp only
      split
      · rw [hs] at hstack
        cases fs with
        | nil =>
          obtain ⟨hhead, htail⟩ := List.cons.inj hstack
          refine ⟨[], _, by rw [htail]; rfl, ?_⟩
          rw [← hhead] at hf
          exact hf
        | cons a as => exact ⟨_ :: as, f, by rw [(List.cons.inj hstack).2]; rfl, hf⟩
      · exact ⟨fs, f, hstack, hf⟩
      · exact ⟨fs, f, hstack, hf⟩

/-- Running a party adds no frame. -/
theorem runProc_origins {M : Machine R S I V L W C D} (r : R) (c : C) (w : W) (p : Proc S I V L) :
    (M.runProc r c w p).1.stack.map Frame.origin ⊆ p.stack.map Frame.origin := by
  rw [Machine.runProc]
  split
  · split
    · exact List.Subset.refl _
    · rename_i o i t l fs hstack
      rw [hstack]
      split
      · exact List.Subset.refl _
      · rw [hstack]
        exact List.Subset.refl _
      · rw [Proc.halt, hstack]
        exact List.Subset.refl _
    · exact List.Subset.refl _
    · rename_i hstack
      rw [hstack]
      exact List.subset_cons_self _ _
  · exact List.Subset.refl _

section System

variable [DecidableEq R] [DecidableEq S] {M : Machine R S I V L W C D}
  {allowed : State R S I V L W D → Choice R S C → Prop} {w₀ : W} {σ : State R S I V L W D}

theorem Reach.based (h : Reach M.step allowed (M.start w₀) σ) : ∀ r, (σ.proc r).Based := by
  refine Reach.invariant (fun σ => ∀ r, (σ.proc r).Based) (fun r => ⟨[], _, rfl, rfl⟩)
    (fun σ x _ ih _ r => ?_) h
  have hupdate : ∀ {r' : R} {p : Proc S I V L}, p.Based →
      (Function.update σ.proc r' p r).Based := by
    intro r' p hp
    by_cases hr : r = r'
    · subst hr
      rw [Function.update_self]
      exact hp
    · rw [Function.update_of_ne hr]
      exact ih r
  cases x with
  | drift c => exact ih r
  | run r' c => exact hupdate (runProc_based (ih r'))
  | signal r' s =>
    refine hupdate ?_
    rw [Machine.deliver]
    split
    · exact ih r'
    · split
      · obtain ⟨fs, f, hstack, hf⟩ := ih r'
        exact ⟨_ :: fs, f, by rw [hstack]; rfl, hf⟩
      · obtain ⟨fs, f, hstack, hf⟩ := ih r'
        exact ⟨fs, f, hstack, hf⟩

/-- A party that does not move leaves everything as it is. -/
theorem step_run_idle {r : R} {c : C}
    (hres : M.runProc r c σ.world (σ.proc r) = (σ.proc r, σ.world, none)) :
    M.step σ (.run r c) = σ := by
  simp only [Machine.step, hres, Function.update_eq_self, Option.toList_none, List.append_nil]

/-! ## Starts -/

/-- Running a party starts no handler. -/
theorem starts_run (r r' : R) (o : Option S) (c : C) :
    starts r' o (M.step σ (.run r c)).log = starts r' o σ.log := by
  have hentry : ∀ p : Proc S I V L, ∀ e ∈ (M.runProc r c σ.world p).2.2,
      e.event.isStart = false := by
    intro p e he
    rw [Machine.runProc] at he
    split at he
    · split at he
      · cases he
      · split at he
        · cases he
          rfl
        · cases he
        · cases he
          rfl
      · cases he
      · cases he
    · cases he
  rw [show (M.step σ (.run r c)).log
    = σ.log ++ (M.runProc r c σ.world (σ.proc r)).2.2.toList from rfl]
  cases hres : (M.runProc r c σ.world (σ.proc r)).2.2 with
  | none => rw [Option.toList_none, List.append_nil]
  | some e => exact starts_append_of_not_start (hentry _ e hres) σ.log

theorem starts_le_append (r : R) (o : Option S) (l l' : List (Entry R S I D)) :
    starts r o l ≤ starts r o (l ++ l') := by
  cases o with
  | none => exact le_rfl
  | some s =>
    rw [starts, starts, List.countP_append]
    exact Nat.le_add_right _ _

/-- Every frame of a handler was started. -/
theorem Reach.starts_pos (h : Reach M.step allowed (M.start w₀) σ) :
    ∀ r s, some s ∈ (σ.proc r).stack.map Frame.origin → 0 < starts r (some s) σ.log := by
  refine Reach.invariant (fun σ => ∀ r s, some s ∈ (σ.proc r).stack.map Frame.origin →
    0 < starts r (some s) σ.log) (fun r s hs => ?_) (fun σ x _ ih _ r s hs => ?_) h
  · simp [Machine.start, Machine.startProc] at hs
  · cases x with
    | drift c => exact ih r s hs
    | run r' c =>
      rw [starts_run]
      refine ih r s ?_
      rw [show (M.step σ (.run r' c)).proc
        = Function.update σ.proc r' (M.runProc r' c σ.world (σ.proc r')).1 from rfl] at hs
      by_cases hr : r = r'
      · subst hr
        rw [Function.update_self] at hs
        exact runProc_origins r c σ.world (σ.proc r) hs
      · rw [Function.update_of_ne hr] at hs
        exact hs
    | signal r' s' =>
      rw [show (M.step σ (.signal r' s')).proc
        = Function.update σ.proc r' (M.deliver r' s' (σ.proc r')).1 from rfl] at hs
      rw [show (M.step σ (.signal r' s')).log
        = σ.log ++ (M.deliver r' s' (σ.proc r')).2.toList from rfl]
      by_cases hnew : r = r' ∧ s = s' ∧
          (M.deliver r' s' (σ.proc r')).2 = some ⟨r', some s', .started⟩
      · obtain ⟨rfl, rfl, hstarted⟩ := hnew
        rw [hstarted, Option.toList_some, starts_append_start, if_pos ⟨rfl, rfl⟩]
        omega
      · refine lt_of_lt_of_le (ih r s ?_) (starts_le_append _ _ _ _)
        by_cases hr : r = r'
        · subst hr
          rw [Function.update_self] at hs
          rw [Machine.deliver] at hs hnew
          split at hs
          · exact hs
          · rename_i hfree
            split at hs
            · rename_i hhandles
              rw [if_neg hfree, if_pos hhandles] at hnew
              rcases List.mem_cons.mp hs with heq | hs
              · exact absurd ⟨rfl, Option.some.inj heq, rfl⟩ hnew
              · exact hs
            · exact hs
        · rw [Function.update_of_ne hr] at hs
          exact hs

/-- A handler that is at work was started. -/
theorem Reach.starts_of_top (h : Reach M.step allowed (M.start w₀) σ) {r : R} {s : S} {i : I}
    (hnext : (σ.proc r).top = some (some s, i)) : starts r (some s) σ.log ≠ 0 := by
  refine (Reach.starts_pos h r s ?_).ne'
  rw [Proc.top] at hnext
  split at hnext
  · rename_i hstack
    cases hnext
    rw [hstack]
    exact List.mem_cons_self
  · cases hnext

/-! ## Threads that run once -/

/-- **A thread that is started at most once.** -/
theorem Reach.once (h : Reach M.step allowed (M.start w₀) σ) {r : R} {o : Option S}
    (hlive : (σ.proc r).alive = true) (hle : starts r o σ.log ≤ 1) :
    (starts r o σ.log = 0 ∧ didOf r o σ.log = [] ∧ (σ.proc r).todoOf o = []) ∨
      (starts r o σ.log = 1 ∧ didOf r o σ.log ++ (σ.proc r).todoOf o = M.code r o) := by
  obtain ⟨rest, hrest, htodo⟩ := Reach.inOrder h r o
  rw [htodo hlive] at hrest
  rcases Nat.le_one_iff_eq_zero_or_eq_one.mp hle with h0 | h1
  · rw [h0, List.replicate_zero, List.flatten_nil, List.append_eq_nil_iff] at hrest
    exact Or.inl ⟨h0, hrest⟩
  · rw [h1, List.replicate_one, List.flatten_singleton] at hrest
    exact Or.inr ⟨h1, hrest⟩

/-- At an instruction that occurs once in its code, a thread has done what stands before it. -/
theorem Reach.didOf_at [DecidableEq I] (h : Reach M.step allowed (M.start w₀) σ) {r : R}
    {o : Option S} {i : I} {t : List I} (hlive : (σ.proc r).alive = true)
    (hle : starts r o σ.log ≤ 1) (htop : (σ.proc r).todoOf o = i :: t)
    (hcount : (M.code r o).count i ≤ 1) : didOf r o σ.log = (M.code r o).takeWhile (· ≠ i) := by
  rcases Reach.once h hlive hle with ⟨-, -, hnil⟩ | ⟨-, hcode⟩
  · rw [hnil] at htop
    cases htop
  · rw [htop] at hcode
    have hi : i ∉ didOf r o σ.log := by
      intro hmem
      have := List.count_pos_iff.mpr hmem
      rw [← hcode, List.count_append, List.count_cons_self] at hcount
      omega
    rw [← hcode, takeWhile_ne_split hi]

end System

end QemuStudy.Threads
