/-
  A little imperative C++: loops that can fault, a `std::list` with node identity, and the parts of
  `std::unordered_map` that `Finmap` does not spell out.

  Code that can abort, index out of range or spin is written in `Except ε`, state passed
  explicitly.  Three things recur in every such program and are settled here once:

  1. `forLoop f lo n`  — `for (i = lo; i < lo + n; ++i) s = f(i, s)`.  `forLoop_inv` is its rule:
     an invariant indexed by the loop variable, kept by a body that does not fault, holds at the
     end and the loop does not fault.  `forLoop_last` splits off the LAST iteration, so that facts
     about a run of `k + 1` iterations come from the run of `k`.  `forLoop_visits` is the converse
     of the rule: a loop that did not fault ran its body at every index.
  2. `whileLoop spin cond body fuel` — a `while` loop, structurally recursive on `fuel`.  Running
     out of fuel with the test still true is the fault `spin`, not a result, so
     `whileLoop_inv` (invariant + decreasing measure below the fuel) is a TOTAL correctness rule.
     `whileSteps` stops after a given number of passes, for statements about the states in between.
  3. `StdList` — a doubly linked list whose iterators are node addresses.  Addresses are never
     reused, so erasing through a dangling iterator is visible (`eraseAt` is `none`).
-/
import Mathlib.Data.Finmap
import Mathlib.Data.List.Nodup

namespace QemuStudy

/-! ## Loops -/

section Loops

variable {ε σ : Type}

@[simp] theorem ok_bind {α β : Type} (a : α) (f : α → Except ε β) :
    (Except.ok a >>= f) = f a := rfl

/-- What ends normally did so in both of its parts. -/
theorem ok_of_bind {α β : Type} {x : Except ε α} {f : α → Except ε β} {b : β}
    (h : (x >>= f) = .ok b) : ∃ a, x = .ok a ∧ f a = .ok b := by
  cases x with
  | error e => cases h
  | ok a => exact ⟨a, rfl, h⟩

/-- `for (i = lo; i < lo + n; ++i) s = f(i, s)`, stopping at the first fault. -/
def forLoop (f : Nat → σ → Except ε σ) : Nat → Nat → σ → Except ε σ
  | _, 0, s => .ok s
  | lo, n + 1, s => f lo s >>= forLoop f (lo + 1) n

/-- **The `for` rule.** -/
theorem forLoop_inv (f : Nat → σ → Except ε σ) (P : Nat → σ → Prop) :
    ∀ (n lo : Nat) (s : σ),
      (∀ i s, lo ≤ i → i < lo + n → P i s → ∃ s', f i s = .ok s' ∧ P (i + 1) s') → P lo s →
      ∃ s', forLoop f lo n s = .ok s' ∧ P (lo + n) s' := by
  intro n
  induction n with
  | zero => intro lo s _ h0; exact ⟨s, rfl, h0⟩
  | succ n ih =>
    intro lo s hstep h0
    obtain ⟨s₁, hf, h1⟩ := hstep lo s (Nat.le_refl _) (by omega) h0
    obtain ⟨s', hrun, hP⟩ := ih (lo + 1) s₁
      (fun i s hlo hhi hPi => hstep i s (by omega) (by omega) hPi) h1
    refine ⟨s', ?_, by rwa [show lo + (n + 1) = lo + 1 + n by omega]⟩
    rw [forLoop, hf]
    exact hrun

/-- A `for` loop in two parts. -/
theorem forLoop_add (f : Nat → σ → Except ε σ) (n : Nat) : ∀ (k lo : Nat) (s : σ),
    forLoop f lo (k + n) s = forLoop f lo k s >>= forLoop f (lo + k) n := by
  intro k
  induction k with
  | zero => intro lo s; rw [Nat.zero_add]; rfl
  | succ k ih =>
    intro lo s
    rw [show k + 1 + n = k + n + 1 by omega, show lo + (k + 1) = lo + 1 + k by omega]
    show (f lo s >>= forLoop f (lo + 1) (k + n)) = (f lo s >>= forLoop f (lo + 1) k) >>= _
    cases f lo s with
    | error e => rfl
    | ok s₁ => exact ih (lo + 1) s₁

/-- The last iteration of a `for` loop, run on the result of the others. -/
theorem forLoop_last (f : Nat → σ → Except ε σ) (n lo : Nat) (s : σ) :
    forLoop f lo (n + 1) s = forLoop f lo n s >>= f (lo + n) := by
  rw [forLoop_add]
  congr 1
  funext s'
  show (f (lo + n) s' >>= fun s'' => Except.ok s'') = f (lo + n) s'
  cases f (lo + n) s' <;> rfl

/-- A `for` loop that ends has run its body for every value of the loop variable. -/
theorem forLoop_visits {f : Nat → σ → Except ε σ} {P : σ → Prop}
    (hP : ∀ i s s', P s → f i s = .ok s' → P s') : ∀ (n lo : Nat) {s s' : σ},
    P s → forLoop f lo n s = .ok s' →
      ∀ i, lo ≤ i → i < lo + n → ∃ t t', P t ∧ f i t = .ok t' := by
  intro n
  induction n with
  | zero => intro lo s s' _ _ i h1 h2; omega
  | succ n ih =>
    intro lo s s' h0 hrun i h1 h2
    rw [forLoop] at hrun
    obtain ⟨s₁, hf, hrest⟩ := ok_of_bind hrun
    by_cases hi : i = lo
    · subst hi; exact ⟨s, s₁, h0, hf⟩
    · exact ih (lo + 1) (hP lo s s₁ h0 hf) hrest i (by omega) (by omega)

/-- `while (cond s) s = body(s)`; out of fuel with the test still true is the fault `spin`. -/
def whileLoop (spin : ε) (cond : σ → Bool) (body : σ → Except ε σ) : Nat → σ → Except ε σ
  | 0, s => if cond s then .error spin else .ok s
  | fuel + 1, s => if cond s then body s >>= whileLoop spin cond body fuel else .ok s

/-- **The `while` rule**, total: the invariant holds at the exit, the test is false there, and the
    loop neither faults nor runs out of fuel. -/
theorem whileLoop_inv (spin : ε) (cond : σ → Bool) (body : σ → Except ε σ) (P : σ → Prop)
    (μ : σ → Nat)
    (hstep : ∀ s, P s → cond s = true → ∃ s', body s = .ok s' ∧ P s' ∧ μ s' < μ s) :
    ∀ (fuel : Nat) (s : σ), P s → μ s ≤ fuel →
      ∃ s', whileLoop spin cond body fuel s = .ok s' ∧ P s' ∧ cond s' = false := by
  intro fuel
  induction fuel with
  | zero =>
    intro s hP hμ
    cases hc : cond s with
    | true =>
      obtain ⟨s', -, -, hlt⟩ := hstep s hP hc
      omega
    | false => exact ⟨s, by simp [whileLoop, hc], hP, hc⟩
  | succ fuel ih =>
    intro s hP hμ
    cases hc : cond s with
    | true =>
      obtain ⟨s₁, hb, hP₁, hlt⟩ := hstep s hP hc
      obtain ⟨s', hrun, hP', hc'⟩ := ih s₁ hP₁ (by omega)
      refine ⟨s', ?_, hP', hc'⟩
      rw [whileLoop, if_pos hc, hb]
      exact hrun
    | false => exact ⟨s, by simp [whileLoop, hc], hP, hc⟩

/-- At most `j` passes of the loop: the state after the `j`-th pass, or at the exit if that comes
    first. -/
def whileSteps (cond : σ → Bool) (body : σ → Except ε σ) : Nat → σ → Except ε σ
  | 0, s => .ok s
  | j + 1, s => if cond s then body s >>= whileSteps cond body j else .ok s

/-- An invariant of the passes holds after each of them. -/
theorem whileSteps_inv {cond : σ → Bool} {body : σ → Except ε σ} {P : σ → Prop}
    (hstep : ∀ s, P s → cond s = true → ∃ s', body s = .ok s' ∧ P s') :
    ∀ (j : Nat) (s : σ), P s → ∃ s', whileSteps cond body j s = .ok s' ∧ P s' := by
  intro j
  induction j with
  | zero => intro s hP; exact ⟨s, rfl, hP⟩
  | succ j ih =>
    intro s hP
    rw [whileSteps]
    by_cases hc : cond s = true
    · obtain ⟨s₁, hb, hP₁⟩ := hstep s hP hc
      rw [if_pos hc, hb]
      exact ih s₁ hP₁
    · rw [if_neg hc]
      exact ⟨s, rfl, hP⟩

/-- A loop that ends is the passes that its fuel allows. -/
theorem whileSteps_of_whileLoop {spin : ε} {cond : σ → Bool} {body : σ → Except ε σ} :
    ∀ (fuel : Nat) {s s' : σ}, whileLoop spin cond body fuel s = .ok s' →
      whileSteps cond body fuel s = .ok s' := by
  intro fuel
  induction fuel with
  | zero =>
    intro s s' h
    rw [whileLoop] at h
    split at h
    · cases h
    · exact h
  | succ fuel ih =>
    intro s s' h
    rw [whileLoop] at h
    rw [whileSteps]
    by_cases hc : cond s = true
    · rw [if_pos hc] at h ⊢
      obtain ⟨s₁, hb, hrest⟩ := ok_of_bind h
      rw [hb, ok_bind]
      exact ih hrest
    · rw [if_neg hc] at h ⊢
      exact h

end Loops

/-! ## `std::unordered_map` -/

@[simp] theorem keys_insert {κ : Type} [DecidableEq κ] {β : κ → Type} (s : Finmap β) (k : κ)
    (b : β k) : (s.insert k b).keys = insert k s.keys := by
  ext x; simp [Finmap.mem_keys]

/-! ## `std::list` with iterators -/

/-- A doubly linked list: its nodes from front to back, each with its address, and a bound on the
    addresses handed out so far.  An iterator is an address. -/
structure StdList (α : Type) where
  nodes : List (Nat × α)
  fresh : Nat
  addr_lt : ∀ nd ∈ nodes, nd.1 < fresh
  addr_nodup : (nodes.map Prod.fst).Nodup

namespace StdList

variable {α : Type}

/-- The empty list. -/
def empty : StdList α := ⟨[], 0, by simp, by simp⟩

/-- The elements, front first. -/
def toList (l : StdList α) : List α := l.nodes.map Prod.snd

/-- `push_front(x)`. -/
def pushFront (x : α) (l : StdList α) : StdList α where
  nodes := (l.fresh, x) :: l.nodes
  fresh := l.fresh + 1
  addr_lt := by
    intro nd hnd
    rcases List.mem_cons.mp hnd with rfl | hnd
    · exact Nat.lt_succ_self _
    · exact Nat.lt_succ_of_lt (l.addr_lt nd hnd)
  addr_nodup := by
    rw [List.map_cons, List.nodup_cons]
    refine ⟨fun hmem => ?_, l.addr_nodup⟩
    obtain ⟨nd, hnd, heq⟩ := List.mem_map.mp hmem
    exact absurd (l.addr_lt nd hnd) (by omega)

/-- `begin()`; on an empty list this is `end()`, an address of no node. -/
def begin (l : StdList α) : Nat := (l.nodes.head?.map Prod.fst).getD l.fresh

/-- `erase(it)`: the list without the node at `it`, `none` if `it` designates no node. -/
def eraseAt (it : Nat) (l : StdList α) : Option (StdList α) :=
  if it ∈ l.nodes.map Prod.fst then
    some
      { nodes := l.nodes.filter (fun nd => nd.1 ≠ it)
        fresh := l.fresh
        addr_lt := fun nd hnd => l.addr_lt nd (List.mem_of_mem_filter hnd)
        addr_nodup := l.addr_nodup.sublist (List.filter_sublist.map _) }
  else none

/-- `back()`, `none` on an empty list. -/
def back (l : StdList α) : Option α := l.nodes.getLast?.map Prod.snd

/-- `pop_back()` (on a non-empty list). -/
def popBack (l : StdList α) : StdList α where
  nodes := l.nodes.dropLast
  fresh := l.fresh
  addr_lt := fun nd hnd => l.addr_lt nd (List.mem_of_mem_dropLast hnd)
  addr_nodup := l.addr_nodup.sublist (List.Sublist.map _ (List.dropLast_sublist _))

/-- `it` designates a node that holds `x`. -/
def At (l : StdList α) (it : Nat) (x : α) : Prop := (it, x) ∈ l.nodes

@[simp] theorem toList_pushFront (x : α) (l : StdList α) :
    (l.pushFront x).toList = x :: l.toList := rfl

@[simp] theorem begin_pushFront (x : α) (l : StdList α) :
    (l.pushFront x).begin = l.fresh := rfl

theorem At.pushFront {l : StdList α} {it : Nat} {x : α} (h : l.At it x) (y : α) :
    (l.pushFront y).At it x := List.mem_cons_of_mem _ h

theorem at_begin_pushFront (x : α) (l : StdList α) : (l.pushFront x).At l.fresh x :=
  List.mem_cons_self

theorem At.mem {l : StdList α} {it : Nat} {x : α} (h : l.At it x) : x ∈ l.toList :=
  List.mem_map.mpr ⟨(it, x), h, rfl⟩

/-- One address, one element. -/
theorem At.unique {l : StdList α} {it : Nat} {x y : α} (hx : l.At it x) (hy : l.At it y) :
    x = y := by
  have hinj := List.inj_on_of_nodup_map l.addr_nodup hx hy rfl
  exact congrArg Prod.snd hinj

/-- In a list without repeated elements, one element, one address. -/
theorem At.addr_unique {l : StdList α} (hnd : l.toList.Nodup) {it it' : Nat} {x : α}
    (h : l.At it x) (h' : l.At it' x) : it = it' := by
  have hinj := List.inj_on_of_nodup_map hnd h h' rfl
  exact congrArg Prod.fst hinj

/-- **Erasing through a live iterator**: the node goes, every other iterator stays live, and (in a
    list without repeated elements) the list loses exactly that element. -/
theorem eraseAt_of_at [DecidableEq α] {l : StdList α} (hnd : l.toList.Nodup) {it : Nat} {x : α}
    (h : l.At it x) :
    ∃ l', l.eraseAt it = some l' ∧ l'.toList = l.toList.filter (fun y => y ≠ x) ∧
      ∀ it' y, y ≠ x → l.At it' y → l'.At it' y := by
  have hmem : it ∈ l.nodes.map Prod.fst := List.mem_map.mpr ⟨(it, x), h, rfl⟩
  rw [eraseAt, if_pos hmem]
  refine ⟨_, rfl, ?_, ?_⟩
  · -- a node has address `it` iff it holds `x`
    show (l.nodes.filter (fun nd => nd.1 ≠ it)).map Prod.snd
      = (l.nodes.map Prod.snd).filter (fun y => y ≠ x)
    rw [List.filter_map]
    congr 1
    apply List.filter_congr
    intro nd hndm
    have hiff : nd.1 = it ↔ nd.2 = x := by
      obtain ⟨a, y⟩ := nd
      constructor
      · rintro rfl; exact At.unique hndm h
      · rintro rfl; exact At.addr_unique hnd hndm h
    simp [hiff]
  · intro it' y hyx hat
    refine List.mem_filter.mpr ⟨hat, ?_⟩
    have hne : it' ≠ it := by rintro rfl; exact hyx (At.unique hat h)
    simpa using hne

theorem back_eq_some {l : StdList α} {xs : List α} {x : α} (h : l.toList = xs ++ [x]) :
    l.back = some x := by
  have hb : l.back = l.toList.getLast? := by
    rw [back, toList, List.getLast?_map]
  rw [hb, h, List.getLast?_concat]

theorem toList_popBack (l : StdList α) : l.popBack.toList = l.toList.dropLast := by
  show l.nodes.dropLast.map Prod.snd = (l.nodes.map Prod.snd).dropLast
  rw [List.map_dropLast]

/-- `pop_back()` leaves every iterator to another element live. -/
theorem At.popBack {l : StdList α} {it : Nat} {x : α} (h : l.At it x)
    (hx : x ∈ l.toList.dropLast) (hnd : l.toList.Nodup) : l.popBack.At it x := by
  rw [← toList_popBack] at hx
  obtain ⟨⟨it', y⟩, hmem, hy⟩ := List.mem_map.mp hx
  obtain rfl : y = x := hy
  have hlive : l.At it' y := List.mem_of_mem_dropLast hmem
  rw [At.addr_unique hnd h hlive]
  exact hmem

end StdList

end QemuStudy
