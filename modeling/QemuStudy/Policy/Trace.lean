/-
  The ground the three policies of `fmsync_policy/policy.cc` stand on: the globals `n`, `m` and
  `a`, the faults a run can end in, the mixed `size_t`/`int` arithmetic, the dirty set, and the
  printed line per iteration.

  * `Globals` is what `parse_input` leaves behind; every access to `a` is CHECKED against the
    static bounds `MAX_ITER` and `PAGE_NUM` (`Globals.read`).
  * `Trace` is a `Globals` that fits those bounds and holds zeros and ones only: the inputs the
    program can really hold.  `Trace.row i` is the set of pages that are 1 in row `i`.
  * `DirtySet` is `std::unordered_map<int, bool>`: a finite map without an iteration order.
  * `sizeT`, `subSizeT` and `toInt` are the conversions C++ inserts when `dirty_set.size()` (a
    64-bit unsigned) meets `dirty_target` (a 32-bit signed).
  * `iters` runs the outer `for (iter = 1; iter <= k; ++iter)` of a policy.  Every policy has the
    same frame (the row joins, pages are evicted, one line is printed), and `iters_refines` turns
    one step lemma about an iteration into the statement that the whole run refines the ranked run
    `Paging.Run` and prints exactly what `report` reads off it.
-/
import QemuStudy.Lib.Imperative
import QemuStudy.Lib.Paging
import Mathlib.Data.Int.Interval

namespace QemuStudy.Policy

open QemuStudy

/-! ## Globals, traces, faults -/

abbrev PAGE_NUM : Nat := 32 * 512
abbrev MAX_ITER : Nat := 1000

/-- How a run can go wrong: a failed `assert`, an index outside a static array or a vector,
    `back()` of an empty list, a dangling iterator, or a loop that never ends. -/
inductive Fault
  | assertFailed
  | outOfRange
  | emptyBack
  | dangling
  | spin
  deriving DecidableEq, Repr

/-- The globals `n`, `m` and `a` of `policy.cc`. -/
structure Globals where
  n : Nat
  m : Nat
  a : Nat → Nat → Nat

/-- `a[iter][idx]`, inside `int a[MAX_ITER][PAGE_NUM]`. -/
def Globals.read (g : Globals) (iter idx : Nat) : Except Fault Nat :=
  if iter < MAX_ITER ∧ idx < PAGE_NUM then .ok (g.a iter idx) else .error .outOfRange

/-- A 0/1 trace that fits the static arrays (rows are counted from 1). -/
structure Trace extends Globals where
  n_lt : n < MAX_ITER
  m_le : m ≤ PAGE_NUM
  bit : ∀ i j, a i j = 0 ∨ a i j = 1

theorem Trace.read_eq (T : Trace) {iter idx : Nat} (hi : iter ≤ T.n) (hj : idx < T.m) :
    T.read iter idx = .ok (T.a iter idx) := by
  have h1 := T.n_lt
  have h2 := T.m_le
  rw [Globals.read, if_pos ⟨by omega, by omega⟩]

/-- The pages below `k` that are 1 in row `i`: what the inner loop has seen when it reaches `k`. -/
def Globals.rowTo (g : Globals) (i k : Nat) : Finset Nat :=
  (Finset.range k).filter fun p => g.a i p = 1

/-- The pages that are 1 in row `i`. -/
def Globals.row (g : Globals) (i : Nat) : Finset Nat := g.rowTo i g.m

theorem Globals.mem_rowTo {g : Globals} {i k p : Nat} :
    p ∈ g.rowTo i k ↔ p < k ∧ g.a i p = 1 := by
  simp [Globals.rowTo]

theorem Globals.mem_row {g : Globals} {i p : Nat} : p ∈ g.row i ↔ p < g.m ∧ g.a i p = 1 :=
  Globals.mem_rowTo

theorem Globals.rowTo_succ_of_one {g : Globals} {i k : Nat} (h : g.a i k = 1) :
    g.rowTo i (k + 1) = insert k (g.rowTo i k) := by
  rw [Globals.rowTo, Finset.range_add_one, Finset.filter_insert, if_pos h, Globals.rowTo]

theorem Globals.rowTo_succ_of_ne {g : Globals} {i k : Nat} (h : g.a i k ≠ 1) :
    g.rowTo i (k + 1) = g.rowTo i k := by
  rw [Globals.rowTo, Finset.range_add_one, Finset.filter_insert, if_neg h, Globals.rowTo]

theorem Globals.row_subset (g : Globals) (i : Nat) : g.row i ⊆ Finset.range g.m := fun _ hp =>
  Finset.mem_range.mpr (Globals.mem_row.mp hp).1

theorem Trace.card_le {T : Trace} {S : Finset Nat} (h : S ⊆ Finset.range T.m) :
    S.card ≤ PAGE_NUM := by
  have hc := Finset.card_le_card h
  rw [Finset.card_range] at hc
  exact Nat.le_trans hc T.m_le

theorem Trace.pages (T : Trace) {S : Finset Nat} (h : S ⊆ Finset.range T.m) :
    S ⊆ Finset.range PAGE_NUM := h.trans (Finset.range_subset_range.mpr T.m_le)

/-! ## `size_t` meets `int` -/

/-- An `int` converted to `size_t`. -/
def sizeT (x : Int32) : Nat := (x.toInt % 2 ^ 64).toNat

/-- Subtraction of two `size_t`. -/
def subSizeT (x y : Nat) : Nat := (((x : Int) - y) % 2 ^ 64).toNat

/-- A `size_t` converted to `int`. -/
def toInt (x : Nat) : Int := Int.bmod x (2 ^ 32)

/-- A non-negative target means itself. -/
theorem sizeT_of_nonneg {x : Int32} (h : 0 ≤ x) : sizeT x = x.toNatClampNeg := by
  have h0 : 0 ≤ x.toInt := Int32.le_iff_toInt_le.mp h
  have h1 := x.toInt_lt
  rw [sizeT, Int.emod_eq_of_lt h0 (by omega)]
  rfl

/-- A negative target means a number just below `2^64`. -/
theorem sizeT_of_neg {x : Int32} (h : x < 0) : (sizeT x : Int) = 2 ^ 64 + x.toInt := by
  have h0 : x.toInt < 0 := Int32.lt_iff_toInt_lt.mp h
  have h1 := x.le_toInt
  rw [sizeT]
  omega

theorem subSizeT_of_le {x y : Nat} (h : y ≤ x) (hx : x < 2 ^ 64) : subSizeT x y = x - y := by
  rw [subSizeT, Int.emod_eq_of_lt (by omega) (by omega)]
  omega

theorem toInt_of_lt {x : Nat} (h : x < 2 ^ 31) : toInt x = x := by
  unfold toInt
  apply Int.bmod_eq_of_le
  · omega
  · omega

/-! ## The dirty set -/

/-- `std::unordered_map<int, bool> dirty_set`. -/
abbrev DirtySet := Finmap (fun _ : Nat => Bool)

/-- `dirty_set.size()`. -/
def DirtySet.size (D : DirtySet) : Nat := D.keys.card

theorem DirtySet.size_le {D : DirtySet} {k : Nat} (h : D.keys ⊆ Finset.range k) : D.size ≤ k := by
  have hc := Finset.card_le_card h
  rwa [Finset.card_range] at hc

/-- `dirty_set[page] = true`. -/
def DirtySet.mark (page : Nat) (D : DirtySet) : DirtySet := D.insert page true

/-- `assert(dirty_set[page])`.  On a missing page `operator[]` would insert `false`, so the assert
    fails there as well. -/
def DirtySet.assertDirty (page : Nat) (D : DirtySet) : Except Fault Unit :=
  if D.lookup page = some true then .ok () else .error .assertFailed

/-- Every stored flag is `true`: the map is the set of its keys. -/
def DirtySet.AllTrue (D : DirtySet) : Prop := ∀ p ∈ D.keys, D.lookup p = some true

theorem DirtySet.allTrue_empty : DirtySet.AllTrue (∅ : DirtySet) := by
  intro p hp; simp at hp

theorem DirtySet.AllTrue.mark {D : DirtySet} (h : D.AllTrue) (page : Nat) :
    (DirtySet.mark page D).AllTrue := by
  intro p hp
  by_cases hpp : p = page
  · subst hpp; exact Finmap.lookup_insert _
  · rw [DirtySet.mark, Finmap.lookup_insert_of_ne _ hpp]
    rw [DirtySet.mark, keys_insert] at hp
    exact h p (Finset.mem_of_mem_insert_of_ne hp hpp)

theorem DirtySet.AllTrue.erase {D : DirtySet} (h : D.AllTrue) (page : Nat) :
    DirtySet.AllTrue (D.erase page) := by
  intro p hp
  rw [Finmap.keys_erase] at hp
  rw [Finmap.lookup_erase_ne (Finset.ne_of_mem_erase hp)]
  exact h p (Finset.mem_of_mem_erase hp)

theorem DirtySet.AllTrue.assertDirty {D : DirtySet} (h : D.AllTrue) {page : Nat}
    (hp : page ∈ D.keys) : DirtySet.assertDirty page D = .ok () := by
  rw [DirtySet.assertDirty, if_pos (h page hp)]

@[simp] theorem DirtySet.keys_mark (page : Nat) (D : DirtySet) :
    (DirtySet.mark page D).keys = insert page D.keys := keys_insert D page true

/-- In a sorted list, what is in front of a cut is related to what is behind it. -/
theorem rel_of_mem_drop {α : Type} {rel : α → α → Prop} {l : List α} (h : l.Pairwise rel) {k : Nat}
    {p q : α} (hp : p ∈ l.drop k) (hq : q ∈ l) (hqk : q ∉ l.drop k) : rel q p := by
  rw [← List.take_append_drop k l, List.mem_append] at hq
  rw [← List.take_append_drop k l, List.pairwise_append] at h
  exact h.2.2 q (hq.resolve_right hqk) p hp

/-! ## The frame of a policy: iterate, print -/

/-- One printed line: `iter`, `dirty_set`, `evict`, `prev_dirty`. -/
structure Line where
  iter : Nat
  dirtySet : Nat
  evict : Int
  prevDirty : Int
  deriving DecidableEq, Repr

/-- One iteration on the state and the lines printed so far. -/
def printed {σ : Type} (iteration : Nat → σ → Except Fault (σ × Line)) (iter : Nat)
    (st : σ × List Line) : Except Fault (σ × List Line) := do
  let r ← iteration iter st.1
  return (r.1, st.2 ++ [r.2])

/-- `for (iter = 1; iter <= k; iter++)`: the state after `k` iterations and the printed lines. -/
def iters {σ : Type} (iteration : Nat → σ → Except Fault (σ × Line)) (k : Nat) (s : σ) :
    Except Fault (σ × List Line) :=
  forLoop (printed iteration) 1 k (s, [])

/-- The pages left in the dirty set by a run (none, if it faulted). -/
def dirtyOf {σ : Type} (dirty : σ → DirtySet) : Except Fault (σ × List Line) → Finset Nat
  | .ok (s, _) => (dirty s).keys
  | .error _ => ∅

/-- What a run whose dirty sets are `D 0, D 1, …` prints in iteration `i + 1`. -/
def report (row D : Nat → Finset Nat) (i : Nat) : Line where
  iter := i + 1
  dirtySet := (D (i + 1)).card
  evict := (((D i ∪ row (i + 1)).card - (D (i + 1)).card : Nat) : Int)
  prevDirty := ((D i ∪ row (i + 1)).card : Int)

theorem iters_succ {σ : Type} (iteration : Nat → σ → Except Fault (σ × Line)) (k : Nat) (s : σ) :
    iters iteration (k + 1) s = iters iteration k s >>= printed iteration (k + 1) := by
  rw [iters, forLoop_last, iters, Nat.add_comm 1 k]

theorem printed_ok {σ : Type} {iteration : Nat → σ → Except Fault (σ × Line)} {iter : Nat}
    {s s' : σ} {line : Line} (h : iteration iter s = .ok (s', line)) (out : List Line) :
    printed iteration iter (s, out) = .ok (s', out ++ [line]) := by
  rw [printed, h]; rfl

/-- **One step lemma gives the run.**  If, under an invariant, iteration `i + 1` does not fault,
    keeps a best-`C` part of the dirty set joined with the row, and prints the sizes before and
    after, then the run of all iterations does not fault, its dirty sets form a ranked run, and it
    prints that run's report. -/
theorem iters_refines {σ : Type} {iteration : Nat → σ → Except Fault (σ × Line)}
    {dirty : σ → DirtySet} {better : Nat → Nat → Nat → Prop} {row : Nat → Finset Nat}
    {n C : Nat} {s₀ : σ} (Inv : Nat → σ → Prop) (h0 : Inv 0 s₀) (hempty : (dirty s₀).keys = ∅)
    (hstep : ∀ i s, i < n → Inv i s → ∃ s', Inv (i + 1) s' ∧
      Paging.Keeps (better (i + 1)) C ((dirty s).keys ∪ row (i + 1)) (dirty s').keys ∧
      iteration (i + 1) s = .ok (s', ⟨i + 1, (dirty s').keys.card,
        ((((dirty s).keys ∪ row (i + 1)).card - (dirty s').keys.card : Nat) : Int),
        (((dirty s).keys ∪ row (i + 1)).card : Int)⟩)) :
    Paging.Run n better row C (fun k => dirtyOf dirty (iters iteration k s₀)) ∧
    ∀ k, k ≤ n → ∃ s, Inv k s ∧
      (dirty s).keys = dirtyOf dirty (iters iteration k s₀) ∧
      iters iteration k s₀ = .ok (s, (List.range k).map
        (report row fun j => dirtyOf dirty (iters iteration j s₀))) := by
  have hrun : ∀ k, k ≤ n → ∃ s, Inv k s ∧
      (dirty s).keys = dirtyOf dirty (iters iteration k s₀) ∧
      iters iteration k s₀ = .ok (s, (List.range k).map
        (report row fun j => dirtyOf dirty (iters iteration j s₀))) := by
    intro k
    induction k with
    | zero => intro _; exact ⟨s₀, h0, rfl, rfl⟩
    | succ k ih =>
      intro hk
      obtain ⟨s, hInv, hkeys, hs⟩ := ih (by omega)
      obtain ⟨s', hInv', -, hit⟩ := hstep k s (by omega) hInv
      have hiter : iters iteration (k + 1) s₀ = .ok (s', (List.range k).map
          (report row fun j => dirtyOf dirty (iters iteration j s₀)) ++
            [⟨k + 1, (dirty s').keys.card,
              ((((dirty s).keys ∪ row (k + 1)).card - (dirty s').keys.card : Nat) : Int),
              (((dirty s).keys ∪ row (k + 1)).card : Int)⟩]) := by
        rw [iters_succ, hs]
        exact printed_ok hit _
      have hkeys' : (dirty s').keys = dirtyOf dirty (iters iteration (k + 1) s₀) := by
        rw [hiter]; rfl
      refine ⟨s', hInv', hkeys', ?_⟩
      rw [List.range_succ, List.map_append, List.map_singleton]
      rw [show report row (fun j => dirtyOf dirty (iters iteration j s₀)) k
        = ⟨k + 1, (dirty s').keys.card,
              ((((dirty s).keys ∪ row (k + 1)).card - (dirty s').keys.card : Nat) : Int),
              (((dirty s).keys ∪ row (k + 1)).card : Int)⟩ by rw [report, hkeys', hkeys]]
      exact hiter
  refine ⟨⟨hempty, fun i hi => ?_⟩, hrun⟩
  -- the ranked step is the one the iteration takes from the state after `i` iterations
  obtain ⟨s, hInv, hkeys, hs⟩ := hrun i (by omega)
  obtain ⟨s', -, hk, hit⟩ := hstep i s hi hInv
  have hnext : dirtyOf dirty (iters iteration (i + 1) s₀) = (dirty s').keys := by
    rw [iters_succ, hs]
    show dirtyOf dirty (printed iteration (i + 1) _) = _
    rw [printed_ok hit]
    rfl
  show Paging.Keeps _ _ (dirtyOf dirty (iters iteration i s₀) ∪ _)
    (dirtyOf dirty (iters iteration (i + 1) s₀))
  rw [hnext, ← hkeys]
  exact hk

end QemuStudy.Policy
