/-
  What LRU and LFU hold after iteration `i`, and what MIN evicts, said without following the loops.

  Both programs only ever look at pages that are dirty NOW: `lru_policy` forgets a page with its
  list node, `poly_policy` sorts the keys of `dirty_set`.  The specifications rank EVERY page that
  occurred in rows `1..i`:

  1. `lru_closed_form` — the `min C |A|` pages of `A` that are greatest in (last row of the page,
     page index), where `A` is the set of all pages seen;
  2. `lfu_dominates`   — `value[p]` is the number of rows that used `p`, and no page that was ever
     evicted has a larger count than a page that is held, however ties were broken.

  Both are `Paging.Run.stack` read through the refinement theorems; what is left to show here is
  that a page outside the next row keeps its rank while the others can only rise
  (`lruBetter_persists`, `freq_counts`).

  MIN looks ahead, so its closed form is about one eviction, from ANY dirty set and ANY next-use
  lists (`min_evicts_furthest`): the halving passes together remove what one sort would remove.
-/
import QemuStudy.Policy.Compare
import QemuStudy.Lib.Ranking
import Mathlib.Data.Nat.Find
import Mathlib.Data.List.MinMax
import Mathlib.Data.Nat.SuccPred
import Mathlib.Algebra.Order.Interval.Finset.SuccPred

namespace QemuStudy.Policy

open QemuStudy

/-! ## LRU -/

theorem lruBetter_trans (g : Globals) (i p q r : Nat) (hpq : lruBetter g i p q)
    (hqr : lruBetter g i q r) : lruBetter g i p r := by
  unfold lruBetter moreRecent at *
  omega

/-- A page outside row `i + 1` does not overtake anything. -/
theorem lruBetter_persists (g : Globals) {i p q : Nat} (hq : q ∉ g.row (i + 1))
    (h : lruBetter g i p q) : lruBetter g (i + 1) p q := by
  have hle := g.lastUse_le q i
  unfold lruBetter moreRecent at *
  rw [Globals.lastUse, Globals.lastUse, if_neg hq]
  by_cases hp : p ∈ g.row (i + 1)
  · rw [if_pos hp]; omega
  · rw [if_neg hp]; exact h

/-- The last row `≤ i` with page `p`, by search from above. -/
theorem Globals.lastUse_eq_findGreatest (g : Globals) (i p : Nat) :
    g.lastUse i p = Nat.findGreatest (fun j => p ∈ g.row j) i := by
  induction i with
  | zero => rfl
  | succ i ih => rw [Globals.lastUse, Nat.findGreatest_succ, ih]

/-- **LRU in closed form.**  For a target `0 ≤ C`, the dirty set after iteration `i` consists of the
    `min C |A|` pages of `A` with the greatest (last row `≤ i` that has the page, page index),
    where `A` is the set of all pages of rows `1..i`. -/
theorem lru_closed_form (T : Trace) {target : Int32} (ht : 0 ≤ target) {i : Nat} (hi : i ≤ T.n) :
    ∃ s out, lruRun T.toGlobals target i = .ok (s, out) ∧
      s.dirtySet.keys = Paging.greatest
        (fun p => toLex (Nat.findGreatest (fun j => p ∈ T.row j) i, p)) target.toNatClampNeg
        (Paging.seen T.row i) ∧
      s.dirtySet.keys.card = min target.toNatClampNeg (Paging.seen T.row i).card := by
  obtain ⟨hrun, hstates⟩ := lru_refines T target
  obtain ⟨s, -, hkeys, hs⟩ := hstates i hi
  have hbest : Paging.Keeps (lruBetter T.toGlobals i) target.toNatClampNeg (Paging.seen T.row i)
      s.dirtySet.keys := by
    rw [hkeys, ← sizeT_of_nonneg ht]
    exact hrun.stack (lruBetter_trans T.toGlobals)
      (fun _ _ _ _ => lruBetter_persists T.toGlobals) i hi
  refine ⟨s, _, hs, ?_, hbest.card⟩
  refine hbest.eq_greatest _ fun p _ q _ hpq => ?_
  rw [Prod.Lex.toLex_lt_toLex, ← T.lastUse_eq_findGreatest, ← T.lastUse_eq_findGreatest]
  exact hpq

/-- On the sample with target 2, after row 2. -/
theorem lru_closed_form_sample : ((0 : Int32) ≤ 2 ∧ 2 ≤ sampleTrace.n) ∧
    ∃ s out, lruRun sampleTrace.toGlobals 2 2 = .ok (s, out) ∧
      s.dirtySet.keys = Paging.greatest
        (fun p => toLex (Nat.findGreatest (fun j => p ∈ sampleTrace.row j) 2, p)) 2
        (Paging.seen sampleTrace.row 2) ∧
      s.dirtySet.keys.card = min 2 (Paging.seen sampleTrace.row 2).card :=
  ⟨by decide, lru_closed_form sampleTrace (by decide) (by decide)⟩

/-! ## LFU -/

/-- `value` only grows, and only for the pages of the row. -/
theorem freq_counts (T : Trace) : Paging.Counts T.n T.row T.freq where
  mono := fun i p _ => Nat.le_add_right _ _
  frame := by
    intro i p _ hp
    rw [Globals.freq]
    by_cases hm : p < T.m
    · have hone : T.a (i + 1) p ≠ 1 := fun h => hp (Globals.mem_row.mpr ⟨hm, h⟩)
      rw [if_pos hm, (T.bit (i + 1) p).resolve_right hone]
      rfl
    · rw [if_neg hm]; rfl

/-- The sum of a 0/1 column is the number of its ones. -/
theorem Trace.freq_eq_card (T : Trace) {p : Nat} (hp : p < T.m) (i : Nat) :
    T.freq i p = ((Finset.Icc 1 i).filter fun j => T.a j p = 1).card := by
  induction i with
  | zero => rfl
  | succ i ih =>
    rw [Globals.freq, if_pos hp, ih,
      ← Finset.insert_Icc_right_eq_Icc_add_one (by omega : 1 ≤ i + 1), Finset.filter_insert]
    rcases T.bit (i + 1) p with h0 | h1
    · rw [h0, if_neg (by omega)]; rfl
    · rw [h1, if_pos rfl, Finset.card_insert_of_notMem]
      intro hmem
      have := (Finset.mem_Icc.mp (Finset.mem_of_mem_filter _ hmem)).2
      omega

/-- The dirty sets of `poly_policy` are best parts of all pages seen, for every resolution. -/
theorem poly_stack (T : Trace) (R : Resolution) {target : Int32} (ht : 0 ≤ target) {i : Nat}
    (hi : i ≤ T.n) :
    Paging.Keeps (Paging.notWorse (T.freq i)) target.toNatClampNeg (Paging.seen T.row i)
      (polyDirty T.toGlobals R target i) := by
  rw [← sizeT_of_nonneg ht]
  exact (freq_counts T).stack (poly_refines T R ht).1 i hi

/-- **LFU dominates what it evicted.**  For a target `0 ≤ C` and EVERY resolution of the iteration
    order and of the sort, after iteration `i` the counters are exact, as many pages of rows `1..i`
    are held as the target allows, and each of them is counted at least as often as each page of
    these rows that is not held. -/
theorem lfu_dominates (T : Trace) (R : Resolution) {target : Int32} (ht : 0 ≤ target) {i : Nat}
    (hi : i ≤ T.n) :
    ∃ s out, polyRun T.toGlobals R target i = .ok (s, out) ∧
      (∀ p, p < T.m → s.value p = ((Finset.Icc 1 i).filter fun j => T.a j p = 1).card) ∧
      s.dirtySet.keys ⊆ Paging.seen T.row i ∧
      s.dirtySet.keys.card = min target.toNatClampNeg (Paging.seen T.row i).card ∧
      ∀ p ∈ s.dirtySet.keys, ∀ q ∈ Paging.seen T.row i, q ∉ s.dirtySet.keys →
        s.value q ≤ s.value p := by
  obtain ⟨s, hinv, hkeys, hs⟩ := (poly_refines T R ht).2 i hi
  have hbest := poly_stack T R ht hi
  rw [← hkeys] at hbest
  refine ⟨s, _, hs, fun p hp => ?_, hbest.sub, hbest.card, fun p hp q hq hqs => ?_⟩
  · rw [hinv.value, T.freq_eq_card hp]
  · rw [hinv.value]
    exact Nat.not_lt.mp (hbest.best p hp q hq hqs)

/-- On the sample with target 1, after row 3. -/
theorem lfu_dominates_sample : ((0 : Int32) ≤ 1 ∧ 3 ≤ sampleTrace.n) ∧
    ∃ s out, polyRun sampleTrace.toGlobals Resolution.ascending 1 3 = .ok (s, out) ∧
      (∀ p, p < sampleTrace.m →
        s.value p = ((Finset.Icc 1 3).filter fun j => sampleTrace.a j p = 1).card) ∧
      s.dirtySet.keys ⊆ Paging.seen sampleTrace.row 3 ∧
      s.dirtySet.keys.card = min 1 (Paging.seen sampleTrace.row 3).card ∧
      ∀ p ∈ s.dirtySet.keys, ∀ q ∈ Paging.seen sampleTrace.row 3, q ∉ s.dirtySet.keys →
        s.value q ≤ s.value p :=
  ⟨by decide, lfu_dominates sampleTrace Resolution.ascending (by decide) (by decide)⟩

/-! ## MIN -/

/-- The place of page `p` in the order of decreasing next use: no further use first, the smaller
    page index first on ties. -/
def furthest (nextUse : Nat → List Nat) (p : Nat) : WithTop Nat ×ₗ Natᵒᵈ :=
  toLex ((nextUse p).minimum, OrderDual.toDual p)

/-- The front of an ascending list is its minimum; a list without a front has minimum `⊤`, and the
    program's sentinel. -/
theorem nextKey_cases {nextUse : Nat → List Nat} {p : Nat} (hsorted : (nextUse p).Pairwise (· < ·))
    (hbound : ∀ j ∈ nextUse p, j < 1000000) :
    ((nextUse p).minimum = ⊤ ∧ nextKey nextUse p = 1000000) ∨
      ∃ j : Nat, j < 1000000 ∧ (nextUse p).minimum = WithTop.some j ∧ nextKey nextUse p = j := by
  rw [nextKey]
  cases h : nextUse p with
  | nil => exact Or.inl ⟨rfl, rfl⟩
  | cons j rest =>
    rw [h] at hsorted hbound
    refine Or.inr ⟨j, hbound j List.mem_cons_self, le_antisymm ?_ ?_, rfl⟩
    · exact List.minimum_le_of_mem' List.mem_cons_self
    · refine List.le_minimum_of_forall_le fun k hk => WithTop.coe_le_coe.mpr ?_
      rcases List.mem_cons.mp hk with rfl | hk
      · exact Nat.le_refl _
      · exact Nat.le_of_lt ((List.pairwise_cons.mp hsorted).1 k hk)

/-- Below the sentinel the program keeps pages exactly against the order `furthest`. -/
theorem furthest_lt_of_keptBefore {nextUse : Nat → List Nat} {p q : Nat}
    (hp : (nextUse p).Pairwise (· < ·)) (hp' : ∀ j ∈ nextUse p, j < 1000000)
    (hq : (nextUse q).Pairwise (· < ·)) (hq' : ∀ j ∈ nextUse q, j < 1000000)
    (h : keptBefore nextUse p q) : furthest nextUse p < furthest nextUse q := by
  rw [furthest, furthest, Prod.Lex.toLex_lt_toLex]
  show (nextUse p).minimum < (nextUse q).minimum ∨
    (nextUse p).minimum = (nextUse q).minimum ∧ q < p
  unfold keptBefore at h
  rcases nextKey_cases hp hp' with ⟨hm, hk⟩ | ⟨j, hj, hm, hk⟩
  · rcases nextKey_cases hq hq' with ⟨hm', hk'⟩ | ⟨j', hj', hm', hk'⟩
    · exact Or.inr ⟨by rw [hm, hm'], by omega⟩
    · omega
  · rcases nextKey_cases hq hq' with ⟨hm', hk'⟩ | ⟨j', hj', hm', hk'⟩
    · rw [hm, hm']
      exact Or.inl (WithTop.coe_lt_top j)
    · rw [hm, hm', WithTop.coe_lt_coe, WithTop.coe_inj]
      omega

/-- **MIN's eviction loop in one shot.**  For a target `0 ≤ C`, every dirty set `D` of pages and
    every assignment of ascending next-use lists below the sentinel, the nested loop ends without a
    fault and removes exactly the first `|D| - C` pages of `D` in the order of decreasing next use.
    Over a whole run `next_use[p]` after row `i` is the ascending list of later rows that use `p`,
    and no iteration faults. -/
theorem min_evicts_furthest (T : Trace) (target : Int32) (ht : 0 ≤ target) :
    (∀ (D : DirtySet) (nextUse : Nat → List Nat), D.AllTrue → D.keys ⊆ Finset.range T.m →
      (∀ p ∈ D.keys, (nextUse p).Pairwise (· < ·)) →
      (∀ p ∈ D.keys, ∀ j ∈ nextUse p, j < 1000000) →
      ∃ D' : DirtySet, minEvict T.toGlobals target nextUse D
          = .ok (D', ((D.size - target.toNatClampNeg : Nat) : Int)) ∧
        D'.AllTrue ∧ D'.keys ⊆ D.keys ∧
        (D.keys \ D'.keys).card = D.size - target.toNatClampNeg ∧
        D.keys \ D'.keys
          = Paging.greatest (furthest nextUse) (D.size - target.toNatClampNeg) D.keys) ∧
    (∀ i, i ≤ T.n → ∃ s out, minRun T.toGlobals target i = .ok (s, out) ∧
      ∀ p, s.nextUse p = T.uses i p) ∧
    ∃ out, minPolicy T.toGlobals target = .ok out := by
  refine ⟨fun D nextUse htrue hD hsorted hbound => ?_, fun i hi => ?_, _, minPolicy_eq T target⟩
  · have hm : T.m ≤ 16384 := T.m_le
    obtain ⟨D', hrun, htrue', hk⟩ := minEvict_spec target nextUse hD htrue (by omega)
    rw [sizeT_of_nonneg ht] at hk
    have hcard := Finset.card_sdiff_of_subset hk.sub
    have hsize : D.size - D'.size = D.size - target.toNatClampNeg := by
      have : D'.size = min target.toNatClampNeg D.size := hk.card
      omega
    refine ⟨D', by rw [hrun, hsize], htrue', hk.sub, by rw [hcard]; exact hsize, ?_⟩
    refine hk.compl.eq_greatest _ fun p hp q hq hpq => ?_
    exact furthest_lt_of_keptBefore (hsorted q hq) (hbound q hq) (hsorted p hp) (hbound p hp) hpq
  · obtain ⟨s, hinv, -, hs⟩ := (min_refines T target).2 i hi
    exact ⟨s, _, hs, fun p => congrFun hinv.nextUse p⟩

/-- Pages 0 and 1 of the sample are dirty and only page 0 is used again: page 1 goes. -/
theorem min_evicts_furthest_sample : (0 : Int32) ≤ 1 ∧
    ∃ D' : DirtySet, minEvict sampleTrace.toGlobals 1 (fun p => if p = 0 then [3] else [])
        (DirtySet.mark 0 (DirtySet.mark 1 ∅)) = .ok (D', 1) ∧
      (DirtySet.mark 0 (DirtySet.mark 1 ∅)).keys \ D'.keys = Paging.greatest
        (furthest fun p => if p = 0 then [3] else []) 1
        (DirtySet.mark 0 (DirtySet.mark 1 ∅)).keys := by
  obtain ⟨D', hrun, -, -, -, hkeys⟩ := (min_evicts_furthest sampleTrace 1 (by decide)).1
    (DirtySet.mark 0 (DirtySet.mark 1 ∅)) (fun p => if p = 0 then [3] else [])
    ((DirtySet.allTrue_empty.mark 1).mark 0) (by decide) (by decide) (by decide)
  exact ⟨by decide, D', hrun, hkeys⟩

end QemuStudy.Policy
