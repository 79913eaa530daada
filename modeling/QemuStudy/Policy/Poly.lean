/-
  `poly_policy` (printed as LFU): evict the pages with the smallest use counts.

  The program (lines 132–171 of `fmsync_policy/policy.cc`) adds each column of the row to
  `value[idx]` (`value * exponential + a` with `exponential = 1`, read here as exact integers),
  copies the keys of `dirty_set` into `index_sort` in whatever order the `unordered_map` iterates,
  sorts that prefix by `compare_func` and erases its first `evict_num` pages.

  Two things are left open by the C++ standard: the iteration order of the map, and which of the
  `compare_func`-sorted permutations the unstable `std::sort` returns.  A `Resolution` fixes both,
  for every iteration on its own; every theorem below is about EVERY resolution.

  `evict_num` is computed as a `size_t` difference narrowed to `int`.  For a non-negative target it
  is `max 0 (size - target)` (`evictNum_eq`), and the loop then erases a prefix of the sorted
  array: the run is a ranked run for the order `polyBetter`, "not counted less often"
  (`poly_refines`).
-/
import QemuStudy.Policy.Trace
import Mathlib.Data.Finset.Sort

set_option linter.unusedVariables false

namespace QemuStudy.Policy

open QemuStudy

/-! ## What the standard library leaves open -/

/-- `compare_func`: `value[x] < value[y]`. -/
def compareFunc (value : Nat → Nat) (x y : Nat) : Prop := value x < value y

/-- A resolution of the open choices, per iteration: the order in which `dirty_set` is iterated,
    and the sorted permutation `std::sort` returns. -/
structure Resolution where
  iterOrder : Nat → DirtySet → List Nat
  iterOrder_nodup : ∀ iter D, (iterOrder iter D).Nodup
  mem_iterOrder : ∀ iter D p, p ∈ iterOrder iter D ↔ p ∈ D.keys
  sort : Nat → (Nat → Nat) → List Nat → List Nat
  sort_perm : ∀ iter value l, (sort iter value l).Perm l
  sort_sorted : ∀ iter value l,
    (sort iter value l).Pairwise fun x y => ¬ compareFunc value y x

/-- One resolution: ascending iteration, stable sort. -/
def Resolution.ascending : Resolution where
  iterOrder := fun _ D => D.keys.sort (· ≤ ·)
  iterOrder_nodup := fun _ D => Finset.sort_nodup _ _
  mem_iterOrder := fun _ D p => Finset.mem_sort _
  sort := fun _ value l => l.insertionSort fun x y => value x ≤ value y
  sort_perm := fun _ value l => List.perm_insertionSort _ l
  sort_sorted := fun _ value l => by
    have htotal : Std.Total (fun x y : Nat => value x ≤ value y) :=
      ⟨fun x y => Nat.le_total _ _⟩
    have htrans : IsTrans Nat (fun x y => value x ≤ value y) := ⟨fun x y z => Nat.le_trans⟩
    exact (List.pairwise_insertionSort (fun x y => value x ≤ value y) l).imp
      fun h => Nat.not_lt.mpr h

/-! ## The program -/

/-- The globals `value` and `index_sort` and the local `dirty_set`. -/
structure PolyState where
  value : Nat → Nat
  indexSort : Nat → Nat
  dirtySet : DirtySet

/-- One column of the row (lines 145–148); `value[idx]` has the same bound as `a[iter][idx]`. -/
def polyTouch (g : Globals) (iter idx : Nat) (s : PolyState) : Except Fault PolyState := do
  let x ← g.read iter idx
  return { s with
    value := Function.update s.value idx (s.value idx * 1 + x)
    dirtySet := if x = 1 then DirtySet.mark idx s.dirtySet else s.dirtySet }

/-- An index into `value` or `index_sort`. -/
def checkPage (idx : Nat) : Except Fault Unit :=
  if idx < PAGE_NUM then .ok () else .error .outOfRange

/-- `for (auto& [key, value] : dirty_set)` (lines 152–155), over the keys in iteration order. -/
def fillIndex (D : DirtySet) : List Nat → Nat → (Nat → Nat) → Except Fault (Nat → Nat)
  | [], _, indexSort => .ok indexSort
  | key :: rest, sz, indexSort => do
    DirtySet.assertDirty key D
    checkPage sz
    fillIndex D rest (sz + 1) (Function.update indexSort sz key)

/-- `std::sort(index_sort, index_sort + sz, compare_func)`: the first `sz` entries are replaced by
    a sorted permutation.  `compare_func` reads `value` at those entries. -/
def sortIndex (R : Resolution) (iter : Nat) (value : Nat → Nat) (sz : Nat)
    (indexSort : Nat → Nat) : Except Fault (Nat → Nat) := do
  let entries := (List.range sz).map indexSort
  entries.forM checkPage
  return fun j => ((R.sort iter value entries)[j]?).getD (indexSort j)

/-- `int evict_num = dirty_set.size() - dirty_target; if (evict_num < 0) evict_num = 0;` -/
def evictNum (target : Int32) (size : Nat) : Int :=
  let evictNum := toInt (subSizeT size (sizeT target))
  if evictNum < 0 then 0 else evictNum

/-- The body of the eviction loop (lines 163–165). -/
def polyEvictOne (indexSort : Nat → Nat) (i : Nat) (D : DirtySet) : Except Fault DirtySet := do
  checkPage i
  DirtySet.assertDirty (indexSort i) D
  return D.erase (indexSort i)

/-- Sort the dirty pages and erase the first `evict_num` of them (lines 151–166). -/
def polyEvict (R : Resolution) (target : Int32) (iter : Nat) (s : PolyState) :
    Except Fault PolyState := do
  let filled ← fillIndex s.dirtySet (R.iterOrder iter s.dirtySet) 0 s.indexSort
  let indexSort ← sortIndex R iter s.value (R.iterOrder iter s.dirtySet).length filled
  let D ← forLoop (polyEvictOne indexSort) 0 (evictNum target s.dirtySet.size).toNat s.dirtySet
  return ⟨s.value, indexSort, D⟩

/-- One iteration (lines 144–168). -/
def polyIteration (g : Globals) (R : Resolution) (target : Int32) (iter : Nat) (s : PolyState) :
    Except Fault (PolyState × Line) := do
  let s₁ ← forLoop (polyTouch g iter) 0 g.m s
  let s₂ ← polyEvict R target iter s₁
  return (s₂, ⟨iter, s₂.dirtySet.size, evictNum target s₁.dirtySet.size,
    toInt s₁.dirtySet.size⟩)

/-- `poly_policy(target)`, stopped after `k` iterations (`value` starts cleared; `index_sort` is a
    zero-initialised global). -/
def polyRun (g : Globals) (R : Resolution) (target : Int32) (k : Nat) :
    Except Fault (PolyState × List Line) :=
  iters (polyIteration g R target) k ⟨fun _ => 0, fun _ => 0, ∅⟩

theorem polyRun_succ (g : Globals) (R : Resolution) (target : Int32) (k : Nat) :
    polyRun g R target (k + 1)
      = polyRun g R target k >>= printed (polyIteration g R target) (k + 1) := iters_succ _ _ _

/-- `poly_policy(target)`: the lines it prints. -/
def polyPolicy (g : Globals) (R : Resolution) (target : Int32) : Except Fault (List Line) := do
  let r ← polyRun g R target g.n
  return r.2

/-- The dirty set `poly_policy(target)` has after iteration `k`. -/
def polyDirty (g : Globals) (R : Resolution) (target : Int32) (k : Nat) : Finset Nat :=
  dirtyOf PolyState.dirtySet (polyRun g R target k)

/-! ## A row joins: counts -/

/-- The sum of column `p` over rows `1..i`: how often page `p` was used. -/
def Globals.freq (g : Globals) : Nat → Nat → Nat
  | 0, _ => 0
  | i + 1, p => g.freq i p + if p < g.m then g.a (i + 1) p else 0

/-- The order in which iteration `i` of `poly_policy` keeps pages. -/
def polyBetter (g : Globals) (i p q : Nat) : Prop := ¬ compareFunc (g.freq i) p q

/-- The invariant between iterations. -/
structure PolyInv (g : Globals) (i : Nat) (s : PolyState) : Prop where
  value : s.value = g.freq i
  allTrue : s.dirtySet.AllTrue
  keys : s.dirtySet.keys ⊆ Finset.range g.m

theorem polyRow_spec (T : Trace) {i : Nat} (hi : i < T.n) {s : PolyState}
    (hs : PolyInv T.toGlobals i s) :
    ∃ s', forLoop (polyTouch T.toGlobals (i + 1)) 0 T.m s = .ok s' ∧
      PolyInv T.toGlobals (i + 1) s' ∧ s'.dirtySet.keys = s.dirtySet.keys ∪ T.row (i + 1) := by
  obtain ⟨s', hrun, hval, htrue, hkeys⟩ := forLoop_inv (polyTouch T.toGlobals (i + 1))
    (fun idx s' =>
      (∀ p, s'.value p = T.freq i p + if p < idx then T.a (i + 1) p else 0) ∧
      s'.dirtySet.AllTrue ∧ s'.dirtySet.keys = s.dirtySet.keys ∪ T.rowTo (i + 1) idx) T.m 0 s
    (fun idx s' _ hidx hP => by
      obtain ⟨hval, htrue, hkeys⟩ := hP
      have hidx' : idx < T.m := by omega
      rw [polyTouch, T.read_eq (by omega) hidx']
      refine ⟨_, rfl, fun p => ?_, ?_, ?_⟩
      · show Function.update s'.value idx (s'.value idx * 1 + T.a (i + 1) idx) p = _
        by_cases hp : p = idx
        · subst hp
          rw [Function.update_self, hval p, if_neg (Nat.lt_irrefl p), if_pos (Nat.lt_succ_self p)]
          omega
        · rw [Function.update_of_ne hp, hval p]
          by_cases hlt : p < idx
          · rw [if_pos hlt, if_pos (by omega)]
          · rw [if_neg hlt, if_neg (by omega)]
      · show DirtySet.AllTrue (if T.a (i + 1) idx = 1 then _ else _)
        split
        · exact htrue.mark idx
        · exact htrue
      · show (if T.a (i + 1) idx = 1 then DirtySet.mark idx s'.dirtySet
          else s'.dirtySet).keys = _
        by_cases h1 : T.a (i + 1) idx = 1
        · rw [if_pos h1, DirtySet.keys_mark, hkeys, Globals.rowTo_succ_of_one h1,
            Finset.union_insert]
        · rw [if_neg h1, hkeys, Globals.rowTo_succ_of_ne h1])
    ⟨fun p => by rw [if_neg (Nat.not_lt_zero p), hs.value]; rfl, hs.allTrue,
      by simp [Globals.rowTo]⟩
  rw [Nat.zero_add] at hval hkeys
  refine ⟨s', hrun, ⟨funext fun p => hval p, htrue, ?_⟩, hkeys⟩
  rw [hkeys]
  exact Finset.union_subset hs.keys fun p hp => Finset.mem_range.mpr (Globals.mem_row.mp hp).1

/-! ## Filling and sorting `index_sort` -/

theorem checkPage_ok {idx : Nat} (h : idx < PAGE_NUM) : checkPage idx = .ok () := by
  rw [checkPage, if_pos h]

/-- The copy loop stores the keys in iteration order from position `sz` on. -/
theorem fillIndex_spec {D : DirtySet} (hD : D.AllTrue) : ∀ (order : List Nat) (sz : Nat)
    (indexSort : Nat → Nat), (∀ p ∈ order, p ∈ D.keys) → sz + order.length ≤ PAGE_NUM →
    ∃ filled, fillIndex D order sz indexSort = .ok filled ∧
      (∀ j, j < sz → filled j = indexSort j) ∧
      (List.range order.length).map (fun k => filled (sz + k)) = order := by
  intro order
  induction order with
  | nil => intro sz indexSort _ _; exact ⟨indexSort, rfl, fun _ _ => rfl, rfl⟩
  | cons key rest ih =>
    intro sz indexSort hmem hsz
    rw [List.length_cons] at hsz
    obtain ⟨filled, hok, hlow, hhigh⟩ := ih (sz + 1) (Function.update indexSort sz key)
      (fun p hp => hmem p (List.mem_cons_of_mem _ hp)) (by omega)
    refine ⟨filled, ?_, fun j hj => ?_, ?_⟩
    · rw [fillIndex, hD.assertDirty (hmem key List.mem_cons_self), checkPage_ok (by omega)]
      exact hok
    · rw [hlow j (by omega), Function.update_of_ne (by omega)]
    · rw [List.length_cons, List.range_succ_eq_map, List.map_cons, List.map_map]
      congr 1
      · show filled (sz + 0) = key
        rw [Nat.add_zero, hlow sz (by omega), Function.update_self]
      · refine Eq.trans (List.map_congr_left fun k _ => ?_) hhigh
        show filled (sz + (k + 1)) = filled (sz + 1 + k)
        congr 1; omega

theorem forM_checkPage {l : List Nat} (h : ∀ x ∈ l, x < PAGE_NUM) :
    l.forM checkPage = .ok () := by
  induction l with
  | nil => rfl
  | cons x l ih =>
    show (checkPage x >>= fun _ => l.forM checkPage) = _
    rw [checkPage_ok (h x List.mem_cons_self)]
    exact ih fun y hy => h y (List.mem_cons_of_mem _ hy)

/-- The dirty pages as `index_sort` holds them after the sort. -/
def sortedPages (R : Resolution) (iter : Nat) (value : Nat → Nat) (D : DirtySet) : List Nat :=
  R.sort iter value (R.iterOrder iter D)

section Sorted

variable (R : Resolution) (iter : Nat) (value : Nat → Nat) (D : DirtySet)

theorem sortedPages_nodup : (sortedPages R iter value D).Nodup :=
  (R.sort_perm iter value _).nodup_iff.mpr (R.iterOrder_nodup iter D)

theorem sortedPages_toFinset : (sortedPages R iter value D).toFinset = D.keys := by
  rw [sortedPages, List.toFinset_eq_of_perm _ _ (R.sort_perm iter value _)]
  ext p
  rw [List.mem_toFinset, R.mem_iterOrder]

theorem sortedPages_length : (sortedPages R iter value D).length = D.size := by
  rw [DirtySet.size, ← sortedPages_toFinset R iter value D,
    List.toFinset_card_of_nodup (sortedPages_nodup R iter value D)]

end Sorted

/-- Fill and sort together: `index_sort` starts with a sorted permutation of the dirty pages. -/
theorem index_spec (R : Resolution) (iter : Nat) (value indexSort : Nat → Nat) {D : DirtySet}
    (hD : D.AllTrue) (hkeys : D.keys ⊆ Finset.range PAGE_NUM) :
    ∃ filled : Nat → Nat,
      fillIndex D (R.iterOrder iter D) 0 indexSort = .ok filled ∧
      sortIndex R iter value (R.iterOrder iter D).length filled
        = .ok (fun j => ((sortedPages R iter value D)[j]?).getD (filled j)) := by
  have hmem : ∀ p ∈ R.iterOrder iter D, p ∈ D.keys := fun p hp => (R.mem_iterOrder iter D p).mp hp
  have hlen : (R.iterOrder iter D).length ≤ PAGE_NUM := by
    rw [← (R.sort_perm iter value _).length_eq, ← sortedPages, sortedPages_length]
    exact DirtySet.size_le hkeys
  obtain ⟨filled, hfill, -, hentries⟩ := fillIndex_spec hD (R.iterOrder iter D) 0 indexSort hmem
    (by omega)
  simp only [Nat.zero_add] at hentries
  refine ⟨filled, hfill, ?_⟩
  rw [sortIndex, hentries, forM_checkPage fun x hx => Finset.mem_range.mp (hkeys (hmem x hx))]
  rfl

/-! ## Eviction -/

/-- For a non-negative target the narrowed difference is the excess, clamped at 0: a difference
    that wraps around `2^64` comes back negative as an `int`. -/
theorem evictNum_eq {target : Int32} (ht : 0 ≤ target) {size : Nat} (hsize : size < 2 ^ 31) :
    evictNum target size = ((size - target.toNatClampNeg : Nat) : Int) := by
  have hC := target.toNatClampNeg_lt
  rw [evictNum, sizeT_of_nonneg ht]
  rcases Nat.lt_or_ge size target.toNatClampNeg with hlt | hge
  · have hneg : toInt (subSizeT size target.toNatClampNeg) < 0 := by
      unfold toInt subSizeT
      rw [Int.bmod_def]
      split <;> omega
    rw [if_pos hneg]
    omega
  · rw [subSizeT_of_le hge (by omega), toInt_of_lt (by omega), if_neg (by omega)]

/-- For a negative target the narrowed difference is size plus distance of the target from 0, more
    than there are pages, until it no longer fits an `int` and turns negative. -/
theorem evictNum_of_neg {target : Int32} (ht : target < 0) {size : Nat} (hsize : size < 2 ^ 31) :
    evictNum target size
      = if (size : Int) - target.toInt < 2 ^ 31 then (size : Int) - target.toInt else 0 := by
  have h0 : target.toInt < 0 := Int32.lt_iff_toInt_lt.mp ht
  have h1 := target.le_toInt
  have hsub : (subSizeT size (sizeT target) : Int) = size - target.toInt := by
    have := sizeT_of_neg ht
    rw [subSizeT]
    omega
  rw [evictNum]
  unfold toInt
  rw [hsub, Int.bmod_def]
  by_cases hlt : (size : Int) - target.toInt < 2 ^ 31
  · rw [if_pos hlt]
    split <;> split <;> omega
  · rw [if_neg hlt]
    split <;> split <;> omega

/-- Erasing a prefix of the sorted array. -/
theorem erasePrefix_spec {sorted : List Nat} (rest : Nat → Nat) {D : DirtySet} (hD : D.AllTrue)
    (hnd : sorted.Nodup) (hfin : sorted.toFinset = D.keys) {k : Nat} (hk : k ≤ sorted.length)
    (hpage : sorted.length ≤ PAGE_NUM) :
    ∃ D', forLoop (polyEvictOne fun j => (sorted[j]?).getD (rest j)) 0 k D = .ok D' ∧
      D'.AllTrue ∧ D'.keys = (sorted.drop k).toFinset := by
  obtain ⟨D', hrun, htrue, hkeys⟩ := forLoop_inv
    (polyEvictOne fun j => (sorted[j]?).getD (rest j))
    (fun i D' => D'.AllTrue ∧ D'.keys = (sorted.drop i).toFinset) k 0 D
    (fun i D' _ hi hP => by
      obtain ⟨htrue, hkeys⟩ := hP
      have hlt : i < sorted.length := by omega
      have hdrop : sorted.drop i = sorted[i] :: sorted.drop (i + 1) :=
        List.drop_eq_getElem_cons hlt
      have hmem : sorted[i] ∈ D'.keys := by
        rw [hkeys, hdrop, List.toFinset_cons]; exact Finset.mem_insert_self _ _
      have hout : sorted[i] ∉ (sorted.drop (i + 1)).toFinset := by
        have hd := hnd.sublist (List.drop_sublist i sorted)
        rw [hdrop, List.nodup_cons] at hd
        rw [List.mem_toFinset]; exact hd.1
      refine ⟨D'.erase sorted[i], ?_, htrue.erase _, ?_⟩
      · rw [polyEvictOne, checkPage_ok (by omega), List.getElem?_eq_getElem hlt, Option.getD_some,
          htrue.assertDirty hmem]
        rfl
      · rw [Finmap.keys_erase, hkeys, hdrop, List.toFinset_cons, Finset.erase_insert hout])
    ⟨hD, by rw [List.drop_zero, hfin]⟩
  rw [Nat.zero_add] at hkeys
  exact ⟨D', hrun, htrue, hkeys⟩

/-- **The eviction as the code has it**: the first `evict_num` of the sorted pages go, as long as
    there are that many. -/
theorem polyEvict_ok (R : Resolution) (target : Int32) (iter : Nat) {s : PolyState}
    (hD : s.dirtySet.AllTrue) (hpages : s.dirtySet.keys ⊆ Finset.range PAGE_NUM)
    (hnum : (evictNum target s.dirtySet.size).toNat ≤ s.dirtySet.size) :
    ∃ s', polyEvict R target iter s = .ok s' ∧ s'.value = s.value ∧ s'.dirtySet.AllTrue ∧
      s'.dirtySet.keys = ((sortedPages R iter s.value s.dirtySet).drop
        (evictNum target s.dirtySet.size).toNat).toFinset := by
  obtain ⟨filled, hfill, hsort⟩ := index_spec R iter s.value s.indexSort hD hpages
  have hcard : s.dirtySet.size ≤ PAGE_NUM := DirtySet.size_le hpages
  obtain ⟨D', hrun, htrue, hD'⟩ := erasePrefix_spec filled hD
    (sortedPages_nodup R iter s.value s.dirtySet) (sortedPages_toFinset R iter s.value s.dirtySet)
    (k := (evictNum target s.dirtySet.size).toNat) (by rw [sortedPages_length]; exact hnum)
    (by rw [sortedPages_length]; exact hcard)
  refine ⟨⟨s.value, fun j => ((sortedPages R iter s.value s.dirtySet)[j]?).getD (filled j), D'⟩,
    ?_, rfl, htrue, hD'⟩
  rw [polyEvict, hfill, ok_bind, hsort, ok_bind, hrun]
  rfl

/-- Asked to evict more pages than there are, the loop reads on in `index_sort` and stops the
    program. -/
theorem polyEvict_error (R : Resolution) (target : Int32) (iter : Nat) {s : PolyState}
    (hD : s.dirtySet.AllTrue) (hpages : s.dirtySet.keys ⊆ Finset.range PAGE_NUM)
    (hnum : s.dirtySet.size < (evictNum target s.dirtySet.size).toNat) :
    ∃ e, polyEvict R target iter s = .error e := by
  obtain ⟨filled, hfill, hsort⟩ := index_spec R iter s.value s.indexSort hD hpages
  have hlen := sortedPages_length R iter s.value s.dirtySet
  obtain ⟨D', hrun, -, hD'⟩ := erasePrefix_spec filled hD
    (sortedPages_nodup R iter s.value s.dirtySet) (sortedPages_toFinset R iter s.value s.dirtySet)
    (k := s.dirtySet.size) (by rw [hlen]) (by rw [hlen]; exact DirtySet.size_le hpages)
  -- nothing is dirty any more when the loop reaches the page after the last
  rw [List.drop_eq_nil_of_le (by rw [hlen])] at hD'
  have hstep : ∃ e, polyEvictOne (fun j => ((sortedPages R iter s.value s.dirtySet)[j]?).getD
      (filled j)) s.dirtySet.size D' = .error e := by
    have hempty : ∀ page, DirtySet.assertDirty page D' = .error .assertFailed := by
      intro page
      rw [DirtySet.assertDirty, if_neg]
      intro hlook
      have hmem := Finmap.mem_keys.mpr (Finmap.mem_of_lookup_eq_some hlook)
      rw [hD'] at hmem
      cases hmem
    rw [polyEvictOne, checkPage]
    split
    · exact ⟨_, by rw [ok_bind, hempty]; rfl⟩
    · exact ⟨_, rfl⟩
  obtain ⟨e, he⟩ := hstep
  refine ⟨e, ?_⟩
  obtain ⟨k, hk⟩ : ∃ k, (evictNum target s.dirtySet.size).toNat = s.dirtySet.size + (k + 1) :=
    ⟨(evictNum target s.dirtySet.size).toNat - s.dirtySet.size - 1, by omega⟩
  rw [polyEvict, hfill, ok_bind, hsort, ok_bind, hk, forLoop_add, hrun, ok_bind, forLoop,
    Nat.zero_add, he]
  rfl

/-- **The eviction**: whatever the resolution, the pages counted most often that fit remain. -/
theorem polyEvict_spec (R : Resolution) {target : Int32} (ht : 0 ≤ target) (iter : Nat)
    {s : PolyState} (hD : s.dirtySet.AllTrue) (hpages : s.dirtySet.keys ⊆ Finset.range PAGE_NUM) :
    ∃ s', polyEvict R target iter s = .ok s' ∧ s'.value = s.value ∧ s'.dirtySet.AllTrue ∧
      s'.dirtySet.keys = ((sortedPages R iter s.value s.dirtySet).drop
        (s.dirtySet.size - sizeT target)).toFinset ∧
      Paging.Keeps (fun p q => ¬ compareFunc s.value p q) (sizeT target) s.dirtySet.keys
        s'.dirtySet.keys ∧
      evictNum target s.dirtySet.size
        = ((s.dirtySet.keys.card - s'.dirtySet.keys.card : Nat) : Int) := by
  have hcard : s.dirtySet.size ≤ PAGE_NUM := DirtySet.size_le hpages
  have hev : evictNum target s.dirtySet.size = ((s.dirtySet.size - sizeT target : Nat) : Int) := by
    rw [sizeT_of_nonneg ht]
    exact evictNum_eq ht (Nat.lt_of_le_of_lt hcard (by decide))
  obtain ⟨s', hrun, hval, htrue, hkeys⟩ := polyEvict_ok R target iter hD hpages
    (by rw [hev, Int.toNat_natCast]; omega)
  rw [hev, Int.toNat_natCast] at hkeys
  have hlen := sortedPages_length R iter s.value s.dirtySet
  have hnd := sortedPages_nodup R iter s.value s.dirtySet
  have hfin := sortedPages_toFinset R iter s.value s.dirtySet
  have hcard' : s'.dirtySet.keys.card = min (sizeT target) s.dirtySet.keys.card := by
    rw [hkeys, List.toFinset_card_of_nodup (hnd.sublist (List.drop_sublist _ _)),
      List.length_drop, hlen]
    show s.dirtySet.size - (s.dirtySet.size - sizeT target) = min (sizeT target) s.dirtySet.size
    omega
  refine ⟨s', hrun, hval, htrue, hkeys, ⟨?_, hcard', ?_⟩, ?_⟩
  · rw [hkeys, ← hfin]
    intro p hp
    exact List.mem_toFinset.mpr (List.mem_of_mem_drop (List.mem_toFinset.mp hp))
  · -- an erased page stands in front of every page left
    intro p hp q hq hqs
    rw [hkeys, List.mem_toFinset] at hp hqs
    rw [← hfin, List.mem_toFinset] at hq
    exact rel_of_mem_drop (R.sort_sorted iter s.value _) hp hq hqs
  · rw [hev, hcard']
    show ((s.dirtySet.size - sizeT target : Nat) : Int)
      = ((s.dirtySet.size - min (sizeT target) s.dirtySet.size : Nat) : Int)
    omega

/-! ## The whole run -/

/-- **One iteration**: the row joins, the pages counted most often stay, the sizes are printed. -/
theorem polyIteration_spec (T : Trace) (R : Resolution) {target : Int32} (ht : 0 ≤ target)
    {i : Nat} (hi : i < T.n) {s : PolyState} (hs : PolyInv T.toGlobals i s) :
    ∃ s', PolyInv T.toGlobals (i + 1) s' ∧
      Paging.Keeps (polyBetter T.toGlobals (i + 1)) (sizeT target)
        (s.dirtySet.keys ∪ T.row (i + 1)) s'.dirtySet.keys ∧
      polyIteration T.toGlobals R target (i + 1) s = .ok (s', ⟨i + 1, s'.dirtySet.keys.card,
        (((s.dirtySet.keys ∪ T.row (i + 1)).card - s'.dirtySet.keys.card : Nat) : Int),
        ((s.dirtySet.keys ∪ T.row (i + 1)).card : Int)⟩) := by
  obtain ⟨s₁, hrow, hinv, hkeys⟩ := polyRow_spec T hi hs
  have hpages := T.pages hinv.keys
  obtain ⟨s₂, hevict, hval, htrue, -, hk, hev⟩ := polyEvict_spec R ht (i + 1) hinv.allTrue hpages
  have hcard : s₁.dirtySet.keys.card < 2 ^ 31 :=
    Nat.lt_of_le_of_lt (Trace.card_le hinv.keys) (by decide)
  refine ⟨s₂, ⟨hval.trans hinv.value, htrue, hk.sub.trans hinv.keys⟩, ?_, ?_⟩
  · rw [hinv.value, hkeys] at hk
    exact hk
  · rw [polyIteration, hrow, ok_bind, hevict, ok_bind, hev, DirtySet.size, DirtySet.size,
      toInt_of_lt hcard, hkeys]
    rfl

/-- **Refinement.**  For a non-negative target and every resolution, `poly_policy` never faults;
    its dirty sets are a ranked run that keeps the pages counted most often, and it prints that
    run's sizes. -/
theorem poly_refines (T : Trace) (R : Resolution) {target : Int32} (ht : 0 ≤ target) :
    Paging.Run T.n (polyBetter T.toGlobals) T.row (sizeT target)
      (polyDirty T.toGlobals R target) ∧
    ∀ k, k ≤ T.n → ∃ s, PolyInv T.toGlobals k s ∧
      s.dirtySet.keys = polyDirty T.toGlobals R target k ∧
      polyRun T.toGlobals R target k =
        .ok (s, (List.range k).map (report T.row (polyDirty T.toGlobals R target))) :=
  iters_refines (PolyInv T.toGlobals) ⟨rfl, DirtySet.allTrue_empty, by simp⟩ rfl
    (fun _ _ hi hs => polyIteration_spec T R ht hi hs)

theorem polyPolicy_eq (T : Trace) (R : Resolution) {target : Int32} (ht : 0 ≤ target) :
    polyPolicy T.toGlobals R target =
      .ok ((List.range T.n).map (report T.row (polyDirty T.toGlobals R target))) := by
  obtain ⟨s, -, -, hrun⟩ := (poly_refines T R ht).2 T.n (Nat.le_refl _)
  rw [polyPolicy, hrun]; rfl

end QemuStudy.Policy
