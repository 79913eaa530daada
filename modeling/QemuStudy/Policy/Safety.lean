/-
  What can go wrong inside the three policies, and on which inputs it does.

  1. `lru_containers_in_step` — after EACH page of a row and after EACH pass of the eviction loop
     the list, the node map and the dirty set of `lru_policy` describe the same pages (`InStep`),
     so `back()` of an empty list, a dangling iterator and the failing assert are all impossible;
  2. `stays_inside_iff` — nothing checks the number and the width of the bitmap lines against the
     static arrays, so every access is inside exactly if the log happens to be small enough;
  3. `targets_handled_iff` — `dirty_set.size() > dirty_target` compares as unsigned and never holds
     for a negative target, while `dirty_set.size() - dirty_target` narrowed to `int` exceeds the
     size, so negative targets keep everything in LRU and MIN and stop LFU.
-/
import QemuStudy.Policy.Compare
import QemuStudy.Policy.ParseInput
import Mathlib.Data.Prod.Lex

namespace QemuStudy.Policy

open QemuStudy

/-! ## The containers of LRU, between any two steps -/

/-- The three containers agree: `lru_list` has no duplicates, its elements are the keys of
    `dirty_set` and of `page_map`, each page is mapped to its own node, and the list is strictly
    decreasing in (last access row, page index). -/
structure InStep (last : Nat → Nat) (s : LruState) : Prop where
  nodup : s.lruList.toList.Nodup
  dirty : s.lruList.toList.toFinset = s.dirtySet.keys
  mapped : s.lruList.toList.toFinset = s.pageMap.keys
  ownNode : ∀ p ∈ s.lruList.toList, ∃ it, s.pageMap.lookup p = some it ∧ s.lruList.At it p
  recency : s.lruList.toList.Pairwise fun p q => toLex (last q, q) < toLex (last p, p)

theorem LruRep.inStep {m : Nat} {last : Nat → Nat} {s : LruState} (h : LruRep m last s) :
    InStep last s where
  nodup := h.nodup
  dirty := h.keys.symm
  mapped := by rw [h.mapKeys, h.keys]
  ownNode := by
    intro p hp
    have hmem : p ∈ s.pageMap := by
      rw [← Finmap.mem_keys, h.mapKeys, h.mem_iff]
      exact hp
    obtain ⟨it, hit⟩ := Finmap.mem_iff.mp hmem
    exact ⟨it, hit, h.mapAt p it hit⟩
  recency := h.sorted.imp fun hpq => Prod.Lex.toLex_lt_toLex.mpr hpq

/-- The containers and `count` after `j` passes of the eviction loop (or at its end, if that comes
    first). -/
def lruPasses (target : Int32) (j : Nat) (s : LruState) : Except Fault (LruState × Int) :=
  whileSteps (fun st => decide (sizeT target < st.1.dirtySet.size)) lruEvictOne j (s, 0)

theorem lruPasses_spec {m : Nat} {last : Nat → Nat} {s : LruState} (target : Int32)
    (h : LruRep m last s) (j : Nat) :
    ∃ st, lruPasses target j s = .ok st ∧ LruRep m last st.1 := by
  refine whileSteps_inv (P := fun st : LruState × Int => LruRep m last st.1)
    (fun st hst hc => ?_) j (s, 0) h
  have hlt := of_decide_eq_true hc
  obtain ⟨x, s', hok, hrep, -⟩ := lruEvictOne_spec hst st.2 (by omega)
  exact ⟨_, hok, hrep⟩

/-- **Representation invariant of LRU.**  In every iteration, after each page of the row and after
    each pass of the eviction loop, the three containers agree; after column `idx` they hold the
    pages from before and those of the row up to there.  The loop is its passes, and the whole run
    ends without a fault. -/
theorem lru_containers_in_step (T : Trace) (target : Int32) {i : Nat} (hi : i < T.n) :
    ∃ s out, lruRun T.toGlobals target i = .ok (s, out) ∧
      (∀ idx, idx ≤ T.m → ∃ s', forLoop (lruTouch T.toGlobals (i + 1)) 0 idx s = .ok s' ∧
        InStep (T.lastTo i idx) s' ∧
        s'.dirtySet.keys = s.dirtySet.keys ∪ T.rowTo (i + 1) idx) ∧
      (∃ s₁, forLoop (lruTouch T.toGlobals (i + 1)) 0 T.m s = .ok s₁ ∧
        (∀ j, ∃ st, lruPasses target j s₁ = .ok st ∧ InStep (T.lastUse (i + 1)) st.1) ∧
        lruEvict target s₁ = lruPasses target s₁.dirtySet.size s₁) ∧
      ∃ lines, lruPolicy T.toGlobals target = .ok lines := by
  obtain ⟨s, hrep, -, hs⟩ := (lru_refines T target).2 i (by omega)
  obtain ⟨s₁, hrow, hrep₁, -⟩ := lruRow_spec T hi hrep
  obtain ⟨s₂, hev, -, -⟩ := lruEvict_spec target hrep₁
  refine ⟨s, _, hs, fun idx hidx => ?_, ⟨s₁, hrow, fun j => ?_, ?_⟩, _, lruPolicy_eq T target⟩
  · obtain ⟨s', hrun, hrep', hkeys⟩ := lruColumns_spec T hi hrep hidx
    exact ⟨s', hrun, hrep'.inStep, hkeys⟩
  · obtain ⟨st, hrun, hrep'⟩ := lruPasses_spec target hrep₁ j
    exact ⟨st, hrun, hrep'.inStep⟩
  · rw [hev]
    exact (whileSteps_of_whileLoop _ hev).symm

/-- In iteration 2 of the sample, with target 1. -/
theorem lru_containers_in_step_sample : 1 < sampleTrace.n ∧
    ∃ s out, lruRun sampleTrace.toGlobals 1 1 = .ok (s, out) ∧
      ∀ idx, idx ≤ 3 → ∃ s', forLoop (lruTouch sampleTrace.toGlobals 2) 0 idx s = .ok s' ∧
        InStep (sampleTrace.lastTo 1 idx) s' ∧
        s'.dirtySet.keys = s.dirtySet.keys ∪ sampleTrace.rowTo 2 idx := by
  have hi : 1 < sampleTrace.n := by decide
  obtain ⟨s, out, hs, hrow, -⟩ := lru_containers_in_step sampleTrace 1 hi
  exact ⟨hi, s, out, hs, hrow⟩

/-! ## The static arrays -/

/-- No access of `parse_input` to `a`, and none of the three policies to `a`, `value` and
    `index_sort`, is outside the static arrays. -/
def StaysInside (file : List UInt8) (R : Resolution) (target : Int32) : Prop :=
  parseInput (some file) ≠ .error .outOfRange ∧
  ∀ g, parseInput (some file) = .ok g →
    polyPolicy g R target ≠ .error .outOfRange ∧ lruPolicy g target ≠ .error .outOfRange ∧
      minPolicy g target ≠ .error .outOfRange

/-- **Index safety.**  On a log that does not fail the assert of `parse_input`, every access is
    inside the arrays exactly if the log has fewer than `MAX_ITER` bitmap lines of at most
    `PAGE_NUM` digits: the policies are safe on whatever was stored, the store itself is not. -/
theorem stays_inside_iff (file : List UInt8) (R : Resolution) (target : Int32) (ht : 0 ≤ target)
    (hassert : parseInput (some file) ≠ .error .assertFailed) :
    StaysInside file R target ↔
      (bitmaps file).length < MAX_ITER ∧ width (bitmaps file) ≤ PAGE_NUM := by
  constructor
  · rintro ⟨hparse, -⟩
    cases h : parseInput (some file) with
    | error e =>
      rcases parseInput_error h with ⟨rfl, -⟩ | ⟨rfl, -⟩
      · exact absurd h hassert
      · exact absurd h hparse
    | ok g =>
      have hfit := ((parseInput_eq_ok_iff file g).mp h).1
      exact ⟨hfit.n_lt, hfit.m_le⟩
  · intro hbound
    refine ⟨fun h => ?_, fun g hg => ?_⟩
    · rcases parseInput_error h with ⟨he, -⟩ | ⟨-, hno⟩
      · cases he
      · exact hno hbound
    · obtain ⟨T, rfl⟩ := parseInput_trace hg
      rw [polyPolicy_eq T R ht, lruPolicy_eq, minPolicy_eq]
      exact ⟨nofun, nofun, nofun⟩

/-- A log of the bitmap lines `011` and `100`, each with CR LF. -/
def twoRows : List UInt8 := [48, 49, 49, 13, 10, 49, 48, 48, 13, 10]

/-- Its accesses are inside. -/
theorem stays_inside_iff_sample :
    bitmaps twoRows = [[0, 1, 1], [1, 0, 0]] ∧ StaysInside twoRows Resolution.ascending 1 := by
  have hrows : bitmaps twoRows = [[0, 1, 1], [1, 0, 0]] := by decide +kernel
  have hok : (parseInput (some twoRows)).isOk = true := by decide +kernel
  refine ⟨hrows, (stays_inside_iff twoRows Resolution.ascending 1 (by decide) fun h => ?_).mpr ?_⟩
  · rw [h] at hok
    cases hok
  · rw [hrows]
    decide

/-- A log of 1000 bitmap lines of one page each: the last row is written behind the array. -/
theorem thousand_rows_overflow :
    parseInput (some ((List.replicate 1000 [48, 13]).flatMap fun l => l ++ [LF]))
      = .error .outOfRange := by
  have hrows : bitmaps ((List.replicate 1000 [48, 13]).flatMap fun l => l ++ [LF])
      = List.replicate 1000 [0] := by
    rw [bitmaps_terminated fun l hl => by rw [List.eq_of_mem_replicate hl]; decide,
      List.filterMap_replicate_of_some (by decide : bitmap [48, 13] = some [0])]
  cases h : parseInput (some ((List.replicate 1000 [48, 13]).flatMap fun l => l ++ [LF])) with
  | ok g =>
    have hfit := ((parseInput_eq_ok_iff _ g).mp h).1.n_lt
    rw [hrows, List.length_replicate] at hfit
    exact absurd hfit (by decide)
  | error e =>
    rcases parseInput_error h with ⟨-, hno⟩ | ⟨rfl, -⟩
    · refine absurd (fun r hr => ?_) hno
      rw [hrows] at hr ⊢
      rw [List.eq_of_mem_replicate hr]
      rfl
    · rfl

/-! ## Targets -/

/-- After each of the iterations `1..n` the run has not faulted and holds at most `max 0 target`
    pages. -/
def Copes {σ : Type} (n : Nat) (target : Int32) (dirty : σ → DirtySet)
    (run : Nat → Except Fault (σ × List Line)) : Prop :=
  ∀ i, i ≤ n → ∃ s out, run i = .ok (s, out) ∧ ((dirty s).size : Int) ≤ max 0 target.toInt

theorem seen_eq_empty_iff {row : Nat → Finset Nat} {n : Nat} :
    Paging.seen row n = ∅ ↔ ∀ i, 1 ≤ i → i ≤ n → row i = ∅ := by
  constructor
  · intro h i h1 hi
    have hsub := Paging.row_subset_seen row (show i - 1 < n by omega)
    rw [h, show i - 1 + 1 = i by omega] at hsub
    exact Finset.subset_empty.mp hsub
  · intro h
    refine Finset.subset_empty.mp (Finset.biUnion_subset.mpr fun j hj => ?_)
    have := Finset.mem_range.mp hj
    rw [h (j + 1) (by omega) (by omega)]

/-- A ranked run whose capacity is the target copes if the target is not negative, or if there is
    nothing to hold. -/
theorem copes_of_run {σ : Type} {n : Nat} {target : Int32} {dirty : σ → DirtySet}
    {run : Nat → Except Fault (σ × List Line)} {better : Nat → Nat → Nat → Prop}
    {row D : Nat → Finset Nat} (hrun : Paging.Run n better row (sizeT target) D)
    {Inv : Nat → σ → Prop} {out : Nat → List Line}
    (hstates : ∀ i, i ≤ n → ∃ s, Inv i s ∧ (dirty s).keys = D i ∧ run i = .ok (s, out i))
    (hcap : 0 ≤ target ∨ ∀ i, 1 ≤ i → i ≤ n → row i = ∅) : Copes n target dirty run := by
  intro i hi
  obtain ⟨s, -, hkeys, hs⟩ := hstates i hi
  obtain ⟨hsub, hcard⟩ := hrun.occupancy i hi
  refine ⟨s, out i, hs, ?_⟩
  rw [DirtySet.size, hkeys]
  rcases hcap with ht | hempty
  · have h0 : 0 ≤ target.toInt := Int32.le_iff_toInt_le.mp ht
    have h1 : sizeT target = target.toInt.toNat := sizeT_of_nonneg ht
    omega
  · have hseen : Paging.seen row i = ∅ :=
      seen_eq_empty_iff.mpr fun j h1 hj => hempty j h1 (by omega)
    rw [hseen, Finset.card_empty] at hcard
    omega

/-- On blank rows `poly_policy` copes with a target that makes it evict nothing. -/
theorem poly_copes_blank (T : Trace) (R : Resolution) {target : Int32}
    (hempty : ∀ i, 1 ≤ i → i ≤ T.n → T.row i = ∅) (hnum : evictNum target 0 = 0) :
    Copes T.n target PolyState.dirtySet (polyRun T.toGlobals R target) := by
  have hblank : ∀ i, i ≤ T.n → ∃ s out, polyRun T.toGlobals R target i = .ok (s, out) ∧
      PolyInv T.toGlobals i s ∧ s.dirtySet.size = 0 := by
    intro i
    induction i with
    | zero => intro _; exact ⟨_, _, rfl, ⟨rfl, DirtySet.allTrue_empty, by simp⟩, rfl⟩
    | succ i ih =>
      intro hi
      obtain ⟨s, out, hs, hinv, hsize⟩ := ih (by omega)
      obtain ⟨s₁, hrow, hinv₁, hkeys⟩ := polyRow_spec T (by omega) hinv
      have hsize₁ : s₁.dirtySet.size = 0 := by
        rw [DirtySet.size, hkeys, hempty (i + 1) (by omega) hi, Finset.union_empty]
        exact hsize
      obtain ⟨s₂, hev, hval, htrue, hkeys₂⟩ := polyEvict_ok R target (i + 1) hinv₁.allTrue
        (T.pages hinv₁.keys) (by rw [hsize₁, hnum]; exact Nat.le_refl _)
      rw [hsize₁, hnum, Int.toNat_zero, List.drop_zero, sortedPages_toFinset] at hkeys₂
      obtain ⟨line, hit⟩ : ∃ line, polyIteration T.toGlobals R target (i + 1) s = .ok (s₂, line) :=
        ⟨_, by rw [polyIteration, hrow, ok_bind, hev, ok_bind]; rfl⟩
      refine ⟨s₂, out ++ [line], ?_, ⟨hval.trans hinv₁.value, htrue, hkeys₂ ▸ hinv₁.keys⟩, ?_⟩
      · rw [polyRun_succ, hs]
        exact printed_ok hit out
      · rw [DirtySet.size, hkeys₂]
        exact hsize₁
  intro i hi
  obtain ⟨s, out, hs, -, hsize⟩ := hblank i hi
  exact ⟨s, out, hs, by omega⟩

/-- With a negative target nothing is ever evicted by comparing sizes, so a run that copes has seen
    no page. -/
theorem blank_of_copes_neg {σ : Type} (T : Trace) {target : Int32} (ht : target < 0)
    {dirty : σ → DirtySet} {run : Nat → Except Fault (σ × List Line)}
    {better : Nat → Nat → Nat → Prop} {D : Nat → Finset Nat}
    (hrun : Paging.Run T.n better T.row (sizeT target) D)
    {Inv : Nat → σ → Prop} {out : Nat → List Line}
    (hstates : ∀ i, i ≤ T.n → ∃ s, Inv i s ∧ (dirty s).keys = D i ∧ run i = .ok (s, out i))
    (hcopes : Copes T.n target dirty run) : ∀ i, 1 ≤ i → i ≤ T.n → T.row i = ∅ := by
  obtain ⟨s, out', hs, hle⟩ := hcopes T.n (Nat.le_refl _)
  obtain ⟨s', -, hkeys, hs'⟩ := hstates T.n (Nat.le_refl _)
  obtain rfl : s = s' := congrArg Prod.fst (Except.ok.inj (hs.symm.trans hs'))
  have hcard := (hrun.occupancy T.n (Nat.le_refl _)).2
  have hseen : (Paging.seen T.row T.n).card ≤ 16384 :=
    Trace.card_le (Paging.seen_subset T.row_subset T.n)
  have h0 : target.toInt < 0 := Int32.lt_iff_toInt_lt.mp ht
  have h1 := sizeT_of_neg ht
  have h2 := target.le_toInt
  rw [DirtySet.size, hkeys] at hle
  refine seen_eq_empty_iff.mp (Finset.card_eq_zero.mp ?_)
  omega

/-- With a negative target `poly_policy` evicts more pages than there are in its first iteration,
    unless their number no longer fits an `int`. -/
theorem polyRun_one_error (T : Trace) (R : Resolution) {target : Int32} (ht : target < 0)
    (hn : 1 ≤ T.n) (hfits : ((T.row 1).card : Int) - target.toInt < 2 ^ 31) :
    ∃ e, polyRun T.toGlobals R target 1 = .error e := by
  have hinv : PolyInv T.toGlobals 0 ⟨fun _ => 0, fun _ => 0, ∅⟩ :=
    ⟨rfl, DirtySet.allTrue_empty, by simp⟩
  obtain ⟨s₁, hrow, hinv₁, hkeys⟩ := polyRow_spec T hn hinv
  have hsize : s₁.dirtySet.size = (T.row 1).card := by
    rw [DirtySet.size, hkeys, Nat.zero_add]
    show (∅ ∪ T.row 1).card = _
    rw [Finset.empty_union]
  have h0 : target.toInt < 0 := Int32.lt_iff_toInt_lt.mp ht
  have hle : (T.row 1).card ≤ 16384 := Trace.card_le (T.row_subset 1)
  obtain ⟨e, he⟩ := polyEvict_error R target 1 hinv₁.allTrue (T.pages hinv₁.keys) (by
    rw [hsize, evictNum_of_neg ht (by omega), if_pos hfits]
    omega)
  refine ⟨e, ?_⟩
  rw [polyRun_succ]
  show printed (polyIteration T.toGlobals R target) 1 _ = _
  rw [printed, polyIteration, hrow, ok_bind, he]
  rfl

/-- **Which targets the policies handle.**  All three run to the end within `max 0 cache_size`
    pages exactly if the target is not negative, or nothing is ever dirty and either there is no
    iteration or the target is the one `int` whose negation wraps around. -/
theorem targets_handled_iff (T : Trace) (R : Resolution) (target : Int32) :
    (Copes T.n target PolyState.dirtySet (polyRun T.toGlobals R target) ∧
      Copes T.n target LruState.dirtySet (lruRun T.toGlobals target) ∧
      Copes T.n target MinState.dirtySet (minRun T.toGlobals target)) ↔
    0 ≤ target ∨ ((∀ i, 1 ≤ i → i ≤ T.n → T.row i = ∅) ∧
      (T.n = 0 ∨ target = Int32.minValue)) := by
  have hlru := lru_refines T target
  have hmin := min_refines T target
  constructor
  · rintro ⟨hpoly, hcopes, -⟩
    by_cases ht : 0 ≤ target
    · exact Or.inl ht
    have hneg : target < 0 := Int32.not_le.mp ht
    have hempty := blank_of_copes_neg T hneg hlru.1 hlru.2 hcopes
    refine Or.inr ⟨hempty, ?_⟩
    by_contra hno
    rw [not_or] at hno
    have hne : target.toInt ≠ -2 ^ 31 := fun h => hno.2 (Int32.toInt_inj.mp h)
    have hle := target.le_toInt
    obtain ⟨e, he⟩ := polyRun_one_error T R hneg (by omega) (by
      rw [hempty 1 (by omega) (by omega), Finset.card_empty]
      omega)
    obtain ⟨s, out, hs, -⟩ := hpoly 1 (by omega)
    rw [he] at hs
    cases hs
  · intro h
    have hcap : 0 ≤ target ∨ ∀ i, 1 ≤ i → i ≤ T.n → T.row i = ∅ := h.imp_right And.left
    refine ⟨?_, copes_of_run hlru.1 hlru.2 hcap, copes_of_run hmin.1 hmin.2 hcap⟩
    rcases h with ht | ⟨hempty, hn | rfl⟩
    · have hpoly := poly_refines T R ht
      exact copes_of_run hpoly.1 hpoly.2 (Or.inl ht)
    · intro i hi
      obtain rfl : i = 0 := by omega
      exact ⟨_, _, rfl, by simp [DirtySet.size]⟩
    · exact poly_copes_blank T R hempty (by decide)

/-- With target -1 on the sample, LFU stops in its first iteration, LRU and MIN evict nothing. -/
theorem minus_one_not_handled :
    (∃ e, polyRun sampleTrace.toGlobals Resolution.ascending (-1) 1 = .error e) ∧
    (lruPolicy sampleTrace.toGlobals (-1)).map (·.map Line.dirtySet) = .ok [2, 3, 3] ∧
    (minPolicy sampleTrace.toGlobals (-1)).map (·.map Line.dirtySet) = .ok [2, 3, 3] := by
  refine ⟨polyRun_one_error sampleTrace _ (by decide) (by decide) (by decide), ?_, ?_⟩
  · decide +kernel
  · decide +kernel

end QemuStudy.Policy
