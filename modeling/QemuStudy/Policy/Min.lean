/-
  `min_policy`: evict the pages whose next use is farthest away.

  The program (lines 49–93 of `fmsync_policy/policy.cc`) first collects, per page, the ascending
  list of rows that use it (`fillNextUse`).  In each iteration the pages of the row are marked
  dirty and their own row is popped from the list (`minTouch`); then, while the dirty set is too
  large, it builds the vector of `(-next use, page)` of the dirty pages (1000000 when there is no
  further use), sorts it and erases from its front (`evictPass`).  The inner loop's bound
  `dirty_set.size() - dirty_target` SHRINKS while it erases, so one pass removes only half of the
  excess and the outer loop repeats with a re-sorted vector (`minEvict`).

  What is proved, bottom up:

  * `fillNextUse_spec`, `minRow_spec` — before iteration `i + 1` the list of page `p` is
    `uses i p`, the rows after `i` that use `p`; so the `assert(!next_use[idx].empty())` holds;
  * `evictPass_spec`, `minEvict_spec` — each erased page is worse than every page left, in an order
    that a pass does not change; however many passes it takes, a best-`C` part remains, no index
    leaves the vector and no assert fails;
  * `min_refines` — the whole run is a ranked run (`Paging.Run`) for the order `minBetter`, and
    `minBetter_farsighted` says that order never prefers a page used later.
-/
import QemuStudy.Policy.Trace
import Mathlib.Data.List.Sort

set_option linter.unusedVariables false

namespace QemuStudy.Policy

open QemuStudy

/-! ## The program -/

/-- The locals of `min_policy` that live across iterations. -/
structure MinState where
  nextUse : Nat → List Nat
  dirtySet : DirtySet

/-- `if (a[iter][idx] == 1) next_use[idx].push_back(iter);` -/
def pushUse (g : Globals) (iter idx : Nat) (nextUse : Nat → List Nat) :
    Except Fault (Nat → List Nat) := do
  if (← g.read iter idx) = 1 then
    return Function.update nextUse idx (nextUse idx ++ [iter])
  else return nextUse

/-- The first double loop (lines 53–59). -/
def fillNextUse (g : Globals) : Except Fault (Nat → List Nat) :=
  forLoop (fun iter => forLoop (pushUse g iter) 0 g.m) 1 g.n (fun _ => [])

/-- One column of the row (lines 63–67). -/
def minTouch (g : Globals) (iter idx : Nat) (s : MinState) : Except Fault MinState := do
  if (← g.read iter idx) = 1 then
    match s.nextUse idx with
    | [] => throw .assertFailed
    | _ :: rest =>
      return { nextUse := Function.update s.nextUse idx rest
               dirtySet := DirtySet.mark idx s.dirtySet }
  else return s

/-- `next_use[page].empty() ? 1000000 : next_use[page].front()`. -/
def nextKey (nextUse : Nat → List Nat) (page : Nat) : Int :=
  match nextUse page with
  | [] => 1000000
  | iter :: _ => iter

/-- `std::pair<int, int>` comparison, as `std::sort` uses it. -/
def pairLE (x y : Int × Nat) : Prop := x.1 < y.1 ∨ (x.1 = y.1 ∧ x.2 ≤ y.2)

instance : DecidableRel pairLE := fun x y =>
  inferInstanceAs (Decidable (x.1 < y.1 ∨ (x.1 = y.1 ∧ x.2 ≤ y.2)))

/-- The vector `v` of one pass, sorted (lines 75–81). -/
def sortedVictims (g : Globals) (nextUse : Nat → List Nat) (D : DirtySet) : List (Int × Nat) :=
  (((List.range g.m).filter (· ∈ D.keys)).map fun page =>
    (-nextKey nextUse page, page)).insertionSort pairLE

/-- The inner loop's variables: `i`, `dirty_set` and `count`. -/
structure Pass where
  i : Nat
  dirtySet : DirtySet
  count : Int

/-- The body of the inner loop (lines 84–88). -/
def evictOne (v : List (Int × Nat)) (st : Pass) : Except Fault Pass := do
  match v[st.i]? with
  | none => throw .outOfRange
  | some (_, minPage) =>
    DirtySet.assertDirty minPage st.dirtySet
    return ⟨st.i + 1, st.dirtySet.erase minPage, st.count + 1⟩

/-- The inner test `i < dirty_set.size() - dirty_target`, in `size_t`. -/
def passGuard (target : Int32) (st : Pass) : Bool :=
  st.i < subSizeT st.dirtySet.size (sizeT target)

/-- One round of the outer `while` (lines 75–89), on `dirty_set` and `count`. -/
def evictPass (g : Globals) (target : Int32) (nextUse : Nat → List Nat) (st : DirtySet × Int) :
    Except Fault (DirtySet × Int) := do
  let v := sortedVictims g nextUse st.1
  let r ← whileLoop .spin (passGuard target) (evictOne v) v.length ⟨0, st.1, st.2⟩
  return (r.dirtySet, r.count)

/-- `while (dirty_set.size() > dirty_target)` (lines 73–90). -/
def minEvict (g : Globals) (target : Int32) (nextUse : Nat → List Nat) (D : DirtySet) :
    Except Fault (DirtySet × Int) :=
  whileLoop .spin (fun st => decide (sizeT target < st.1.size)) (evictPass g target nextUse)
    D.size (D, 0)

/-- One iteration of the second loop (lines 62–91). -/
def minIteration (g : Globals) (target : Int32) (iter : Nat) (s : MinState) :
    Except Fault (MinState × Line) := do
  let s₁ ← forLoop (minTouch g iter) 0 g.m s
  let r ← minEvict g target s₁.nextUse s₁.dirtySet
  return (⟨s₁.nextUse, r.1⟩, ⟨iter, r.1.size, r.2, toInt s₁.dirtySet.size⟩)

/-- `min_policy(target)`, stopped after `k` iterations. -/
def minRun (g : Globals) (target : Int32) (k : Nat) : Except Fault (MinState × List Line) := do
  let nextUse ← fillNextUse g
  iters (minIteration g target) k ⟨nextUse, ∅⟩

/-- `min_policy(target)`: the lines it prints. -/
def minPolicy (g : Globals) (target : Int32) : Except Fault (List Line) := do
  let r ← minRun g target g.n
  return r.2

/-- The dirty set `min_policy(target)` has after iteration `k`. -/
def minDirty (g : Globals) (target : Int32) (k : Nat) : Finset Nat :=
  dirtyOf MinState.dirtySet (minRun g target k)

/-! ## The `next_use` lists -/

/-- The rows `i + 1, …, n` that use page `p`, ascending. -/
def Globals.uses (g : Globals) (i p : Nat) : List Nat :=
  (List.range' (i + 1) (g.n - i)).filter fun j => p ∈ g.row j

theorem Globals.mem_uses {g : Globals} {i p j : Nat} :
    j ∈ g.uses i p ↔ i < j ∧ j ≤ g.n ∧ p ∈ g.row j := by
  rw [Globals.uses, List.mem_filter, List.mem_range'_1, decide_eq_true_eq]
  constructor
  · rintro ⟨⟨h1, h2⟩, h3⟩; exact ⟨by omega, by omega, h3⟩
  · rintro ⟨h1, h2, h3⟩; exact ⟨⟨by omega, by omega⟩, h3⟩

theorem Globals.uses_of_mem {g : Globals} {i p : Nat} (hi : i < g.n) (hp : p ∈ g.row (i + 1)) :
    g.uses i p = (i + 1) :: g.uses (i + 1) p := by
  rw [Globals.uses, show g.n - i = (g.n - (i + 1)) + 1 by omega, List.range'_succ,
    List.filter_cons_of_pos (by simpa using hp)]
  rfl

theorem Globals.uses_of_notMem {g : Globals} {i p : Nat} (hi : i < g.n) (hp : p ∉ g.row (i + 1)) :
    g.uses i p = g.uses (i + 1) p := by
  rw [Globals.uses, show g.n - i = (g.n - (i + 1)) + 1 by omega, List.range'_succ,
    List.filter_cons_of_neg (by simpa using hp)]
  rfl

theorem Globals.uses_sorted (g : Globals) (i p : Nat) : (g.uses i p).Pairwise (· < ·) :=
  (List.pairwise_lt_range' ..).filter _

/-- Rows `1..k` that use `p`: what `fillNextUse` has pushed after row `k`. -/
def Globals.usesTo (g : Globals) (k p : Nat) : List Nat :=
  (List.range' 1 k).filter fun j => p ∈ g.row j

theorem Globals.usesTo_succ (g : Globals) (k p : Nat) :
    g.usesTo (k + 1) p = g.usesTo k p ++ (if p ∈ g.row (k + 1) then [k + 1] else []) := by
  rw [Globals.usesTo, List.range'_1_concat, List.filter_append, Nat.add_comm 1 k]
  by_cases hp : p ∈ g.row (k + 1)
  · rw [List.filter_cons_of_pos (by simpa using hp), if_pos hp]; rfl
  · rw [List.filter_cons_of_neg (by simpa using hp), if_neg hp]; rfl

theorem pushUse_eq (T : Trace) {iter idx : Nat} (hi : iter ≤ T.n) (hj : idx < T.m)
    (nu : Nat → List Nat) :
    pushUse T.toGlobals iter idx nu = .ok (Function.update nu idx
      (nu idx ++ if idx ∈ T.row iter then [iter] else [])) := by
  rw [pushUse, T.read_eq hi hj]
  show (if T.a iter idx = 1 then _ else _) = _
  by_cases h1 : T.a iter idx = 1
  · rw [if_pos h1, if_pos (Globals.mem_row.mpr ⟨hj, h1⟩)]; rfl
  · rw [if_neg h1, if_neg (fun hm => h1 (Globals.mem_row.mp hm).2), List.append_nil,
      Function.update_eq_self]; rfl

theorem fillNextUse_spec (T : Trace) : fillNextUse T.toGlobals = .ok (T.uses 0) := by
  obtain ⟨nu, hrun, hnu⟩ := forLoop_inv (fun iter => forLoop (pushUse T.toGlobals iter) 0 T.m)
    (fun iter nu => ∀ p, nu p = T.usesTo (iter - 1) p) T.n 1 (fun _ => [])
    (fun iter nu h1 h2 hnu => by
      -- the columns left of `idx` already know about row `iter`
      obtain ⟨nu', hrun', hnu'⟩ := forLoop_inv (pushUse T.toGlobals iter)
        (fun idx nu => ∀ p, nu p = if p < idx then T.usesTo iter p else T.usesTo (iter - 1) p)
        T.m 0 nu
        (fun idx nu _ hidx hP => by
          refine ⟨_, pushUse_eq T (by omega) (by omega) nu, fun p => ?_⟩
          by_cases hp : p = idx
          · subst hp
            rw [Function.update_self, hP p, if_neg (Nat.lt_irrefl p), if_pos (Nat.lt_succ_self p)]
            have hs := T.usesTo_succ (iter - 1) p
            rw [show iter - 1 + 1 = iter by omega] at hs
            exact hs.symm
          · rw [Function.update_of_ne hp, hP p]
            by_cases hlt : p < idx
            · rw [if_pos hlt, if_pos (by omega)]
            · rw [if_neg hlt, if_neg (by omega)])
        (fun p => by rw [if_neg (by omega)]; exact hnu p)
      refine ⟨nu', hrun', fun p => ?_⟩
      rw [hnu' p, Nat.zero_add, Nat.add_sub_cancel]
      by_cases hp : p < T.m
      · rw [if_pos hp]
      · -- a page outside the trace occurs in no row
        rw [if_neg hp, show iter = (iter - 1) + 1 by omega, T.usesTo_succ, Nat.add_sub_cancel,
          if_neg (fun hm => hp (Globals.mem_row.mp hm).1), List.append_nil])
    (fun p => rfl)
  rw [fillNextUse, hrun]
  congr 1
  funext p
  rw [hnu p, Nat.add_sub_cancel_left]
  rfl

/-! ## A row joins -/

/-- The invariant between iterations: lists of future rows, true flags, pages of the trace. -/
structure MinInv (g : Globals) (i : Nat) (s : MinState) : Prop where
  nextUse : s.nextUse = g.uses i
  allTrue : s.dirtySet.AllTrue
  keys : s.dirtySet.keys ⊆ Finset.range g.m

theorem minRow_spec (T : Trace) {i : Nat} (hi : i < T.n) {s : MinState}
    (hs : MinInv T.toGlobals i s) :
    ∃ s', forLoop (minTouch T.toGlobals (i + 1)) 0 T.m s = .ok s' ∧ MinInv T.toGlobals (i + 1) s' ∧
      s'.dirtySet.keys = s.dirtySet.keys ∪ T.row (i + 1) := by
  obtain ⟨s', hrun, hnu, htrue, hkeys⟩ := forLoop_inv (minTouch T.toGlobals (i + 1))
    (fun idx s' => (∀ p, s'.nextUse p = if p < idx then T.uses (i + 1) p else T.uses i p) ∧
      s'.dirtySet.AllTrue ∧ s'.dirtySet.keys = s.dirtySet.keys ∪ T.rowTo (i + 1) idx) T.m 0 s
    (fun idx s' _ hidx hP => by
      obtain ⟨hnu, htrue, hkeys⟩ := hP
      have hidx' : idx < T.m := by omega
      rw [minTouch, T.read_eq (by omega) hidx']
      show ∃ s'', (if T.a (i + 1) idx = 1 then _ else _) = _ ∧ _
      by_cases h1 : T.a (i + 1) idx = 1
      · have huse : s'.nextUse idx = (i + 1) :: T.uses (i + 1) idx := by
          rw [hnu idx, if_neg (by omega), Globals.uses_of_mem hi (Globals.mem_row.mpr ⟨hidx', h1⟩)]
        rw [if_pos h1, huse]
        refine ⟨_, rfl, fun p => ?_, htrue.mark idx, ?_⟩
        · by_cases hp : p = idx
          · subst hp
            rw [if_pos (by omega)]; exact Function.update_self ..
          · show Function.update s'.nextUse idx _ p = _
            rw [Function.update_of_ne hp, hnu p]
            by_cases hlt : p < idx
            · rw [if_pos hlt, if_pos (by omega)]
            · rw [if_neg hlt, if_neg (by omega)]
        · rw [DirtySet.keys_mark, hkeys, Globals.rowTo_succ_of_one h1, Finset.union_insert]
      · rw [if_neg h1]
        refine ⟨s', rfl, fun p => ?_, htrue, ?_⟩
        · rw [hnu p]
          by_cases hp : p = idx
          · subst hp
            rw [if_neg (by omega), if_pos (by omega),
              Globals.uses_of_notMem hi (fun hm => h1 (Globals.mem_row.mp hm).2)]
          · by_cases hlt : p < idx
            · rw [if_pos hlt, if_pos (by omega)]
            · rw [if_neg hlt, if_neg (by omega)]
        · rw [hkeys, Globals.rowTo_succ_of_ne h1])
    ⟨fun p => by rw [if_neg (by omega), hs.nextUse], hs.allTrue, by simp [Globals.rowTo]⟩
  rw [Nat.zero_add] at hnu hkeys
  refine ⟨s', hrun, ⟨funext fun p => ?_, htrue, ?_⟩, hkeys⟩
  · rw [hnu p]
    by_cases hp : p < T.m
    · rw [if_pos hp]
    · rw [if_neg hp, Globals.uses_of_notMem hi (fun hm => hp (Globals.mem_row.mp hm).1)]
  · rw [hkeys]
    refine Finset.union_subset hs.keys fun p hp => ?_
    exact Finset.mem_range.mpr (Globals.mem_row.mp hp).1

/-! ## Eviction -/

/-- The order of one iteration: `p` is kept before `q` if it is used again earlier, or at the same
    time and has the larger index. -/
def keptBefore (nextUse : Nat → List Nat) (p q : Nat) : Prop :=
  nextKey nextUse p < nextKey nextUse q ∨ (nextKey nextUse p = nextKey nextUse q ∧ q < p)

theorem keptBefore_asymm (nextUse : Nat → List Nat) (p q : Nat) :
    keptBefore nextUse p q → ¬ keptBefore nextUse q p := by
  unfold keptBefore; omega

theorem pairLE_total : ∀ x y : Int × Nat, pairLE x y ∨ pairLE y x := by
  intro x y; unfold pairLE; omega

theorem pairLE_trans : ∀ x y z : Int × Nat, pairLE x y → pairLE y z → pairLE x z := by
  intro x y z; unfold pairLE; omega

section Evict

variable (g : Globals) (nextUse : Nat → List Nat) (D : DirtySet)

theorem sortedVictims_sorted : (sortedVictims g nextUse D).Pairwise pairLE := by
  have : Std.Total pairLE := ⟨pairLE_total⟩
  have : IsTrans (Int × Nat) pairLE := ⟨pairLE_trans⟩
  exact List.pairwise_insertionSort pairLE _

theorem sortedVictims_perm : (sortedVictims g nextUse D).Perm
    (((List.range g.m).filter (· ∈ D.keys)).map fun page => (-nextKey nextUse page, page)) :=
  List.perm_insertionSort _ _

/-- The pages of the vector are the dirty pages, each once. -/
theorem sortedVictims_pages (hD : D.keys ⊆ Finset.range g.m) :
    ((sortedVictims g nextUse D).map Prod.snd).Nodup ∧
      ((sortedVictims g nextUse D).map Prod.snd).toFinset = D.keys := by
  have hperm : ((sortedVictims g nextUse D).map Prod.snd).Perm _ :=
    (sortedVictims_perm g nextUse D).map Prod.snd
  rw [List.map_map, show (Prod.snd ∘ fun page => (-nextKey nextUse page, page)) = id from rfl,
    List.map_id] at hperm
  refine ⟨hperm.nodup_iff.mpr (List.nodup_range.filter _), ?_⟩
  rw [List.toFinset_eq_of_perm _ _ hperm]
  ext p
  simp only [List.mem_toFinset, List.mem_filter, List.mem_range, decide_eq_true_eq]
  exact ⟨fun h => h.2, fun h => ⟨Finset.mem_range.mp (hD h), h⟩⟩

variable {g nextUse D}

theorem sortedVictims_key {x : Int × Nat} (hx : x ∈ sortedVictims g nextUse D) :
    x.1 = -nextKey nextUse x.2 := by
  obtain ⟨page, -, rfl⟩ := List.mem_map.mp ((sortedVictims_perm g nextUse D).mem_iff.mp hx)
  rfl

/-- A page further back in the vector is kept before one further front. -/
theorem keptBefore_of_pairLE {x y : Int × Nat} (hx : x ∈ sortedVictims g nextUse D)
    (hy : y ∈ sortedVictims g nextUse D) (hne : y.2 ≠ x.2) (hle : pairLE x y) :
    keptBefore nextUse y.2 x.2 := by
  have h1 := sortedVictims_key hx
  have h2 := sortedVictims_key hy
  unfold pairLE at hle
  unfold keptBefore
  omega

/-- The inner loop's invariant: the first `i` pages of the vector are gone, at least `C` remain. -/
structure PassInv (v : List (Int × Nat)) (C : Nat) (count : Int) (st : Pass) : Prop where
  allTrue : st.dirtySet.AllTrue
  keys : st.dirtySet.keys = ((v.drop st.i).map Prod.snd).toFinset
  room : st.i + C ≤ v.length
  count : st.count = count + st.i

/-- The size the inner test sees. -/
theorem PassInv.size {v : List (Int × Nat)} {C : Nat} {count : Int} {st : Pass}
    (hnd : (v.map Prod.snd).Nodup) (h : PassInv v C count st) :
    st.dirtySet.size = v.length - st.i := by
  rw [DirtySet.size, h.keys, List.toFinset_card_of_nodup, List.length_map, List.length_drop]
  rw [List.map_drop]
  exact hnd.sublist (List.drop_sublist _ _)

/-- One step of the inner loop erases `v[i]`. -/
theorem evictOne_spec {v : List (Int × Nat)} {C : Nat} {count : Int} {st : Pass}
    (hnd : (v.map Prod.snd).Nodup) (h : PassInv v C count st) (hlt : st.i + C < v.length) :
    ∃ st', evictOne v st = .ok st' ∧ PassInv v C count st' ∧ st'.i = st.i + 1 := by
  have hi : st.i < v.length := by omega
  have hdrop : v.drop st.i = v[st.i] :: v.drop (st.i + 1) := List.drop_eq_getElem_cons hi
  have hmem : v[st.i].2 ∈ st.dirtySet.keys := by
    rw [h.keys, hdrop, List.map_cons, List.toFinset_cons]
    exact Finset.mem_insert_self _ _
  have hout : v[st.i].2 ∉ ((v.drop (st.i + 1)).map Prod.snd).toFinset := by
    have hd : ((v.drop st.i).map Prod.snd).Nodup := by
      rw [List.map_drop]; exact hnd.sublist (List.drop_sublist _ _)
    rw [hdrop, List.map_cons, List.nodup_cons] at hd
    rw [List.mem_toFinset]; exact hd.1
  rw [evictOne, List.getElem?_eq_getElem hi]
  show ∃ st', (DirtySet.assertDirty v[st.i].2 st.dirtySet >>= _) = _ ∧ _
  rw [h.allTrue.assertDirty hmem]
  refine ⟨_, rfl, ⟨h.allTrue.erase _, ?_, ?_, ?_⟩, rfl⟩
  · show (st.dirtySet.erase v[st.i].2).keys = ((v.drop (st.i + 1)).map Prod.snd).toFinset
    rw [Finmap.keys_erase, h.keys, hdrop, List.map_cons, List.toFinset_cons,
      Finset.erase_insert hout]
  · show st.i + 1 + C ≤ v.length
    omega
  · show st.count + 1 = count + ((st.i + 1 : Nat) : Int)
    rw [h.count]; omega

/-- **One pass.**  Started above the target it erases at least one page and never goes below the
    target; every erased page is worse than every page left. -/
theorem evictPass_spec {target : Int32} (count : Int) (hD : D.keys ⊆ Finset.range g.m)
    (htrue : D.AllTrue) (hm : g.m < 2 ^ 64) (hlt : sizeT target < D.size) :
    ∃ D', evictPass g target nextUse (D, count) = .ok (D', count + (D.size - D'.size : Nat)) ∧
      D'.AllTrue ∧ D'.keys ⊆ D.keys ∧ sizeT target ≤ D'.size ∧ D'.size < D.size ∧
      ∀ p ∈ D'.keys, ∀ q ∈ D.keys, q ∉ D'.keys → keptBefore nextUse p q := by
  obtain ⟨hnd, hpages⟩ := sortedVictims_pages g nextUse D hD
  have hlen : (sortedVictims g nextUse D).length = D.size := by
    rw [DirtySet.size, ← hpages, List.toFinset_card_of_nodup hnd, List.length_map]
  have hsize : D.size < 2 ^ 64 := by
    have hc := Finset.card_le_card hD
    rw [Finset.card_range] at hc
    exact Nat.lt_of_le_of_lt hc hm
  -- the inner test reads `i < (length - i) - C`
  have hguard : ∀ st, PassInv (sortedVictims g nextUse D) (sizeT target) count st →
      (passGuard target st = true ↔
        2 * st.i + sizeT target < (sortedVictims g nextUse D).length) := by
    intro st hst
    have hsz := hst.size hnd
    have hroom := hst.room
    rw [passGuard, decide_eq_true_eq, subSizeT_of_le (by omega) (by omega)]
    omega
  obtain ⟨st, hrun, hst, hexit⟩ := whileLoop_inv Fault.spin (passGuard target)
    (evictOne (sortedVictims g nextUse D))
    (PassInv (sortedVictims g nextUse D) (sizeT target) count)
    (fun st => (sortedVictims g nextUse D).length - st.i)
    (fun st hst hc => by
      have hg := (hguard st hst).mp hc
      obtain ⟨st', hok, hst', hi'⟩ := evictOne_spec hnd hst (by omega)
      exact ⟨st', hok, hst', by omega⟩)
    (sortedVictims g nextUse D).length ⟨0, D, count⟩
    ⟨htrue, by rw [List.drop_zero]; exact hpages.symm, by show 0 + _ ≤ _; omega, by simp⟩
    (Nat.sub_le _ _)
  have hsz := hst.size hnd
  have hroom := hst.room
  have hstop : ¬ 2 * st.i + sizeT target < (sortedVictims g nextUse D).length := by
    rw [← hguard st hst, hexit]; simp
  have hsub : st.dirtySet.keys ⊆ D.keys := by
    rw [hst.keys, ← hpages]
    intro p hp
    rw [List.mem_toFinset, List.map_drop] at hp
    exact List.mem_toFinset.mpr (List.mem_of_mem_drop hp)
  refine ⟨st.dirtySet, ?_, hst.allTrue, hsub, by omega, by omega, ?_⟩
  · have hcount : st.count = count + ((D.size - st.dirtySet.size : Nat) : Int) := by
      rw [hst.count]; omega
    rw [evictPass, hrun, ok_bind, hcount]
    rfl
  · -- `q` sits in front of `p` in the sorted vector
    intro p hp q hq hqD
    rw [hst.keys, List.mem_toFinset, List.mem_map] at hp
    rw [← hpages, List.mem_toFinset, List.mem_map] at hq
    obtain ⟨y, hy, rfl⟩ := hp
    obtain ⟨x, hx, rfl⟩ := hq
    have hxdrop : x ∉ (sortedVictims g nextUse D).drop st.i := fun hx' =>
      hqD (by rw [hst.keys, List.mem_toFinset]; exact List.mem_map_of_mem hx')
    refine keptBefore_of_pairLE hx (List.mem_of_mem_drop hy) ?_
      (rel_of_mem_drop (sortedVictims_sorted g nextUse D) hy hx hxdrop)
    intro heq
    exact hqD (by rw [hst.keys, List.mem_toFinset, ← heq]; exact List.mem_map_of_mem hy)

/-- **The eviction loop**: however many passes it takes, it ends with a best part of the right
    size, and `count` is the number of pages it erased. -/
theorem minEvict_spec (target : Int32) (nextUse : Nat → List Nat)
    (hD : D.keys ⊆ Finset.range g.m) (htrue : D.AllTrue) (hm : g.m < 2 ^ 64) :
    ∃ D', minEvict g target nextUse D = .ok (D', ((D.size - D'.size : Nat) : Int)) ∧
      D'.AllTrue ∧ Paging.Keeps (keptBefore nextUse) (sizeT target) D.keys D'.keys := by
  obtain ⟨⟨D', count⟩, hrun, ⟨htrue', hsub, hge, hbest, hcount⟩, hexit⟩ := whileLoop_inv Fault.spin
    (fun st => decide (sizeT target < st.1.size)) (evictPass g target nextUse)
    (fun st : DirtySet × Int => st.1.AllTrue ∧ st.1.keys ⊆ D.keys ∧
      min (sizeT target) D.size ≤ st.1.size ∧
      (∀ p ∈ st.1.keys, ∀ q ∈ D.keys, q ∉ st.1.keys → keptBefore nextUse p q) ∧
      st.2 = ((D.size - st.1.size : Nat) : Int))
    (fun st => st.1.size)
    (fun st hst hc => by
      obtain ⟨htrue', hsub, hge, hbest, hcount⟩ := hst
      obtain ⟨D₁, hok, h1, h2, h3, h4, h5⟩ := evictPass_spec st.2
        (hsub.trans hD) htrue' hm (of_decide_eq_true hc)
      have hle : st.1.size ≤ D.size := Finset.card_le_card hsub
      refine ⟨_, hok, ⟨h1, h2.trans hsub, by show _ ≤ D₁.size; omega, ?_, ?_⟩, h4⟩
      · intro p hp q hq hqD
        by_cases hq' : q ∈ st.1.keys
        · exact h5 p hp q hq' hqD
        · exact hbest p (h2 hp) q hq hq'
      · show st.2 + ((st.1.size - D₁.size : Nat) : Int) = ((D.size - D₁.size : Nat) : Int)
        rw [hcount]; omega)
    D.size (D, 0)
    ⟨htrue, Finset.Subset.refl _, Nat.min_le_right _ _, fun p _ q hq hqD => absurd hq hqD,
      by simp⟩ (Nat.le_refl _)
  have hstop : D'.size ≤ sizeT target := by
    have := of_decide_eq_false hexit
    exact Nat.le_of_not_lt this
  have hle : D'.size ≤ D.size := Finset.card_le_card hsub
  obtain rfl : count = ((D.size - D'.size : Nat) : Int) := hcount
  refine ⟨D', hrun, htrue', ⟨hsub, ?_, hbest⟩⟩
  show D'.size = min (sizeT target) D.size
  change min (sizeT target) D.size ≤ D'.size at hge
  omega

end Evict

/-! ## The whole run -/

/-- The order in which iteration `i` of `min_policy` keeps pages. -/
def minBetter (g : Globals) (i p q : Nat) : Prop := keptBefore (g.uses i) p q

/-- **One iteration**: the row joins, a best part stays, the sizes are printed. -/
theorem minIteration_spec (T : Trace) (target : Int32) {i : Nat} (hi : i < T.n) {s : MinState}
    (hs : MinInv T.toGlobals i s) :
    ∃ s', MinInv T.toGlobals (i + 1) s' ∧
      Paging.Keeps (minBetter T.toGlobals (i + 1)) (sizeT target)
        (s.dirtySet.keys ∪ T.row (i + 1)) s'.dirtySet.keys ∧
      minIteration T.toGlobals target (i + 1) s = .ok (s', ⟨i + 1, s'.dirtySet.keys.card,
        (((s.dirtySet.keys ∪ T.row (i + 1)).card - s'.dirtySet.keys.card : Nat) : Int),
        ((s.dirtySet.keys ∪ T.row (i + 1)).card : Int)⟩) := by
  obtain ⟨s₁, hrow, hinv, hkeys⟩ := minRow_spec T hi hs
  have hm : T.m ≤ 16384 := T.m_le
  obtain ⟨D', hev, htrue, hk⟩ := minEvict_spec target s₁.nextUse hinv.keys
    hinv.allTrue (by omega)
  have hcard : s₁.dirtySet.keys.card < 2 ^ 31 :=
    Nat.lt_of_le_of_lt (Trace.card_le hinv.keys) (by decide)
  refine ⟨⟨s₁.nextUse, D'⟩, ⟨hinv.nextUse, htrue, hk.sub.trans hinv.keys⟩, ?_, ?_⟩
  · show Paging.Keeps (keptBefore (T.uses (i + 1))) _ _ D'.keys
    rw [← hkeys, ← hinv.nextUse]
    exact hk
  · rw [minIteration, hrow, ok_bind, hev, ok_bind, DirtySet.size, toInt_of_lt hcard, hkeys]
    rfl

theorem minRun_eq (T : Trace) (target : Int32) (k : Nat) :
    minRun T.toGlobals target k = iters (minIteration T.toGlobals target) k ⟨T.uses 0, ∅⟩ := by
  rw [minRun, fillNextUse_spec]; rfl

/-- **Refinement.**  `min_policy` never faults; its dirty sets are a ranked run that keeps the pages
    used soonest, and it prints that run's sizes. -/
theorem min_refines (T : Trace) (target : Int32) :
    Paging.Run T.n (minBetter T.toGlobals) T.row (sizeT target) (minDirty T.toGlobals target) ∧
    ∀ k, k ≤ T.n → ∃ s, MinInv T.toGlobals k s ∧
      s.dirtySet.keys = minDirty T.toGlobals target k ∧
      minRun T.toGlobals target k =
        .ok (s, (List.range k).map (report T.row (minDirty T.toGlobals target))) := by
  have hD : minDirty T.toGlobals target = fun k => dirtyOf MinState.dirtySet
      (iters (minIteration T.toGlobals target) k ⟨T.uses 0, ∅⟩) := by
    funext k; rw [minDirty, minRun_eq]
  simp only [hD, minRun_eq]
  exact iters_refines (MinInv T.toGlobals) ⟨rfl, DirtySet.allTrue_empty, by simp⟩ rfl
    (fun i s hi hs => minIteration_spec T target hi hs)

theorem minPolicy_eq (T : Trace) (target : Int32) : minPolicy T.toGlobals target =
    .ok ((List.range T.n).map (report T.row (minDirty T.toGlobals target))) := by
  obtain ⟨s, -, -, hrun⟩ := (min_refines T target).2 T.n (Nat.le_refl _)
  rw [minPolicy, hrun]; rfl

theorem minBetter_asymm (g : Globals) (i p q : Nat) :
    minBetter g i p q → ¬ minBetter g i q p := keptBefore_asymm _ p q

/-- The sort key orders pages by their next use: no row number reaches the sentinel 1000000. -/
theorem nextKey_le_iff (T : Trace) {i τ p : Nat} (hτ : τ ≤ T.n) :
    nextKey (T.uses i) p ≤ τ ↔ Paging.UsedBy T.row i τ p := by
  have hn : T.n < 1000 := T.n_lt
  simp only [Paging.UsedBy, Finset.mem_Ioc]
  constructor
  · intro hle
    rw [nextKey] at hle
    split at hle
    · omega
    · rename_i j rest huses
      have hj : j ∈ T.uses i p := by rw [huses]; exact List.mem_cons_self
      obtain ⟨h1, h2, h3⟩ := Globals.mem_uses.mp hj
      exact ⟨j, ⟨h1, by omega⟩, h3⟩
  · rintro ⟨j, ⟨hij, hjτ⟩, hp⟩
    have hj : j ∈ T.uses i p := Globals.mem_uses.mpr ⟨hij, by omega, hp⟩
    have hsorted := T.uses_sorted i p
    rw [nextKey]
    split
    · rename_i huses
      rw [huses] at hj
      exact absurd hj List.not_mem_nil
    · rename_i k rest huses
      rw [huses] at hj hsorted
      rcases List.mem_cons.mp hj with rfl | hj
      · omega
      · have := (List.pairwise_cons.mp hsorted).1 j hj
        omega

/-- The order never prefers a page that is used later. -/
theorem minBetter_farsighted (T : Trace) (i : Nat) :
    Paging.Farsighted T.n T.row i (minBetter T.toGlobals i) := by
  intro p q hpq τ hτ hq
  rw [← nextKey_le_iff T hτ] at hq ⊢
  have hle : nextKey (T.uses i) p ≤ nextKey (T.uses i) q := by
    rcases hpq with h | h
    · exact Int.le_of_lt h
    · exact Int.le_of_eq h.1
  exact Int.le_trans hle hq

end QemuStudy.Policy
