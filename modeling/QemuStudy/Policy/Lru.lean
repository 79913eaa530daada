/-
  `lru_policy`: evict the pages that were used longest ago.

  The program (lines 95–129 of `fmsync_policy/policy.cc`) keeps three containers in step: the
  recency list `lru_list`, the map `page_map` from a page to its node in that list, and
  `dirty_set`.  Touching a page erases its old node through the stored iterator, pushes a new node
  to the front and re-points the map (`lruTouch`); evicting pops the back of the list and erases
  the page from both maps (`lruEvictOne`).

  `LruRep` is the representation invariant: the list has each dirty page once, in strictly
  decreasing order of (last access row, page index), and every stored iterator designates the
  page's own node.  It is kept by a touch (`touchPage_spec`) and by an eviction
  (`lruEvictOne_spec`), so no iterator dangles, `back()` is never taken of an empty list and the
  assert holds.  The back of the list is then the least recent page, which makes the run a ranked
  run for the order `lruBetter` (`lru_refines`).
-/
import QemuStudy.Policy.Trace

namespace QemuStudy.Policy

open QemuStudy

/-! ## The program -/

/-- The locals of `lru_policy` that live across iterations. -/
structure LruState where
  lruList : StdList Nat
  pageMap : Finmap (fun _ : Nat => Nat)
  dirtySet : DirtySet

/-- `if (page_map.find(idx) != page_map.end()) lru_list.erase(page_map[idx]);` -/
def eraseOld (idx : Nat) (s : LruState) : Except Fault (StdList Nat) :=
  match s.pageMap.lookup idx with
  | none => .ok s.lruList
  | some it =>
    match s.lruList.eraseAt it with
    | none => .error .dangling
    | some l => .ok l

/-- What touching page `idx` does to the three containers (lines 103–109). -/
def touchPage (idx : Nat) (s : LruState) : Except Fault LruState := do
  let erased ← eraseOld idx s
  let l := erased.pushFront idx
  return ⟨l, s.pageMap.insert idx l.begin, DirtySet.mark idx s.dirtySet⟩

/-- One column of the row (lines 102–110). -/
def lruTouch (g : Globals) (iter idx : Nat) (s : LruState) : Except Fault LruState := do
  if (← g.read iter idx) = 1 then touchPage idx s else return s

/-- The body of the eviction loop (lines 118–123), on the containers and `count`. -/
def lruEvictOne (st : LruState × Int) : Except Fault (LruState × Int) := do
  match st.1.lruList.back with
  | none => throw .emptyBack
  | some lruPage =>
    DirtySet.assertDirty lruPage st.1.dirtySet
    return (⟨st.1.lruList.popBack, st.1.pageMap.erase lruPage, st.1.dirtySet.erase lruPage⟩,
      st.2 + 1)

/-- `while (dirty_set.size() > dirty_target)` (lines 117–124). -/
def lruEvict (target : Int32) (s : LruState) : Except Fault (LruState × Int) :=
  whileLoop .spin (fun st => decide (sizeT target < st.1.dirtySet.size)) lruEvictOne
    s.dirtySet.size (s, 0)

/-- One iteration (lines 101–126). -/
def lruIteration (g : Globals) (target : Int32) (iter : Nat) (s : LruState) :
    Except Fault (LruState × Line) := do
  let s₁ ← forLoop (lruTouch g iter) 0 g.m s
  let r ← lruEvict target s₁
  return (r.1, ⟨iter, r.1.dirtySet.size, r.2, toInt s₁.dirtySet.size⟩)

/-- `lru_policy(target)`, stopped after `k` iterations. -/
def lruRun (g : Globals) (target : Int32) (k : Nat) : Except Fault (LruState × List Line) :=
  iters (lruIteration g target) k ⟨StdList.empty, ∅, ∅⟩

/-- `lru_policy(target)`: the lines it prints. -/
def lruPolicy (g : Globals) (target : Int32) : Except Fault (List Line) := do
  let r ← lruRun g target g.n
  return r.2

/-- The dirty set `lru_policy(target)` has after iteration `k`. -/
def lruDirty (g : Globals) (target : Int32) (k : Nat) : Finset Nat :=
  dirtyOf LruState.dirtySet (lruRun g target k)

/-! ## Recency -/

/-- `p` was used more recently than `q`: in a later row, or in the same row at a larger index. -/
def moreRecent (last : Nat → Nat) (p q : Nat) : Prop :=
  last q < last p ∨ (last q = last p ∧ q < p)

theorem moreRecent_asymm (last : Nat → Nat) (p q : Nat) :
    moreRecent last p q → ¬ moreRecent last q p := by
  unfold moreRecent; omega

theorem moreRecent_congr {last last' : Nat → Nat} {p q : Nat} (hp : last p = last' p)
    (hq : last q = last' q) (h : moreRecent last p q) : moreRecent last' p q := by
  rw [moreRecent, ← hp, ← hq]; exact h

/-- The last row `≤ i` that uses page `p` (0 if there is none). -/
def Globals.lastUse (g : Globals) : Nat → Nat → Nat
  | 0, _ => 0
  | i + 1, p => if p ∈ g.row (i + 1) then i + 1 else g.lastUse i p

theorem Globals.lastUse_le (g : Globals) (p : Nat) : ∀ i, g.lastUse i p ≤ i := by
  intro i
  induction i with
  | zero => exact Nat.le_refl _
  | succ i ih =>
    rw [Globals.lastUse]
    split
    · exact Nat.le_refl _
    · omega

/-- The last use of `p` when the inner loop of iteration `i + 1` reaches column `idx`: only touched
    pages left of `idx` have moved to row `i + 1`. -/
def Globals.lastTo (g : Globals) (i idx p : Nat) : Nat :=
  if p ∈ g.rowTo (i + 1) idx then i + 1 else g.lastUse i p

theorem Globals.lastTo_zero (g : Globals) (i : Nat) : g.lastTo i 0 = g.lastUse i := by
  funext p; simp [Globals.lastTo, Globals.rowTo]

theorem Globals.lastTo_succ_of_one {g : Globals} {i idx : Nat} (h : g.a (i + 1) idx = 1) :
    g.lastTo i (idx + 1) = Function.update (g.lastTo i idx) idx (i + 1) := by
  funext p
  by_cases hp : p = idx
  · subst hp; simp [Globals.lastTo, Globals.rowTo_succ_of_one h]
  · rw [Function.update_of_ne hp]
    simp [Globals.lastTo, Globals.rowTo_succ_of_one h, hp]

theorem Globals.lastTo_succ_of_ne {g : Globals} {i idx : Nat} (h : g.a (i + 1) idx ≠ 1) :
    g.lastTo i (idx + 1) = g.lastTo i idx := by
  funext p; simp [Globals.lastTo, Globals.rowTo_succ_of_ne h]

theorem Globals.lastTo_front (g : Globals) (i idx p : Nat) :
    g.lastTo i idx p < i + 1 ∨ (g.lastTo i idx p = i + 1 ∧ p < idx) := by
  rw [Globals.lastTo]
  split
  · rename_i hp; exact Or.inr ⟨rfl, (Globals.mem_rowTo.mp hp).1⟩
  · exact Or.inl (Nat.lt_succ_of_le (g.lastUse_le p i))

/-- The order in which iteration `i` of `lru_policy` keeps pages. -/
def lruBetter (g : Globals) (i p q : Nat) : Prop := moreRecent (g.lastUse i) p q

theorem lruBetter_asymm (g : Globals) (i p q : Nat) :
    lruBetter g i p q → ¬ lruBetter g i q p := moreRecent_asymm _ p q

/-! ## The representation invariant -/

/-- The three containers describe one set of pages below `m`, listed by recency. -/
structure LruRep (m : Nat) (last : Nat → Nat) (s : LruState) : Prop where
  sorted : s.lruList.toList.Pairwise (moreRecent last)
  keys : s.dirtySet.keys = s.lruList.toList.toFinset
  mapKeys : s.pageMap.keys = s.dirtySet.keys
  mapAt : ∀ p it, s.pageMap.lookup p = some it → s.lruList.At it p
  allTrue : s.dirtySet.AllTrue
  range : s.dirtySet.keys ⊆ Finset.range m

namespace LruRep

variable {m : Nat} {last : Nat → Nat} {s : LruState}

theorem nodup (h : LruRep m last s) : s.lruList.toList.Nodup :=
  h.sorted.imp fun {p q} hpq heq => by subst heq; unfold moreRecent at hpq; omega

theorem mem_iff (h : LruRep m last s) {p : Nat} : p ∈ s.dirtySet.keys ↔ p ∈ s.lruList.toList := by
  rw [h.keys, List.mem_toFinset]

theorem size_eq (h : LruRep m last s) : s.dirtySet.size = s.lruList.toList.length := by
  rw [DirtySet.size, h.keys, List.toFinset_card_of_nodup h.nodup]

theorem init (m : Nat) (last : Nat → Nat) : LruRep m last ⟨StdList.empty, ∅, ∅⟩ where
  sorted := List.Pairwise.nil
  keys := rfl
  mapKeys := rfl
  mapAt := fun p it h => by simp at h
  allTrue := DirtySet.allTrue_empty
  range := by simp

end LruRep

/-! ## Touching a page -/

/-- The stored iterator is live: erasing through it removes exactly the page's own node. -/
theorem eraseOld_spec {m : Nat} {last : Nat → Nat} {s : LruState} (h : LruRep m last s)
    (idx : Nat) :
    ∃ l, eraseOld idx s = .ok l ∧ l.toList = s.lruList.toList.filter (fun y => y ≠ idx) ∧
      ∀ it y, y ≠ idx → s.lruList.At it y → l.At it y := by
  rw [eraseOld]
  cases hl : s.pageMap.lookup idx with
  | none =>
    -- the page has no node: it is not dirty, so it is not in the list
    have hnot : idx ∉ s.lruList.toList := by
      rw [← h.mem_iff, ← h.mapKeys, Finmap.mem_keys]
      exact Finmap.lookup_eq_none.mp hl
    refine ⟨s.lruList, rfl, ?_, fun it y _ hat => hat⟩
    refine (List.filter_eq_self.mpr fun y hy => ?_).symm
    exact decide_eq_true fun heq => hnot (heq ▸ hy)
  | some it =>
    obtain ⟨l, hl', hlist, hlive⟩ := StdList.eraseAt_of_at h.nodup (h.mapAt idx it hl)
    exact ⟨l, by simp only [hl'], hlist, hlive⟩

/-- **A touch keeps the invariant** when the touched page becomes the most recent one. -/
theorem touchPage_spec {m idx t : Nat} {last : Nat → Nat} {s : LruState} (h : LruRep m last s)
    (hidx : idx < m) (hfront : ∀ p, p ≠ idx → last p < t ∨ (last p = t ∧ p < idx)) :
    ∃ s', touchPage idx s = .ok s' ∧ LruRep m (Function.update last idx t) s' ∧
      s'.dirtySet.keys = insert idx s.dirtySet.keys := by
  obtain ⟨l, herase, hlist, hlive⟩ := eraseOld_spec h idx
  refine ⟨⟨l.pushFront idx, s.pageMap.insert idx (l.pushFront idx).begin,
    DirtySet.mark idx s.dirtySet⟩, by rw [touchPage, herase]; rfl, ?_, DirtySet.keys_mark _ _⟩
  have hne : ∀ q ∈ s.lruList.toList.filter (fun y => y ≠ idx), q ≠ idx := fun q hq =>
    of_decide_eq_true (List.mem_filter.mp hq).2
  constructor
  · -- the front page beats all others, whose last access did not change
    rw [StdList.toList_pushFront, hlist, List.pairwise_cons]
    refine ⟨fun q hq => ?_, ?_⟩
    · unfold moreRecent
      rw [Function.update_self, Function.update_of_ne (hne q hq)]
      exact hfront q (hne q hq)
    · refine (h.sorted.filter _).imp_of_mem fun hp hq hpq => ?_
      exact moreRecent_congr (Function.update_of_ne (hne _ hp) _ _).symm
        (Function.update_of_ne (hne _ hq) _ _).symm hpq
  · rw [DirtySet.keys_mark, StdList.toList_pushFront, hlist, h.keys]
    ext p
    by_cases hp : p = idx <;> simp [hp]
  · rw [keys_insert, DirtySet.keys_mark, h.mapKeys]
  · intro p it hlook
    by_cases hp : p = idx
    · subst hp
      rw [Finmap.lookup_insert, Option.some.injEq] at hlook
      rw [← hlook, StdList.begin_pushFront]
      exact StdList.at_begin_pushFront _ _
    · rw [Finmap.lookup_insert_of_ne _ hp] at hlook
      exact (hlive it p hp (h.mapAt p it hlook)).pushFront idx
  · exact h.allTrue.mark idx
  · rw [DirtySet.keys_mark]
    exact Finset.insert_subset (Finset.mem_range.mpr hidx) h.range

/-- **A row joins, page by page**: when the inner loop of iteration `i + 1` has processed `idx`
    pages, those of the row among them are dirty and the list is sorted by the recency so far. -/
theorem lruColumns_spec (T : Trace) {i : Nat} (hi : i < T.n) {s : LruState}
    (hs : LruRep T.m (T.lastUse i) s) {k : Nat} (hk : k ≤ T.m) :
    ∃ s', forLoop (lruTouch T.toGlobals (i + 1)) 0 k s = .ok s' ∧
      LruRep T.m (T.lastTo i k) s' ∧
      s'.dirtySet.keys = s.dirtySet.keys ∪ T.rowTo (i + 1) k := by
  obtain ⟨s', hrun, hrep, hkeys⟩ := forLoop_inv (lruTouch T.toGlobals (i + 1))
    (fun idx s' => LruRep T.m (T.lastTo i idx) s' ∧
      s'.dirtySet.keys = s.dirtySet.keys ∪ T.rowTo (i + 1) idx) k 0 s
    (fun idx s' _ hidx hP => by
      obtain ⟨hrep, hkeys⟩ := hP
      have hidx' : idx < T.m := by omega
      rw [lruTouch, T.read_eq (by omega) hidx']
      show ∃ s'', (if T.a (i + 1) idx = 1 then _ else _) = _ ∧ _
      by_cases h1 : T.a (i + 1) idx = 1
      · obtain ⟨s'', hok, hrep', hkeys'⟩ := touchPage_spec hrep hidx'
          (fun p _ => T.lastTo_front i idx p)
        rw [if_pos h1]
        refine ⟨s'', hok, by rw [Globals.lastTo_succ_of_one h1]; exact hrep', ?_⟩
        rw [hkeys', hkeys, Globals.rowTo_succ_of_one h1, Finset.union_insert]
      · rw [if_neg h1, Globals.lastTo_succ_of_ne h1, Globals.rowTo_succ_of_ne h1]
        exact ⟨s', rfl, hrep, hkeys⟩)
    ⟨by rw [Globals.lastTo_zero]; exact hs, by simp [Globals.rowTo]⟩
  rw [Nat.zero_add] at hrep hkeys
  exact ⟨s', hrun, hrep, hkeys⟩

/-- **A row joins**: afterwards its pages are dirty and the list is sorted by the new recency. -/
theorem lruRow_spec (T : Trace) {i : Nat} (hi : i < T.n) {s : LruState}
    (hs : LruRep T.m (T.lastUse i) s) :
    ∃ s', forLoop (lruTouch T.toGlobals (i + 1)) 0 T.m s = .ok s' ∧
      LruRep T.m (T.lastUse (i + 1)) s' ∧
      s'.dirtySet.keys = s.dirtySet.keys ∪ T.row (i + 1) :=
  lruColumns_spec T hi hs (Nat.le_refl _)

/-! ## Eviction -/

/-- **One eviction**: the back of the list is a dirty page, less recent than every page left. -/
theorem lruEvictOne_spec {m : Nat} {last : Nat → Nat} {s : LruState} (h : LruRep m last s)
    (count : Int) (hpos : 0 < s.dirtySet.size) :
    ∃ x s', lruEvictOne (s, count) = .ok (s', count + 1) ∧ LruRep m last s' ∧
      x ∈ s.dirtySet.keys ∧ s'.dirtySet.keys = s.dirtySet.keys.erase x ∧
      ∀ p ∈ s'.dirtySet.keys, moreRecent last p x := by
  have hne : s.lruList.toList ≠ [] := by
    rw [h.size_eq] at hpos
    exact List.ne_nil_of_length_pos hpos
  obtain ⟨xs, x, hxs⟩ : ∃ xs x, s.lruList.toList = xs ++ [x] :=
    ⟨_, _, (List.dropLast_append_getLast hne).symm⟩
  have hx : x ∈ s.dirtySet.keys := by rw [h.mem_iff, hxs]; simp
  have hnd := h.nodup
  have hsorted := h.sorted
  rw [hxs, List.pairwise_append] at hsorted
  have hpop : s.lruList.popBack.toList = xs := by
    rw [StdList.toList_popBack, hxs, List.dropLast_concat]
  have hxnot : x ∉ xs := by
    rw [hxs, List.nodup_append] at hnd
    exact fun hmem => hnd.2.2 x hmem x (List.mem_singleton.mpr rfl) rfl
  have hkeys : (s.dirtySet.erase x).keys = xs.toFinset := by
    rw [Finmap.keys_erase, h.keys, hxs]
    ext p
    simp only [Finset.mem_erase, List.mem_toFinset, List.mem_append, List.mem_singleton]
    constructor
    · rintro ⟨hpx, hp | hp⟩
      · exact hp
      · exact absurd hp hpx
    · intro hp
      exact ⟨fun heq => hxnot (heq ▸ hp), Or.inl hp⟩
  refine ⟨x, ⟨s.lruList.popBack, s.pageMap.erase x, s.dirtySet.erase x⟩, ?_, ?_, hx,
    Finmap.keys_erase _ _, ?_⟩
  · rw [lruEvictOne, StdList.back_eq_some hxs]
    show (DirtySet.assertDirty x s.dirtySet >>= _) = _
    rw [h.allTrue.assertDirty hx]
    rfl
  · constructor
    · rw [hpop]; exact hsorted.1
    · rw [hpop]; exact hkeys
    · rw [Finmap.keys_erase, h.mapKeys, Finmap.keys_erase]
    · intro p it hlook
      have hpx : p ≠ x := by
        rintro rfl
        rw [Finmap.lookup_erase] at hlook
        exact nomatch hlook
      rw [Finmap.lookup_erase_ne hpx] at hlook
      have hat := h.mapAt p it hlook
      have hmem := hat.mem
      refine hat.popBack ?_ h.nodup
      rw [hxs, List.dropLast_concat]
      rw [hxs, List.mem_append, List.mem_singleton] at hmem
      exact hmem.resolve_right hpx
    · exact h.allTrue.erase x
    · rw [Finmap.keys_erase]
      exact (Finset.erase_subset _ _).trans h.range
  · intro p hp
    change p ∈ (s.dirtySet.erase x).keys at hp
    rw [hkeys, List.mem_toFinset] at hp
    exact hsorted.2.2 p hp x (List.mem_singleton.mpr rfl)

/-- **The eviction loop** keeps the most recent pages that fit. -/
theorem lruEvict_spec {m : Nat} {last : Nat → Nat} {s : LruState} (target : Int32)
    (h : LruRep m last s) :
    ∃ s', lruEvict target s = .ok (s', ((s.dirtySet.size - s'.dirtySet.size : Nat) : Int)) ∧
      LruRep m last s' ∧
      Paging.Keeps (moreRecent last) (sizeT target) s.dirtySet.keys s'.dirtySet.keys := by
  obtain ⟨⟨s', count⟩, hrun, ⟨hrep, hsub, hge, hbest, hcount⟩, hexit⟩ := whileLoop_inv Fault.spin
    (fun st => decide (sizeT target < st.1.dirtySet.size)) lruEvictOne
    (fun st : LruState × Int => LruRep m last st.1 ∧ st.1.dirtySet.keys ⊆ s.dirtySet.keys ∧
      min (sizeT target) s.dirtySet.size ≤ st.1.dirtySet.size ∧
      (∀ p ∈ st.1.dirtySet.keys, ∀ q ∈ s.dirtySet.keys, q ∉ st.1.dirtySet.keys →
        moreRecent last p q) ∧
      st.2 = ((s.dirtySet.size - st.1.dirtySet.size : Nat) : Int))
    (fun st => st.1.dirtySet.size)
    (fun st hst hc => by
      obtain ⟨hrep, hsub, hge, hbest, hcount⟩ := hst
      have hlt := of_decide_eq_true hc
      obtain ⟨x, s', hok, hrep', hx, hkeys, hleast⟩ := lruEvictOne_spec hrep st.2 (by omega)
      have hsize : s'.dirtySet.size + 1 = st.1.dirtySet.size := by
        rw [DirtySet.size, hkeys]; exact Finset.card_erase_add_one hx
      have hle : st.1.dirtySet.size ≤ s.dirtySet.size := Finset.card_le_card hsub
      refine ⟨_, hok, ⟨hrep', ?_, by show _ ≤ s'.dirtySet.size; omega, ?_, ?_⟩, by
        show s'.dirtySet.size < _; omega⟩
      · show s'.dirtySet.keys ⊆ _
        rw [hkeys]; exact (Finset.erase_subset _ _).trans hsub
      · intro p hp q hq hqs
        change p ∈ s'.dirtySet.keys at hp
        change q ∉ s'.dirtySet.keys at hqs
        by_cases hqx : q = x
        · subst hqx; exact hleast p hp
        · rw [hkeys] at hp hqs
          exact hbest p (Finset.mem_of_mem_erase hp) q hq
            (fun hmem => hqs (Finset.mem_erase.mpr ⟨hqx, hmem⟩))
      · show st.2 + 1 = ((s.dirtySet.size - s'.dirtySet.size : Nat) : Int)
        rw [hcount]; omega)
    s.dirtySet.size (s, 0)
    ⟨h, Finset.Subset.refl _, Nat.min_le_right _ _, fun p _ q hq hqs => absurd hq hqs, by simp⟩
    (Nat.le_refl _)
  have hstop : s'.dirtySet.size ≤ sizeT target := Nat.le_of_not_lt (of_decide_eq_false hexit)
  have hle : s'.dirtySet.size ≤ s.dirtySet.size := Finset.card_le_card hsub
  obtain rfl : count = ((s.dirtySet.size - s'.dirtySet.size : Nat) : Int) := hcount
  refine ⟨s', hrun, hrep, ⟨hsub, ?_, hbest⟩⟩
  show s'.dirtySet.size = min (sizeT target) s.dirtySet.size
  change min (sizeT target) s.dirtySet.size ≤ s'.dirtySet.size at hge
  omega

/-! ## The whole run -/

/-- **One iteration**: the row joins, the most recent part stays, the sizes are printed. -/
theorem lruIteration_spec (T : Trace) (target : Int32) {i : Nat} (hi : i < T.n) {s : LruState}
    (hs : LruRep T.m (T.lastUse i) s) :
    ∃ s', LruRep T.m (T.lastUse (i + 1)) s' ∧
      Paging.Keeps (lruBetter T.toGlobals (i + 1)) (sizeT target)
        (s.dirtySet.keys ∪ T.row (i + 1)) s'.dirtySet.keys ∧
      lruIteration T.toGlobals target (i + 1) s = .ok (s', ⟨i + 1, s'.dirtySet.keys.card,
        (((s.dirtySet.keys ∪ T.row (i + 1)).card - s'.dirtySet.keys.card : Nat) : Int),
        ((s.dirtySet.keys ∪ T.row (i + 1)).card : Int)⟩) := by
  obtain ⟨s₁, hrow, hrep, hkeys⟩ := lruRow_spec T hi hs
  obtain ⟨s', hev, hrep', hk⟩ := lruEvict_spec target hrep
  have hcard : s₁.dirtySet.keys.card < 2 ^ 31 :=
    Nat.lt_of_le_of_lt (Trace.card_le hrep.range) (by decide)
  refine ⟨s', hrep', by rw [← hkeys]; exact hk, ?_⟩
  rw [lruIteration, hrow, ok_bind, hev, ok_bind, DirtySet.size, toInt_of_lt hcard, hkeys]
  rfl

/-- **Refinement.**  `lru_policy` never faults; its dirty sets are a ranked run that keeps the pages
    used last, and it prints that run's sizes. -/
theorem lru_refines (T : Trace) (target : Int32) :
    Paging.Run T.n (lruBetter T.toGlobals) T.row (sizeT target) (lruDirty T.toGlobals target) ∧
    ∀ k, k ≤ T.n → ∃ s, LruRep T.m (T.lastUse k) s ∧
      s.dirtySet.keys = lruDirty T.toGlobals target k ∧
      lruRun T.toGlobals target k =
        .ok (s, (List.range k).map (report T.row (lruDirty T.toGlobals target))) :=
  iters_refines (fun i s => LruRep T.m (T.lastUse i) s) (LruRep.init _ _) rfl
    (fun _ _ hi hs => lruIteration_spec T target hi hs)

theorem lruPolicy_eq (T : Trace) (target : Int32) : lruPolicy T.toGlobals target =
    .ok ((List.range T.n).map (report T.row (lruDirty T.toGlobals target))) := by
  obtain ⟨s, -, -, hrun⟩ := (lru_refines T target).2 T.n (Nat.le_refl _)
  rw [lruPolicy, hrun]; rfl

end QemuStudy.Policy
