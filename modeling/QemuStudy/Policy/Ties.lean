/-
  Does what LFU prints depend on the standard library?

  `poly_policy` leaves two choices open in each iteration, the iteration order of `dirty_set` and
  the order of equal counts after `std::sort` (`Resolution`).  LRU and MIN have no such choices.
  `lfu_reproducible_iff` says for which traces and targets the choices never show in the printed
  lines: whenever the target cuts through a class of equally often used pages (`Paging.Cut`), the
  next row must use all of that class or none of it.

  One direction is `Paging.keeps_hits_iff`.  For the other, each way of breaking ties that the
  counts allow must be one that some resolution takes: `Paging.Counts.reaches` gives a ranked run
  with any wanted best part at its end, and `Resolution.preferring` makes the program follow that
  run (`polyDirty_preferring`).
-/
import QemuStudy.Policy.ClosedForm

namespace QemuStudy.Policy

open QemuStudy

/-! ## A resolution for every run -/

/-- The order of a sort that puts the pages of `K` last among equal counts. -/
def preferLE (K : Finset Nat) (value : Nat → Nat) (x y : Nat) : Prop :=
  value x < value y ∨ (value x = value y ∧ (x ∈ K → y ∈ K))

instance (K : Finset Nat) (value : Nat → Nat) : DecidableRel (preferLE K value) := fun x y =>
  inferInstanceAs (Decidable (value x < value y ∨ (value x = value y ∧ (x ∈ K → y ∈ K))))

theorem preferLE_sorted (K : Finset Nat) (value : Nat → Nat) (l : List Nat) :
    (l.insertionSort (preferLE K value)).Pairwise (preferLE K value) := by
  have htotal : Std.Total (preferLE K value) := ⟨fun x y => by unfold preferLE; grind⟩
  have htrans : IsTrans Nat (preferLE K value) := ⟨fun x y z => by unfold preferLE; grind⟩
  exact List.pairwise_insertionSort _ l

/-- A resolution that iterates in ascending order and, in iteration `iter`, evicts the pages of
    `K iter` last among equal counts. -/
def Resolution.preferring (K : Nat → Finset Nat) : Resolution where
  iterOrder := fun _ D => (List.range (D.keys.fold max 0 id + 1)).filter (· ∈ D.keys)
  iterOrder_nodup := fun _ D => List.nodup_range.filter _
  mem_iterOrder := by
    intro _ D p
    rw [List.mem_filter, List.mem_range, decide_eq_true_eq]
    refine ⟨And.right, fun hp => ⟨Nat.lt_succ_of_le ?_, hp⟩⟩
    exact (Finset.le_fold_max p).mpr (Or.inr ⟨p, hp, Nat.le_refl _⟩)
  sort := fun iter value l => l.insertionSort (preferLE (K iter) value)
  sort_perm := fun iter value l => List.perm_insertionSort _ l
  sort_sorted := fun iter value l => (preferLE_sorted (K iter) value l).imp fun h => by
    unfold preferLE at h
    unfold compareFunc
    omega

/-- What one iteration leaves dirty, for every resolution: the end of the sorted pages. -/
theorem polyDirty_succ (T : Trace) (R : Resolution) {target : Int32} (ht : 0 ≤ target) {i : Nat}
    (hi : i < T.n) :
    ∃ D : DirtySet, D.keys = polyDirty T.toGlobals R target i ∪ T.row (i + 1) ∧
      polyDirty T.toGlobals R target (i + 1)
        = ((sortedPages R (i + 1) (T.freq (i + 1)) D).drop (D.size - sizeT target)).toFinset := by
  obtain ⟨s, hinv, hkeys, hs⟩ := (poly_refines T R ht).2 i (by omega)
  obtain ⟨s₁, hrow, hinv₁, hkeys₁⟩ := polyRow_spec T hi hinv
  obtain ⟨s₂, hev, -, -, hdrop, -⟩ := polyEvict_spec R ht (i + 1) hinv₁.allTrue
    (T.pages hinv₁.keys)
  refine ⟨s₁.dirtySet, by rw [hkeys₁, hkeys], ?_⟩
  rw [← hinv₁.value, ← hdrop, polyDirty, polyRun_succ, hs, ok_bind, printed, polyIteration, hrow,
    ok_bind, hev]
  rfl

/-- **The program follows any ranked run** if its ties are broken in favour of that run. -/
theorem polyDirty_preferring (T : Trace) {target : Int32} (ht : 0 ≤ target) {k : Nat}
    (hk : k ≤ T.n) {D : Nat → Finset Nat}
    (hD : Paging.Run k (fun i => Paging.notWorse (T.freq i)) T.row (sizeT target) D) :
    ∀ i, i ≤ k → polyDirty T.toGlobals (Resolution.preferring D) target i = D i := by
  intro i
  induction i with
  | zero => intro _; rw [hD.start]; rfl
  | succ i ih =>
    intro hi
    have hi' := ih (by omega)
    obtain ⟨E, hE, hdrop⟩ := polyDirty_succ T (Resolution.preferring D) ht
      (show i < T.n by omega)
    have hk := (poly_refines T (Resolution.preferring D) ht).1.step i (by omega)
    rw [hi'] at hE hk
    refine Paging.Keeps.eq_of_preferred (f := T.freq (i + 1)) ⟨hk.sub, hk.card, ?_⟩
      (hD.step i (by omega))
    intro p hp q hq hqD hlt
    rw [hdrop, List.mem_toFinset] at hp hqD
    rw [← hE, ← sortedPages_toFinset (Resolution.preferring D) (i + 1) (T.freq (i + 1)),
      List.mem_toFinset] at hq
    have hle : preferLE (D (i + 1)) (T.freq (i + 1)) q p :=
      rel_of_mem_drop (preferLE_sorted _ _ _) hp hq hqD
    rw [Paging.refined_lt] at hlt
    unfold preferLE at hle
    grind

/-! ## When the choices do not show -/

/-- The lines of two resolutions are the same if and only if each row finds equally many of its
    pages dirty. -/
theorem polyPolicy_eq_iff (T : Trace) (R R' : Resolution) {target : Int32} (ht : 0 ≤ target) :
    polyPolicy T.toGlobals R target = polyPolicy T.toGlobals R' target ↔
      ∀ i, i < T.n → (polyDirty T.toGlobals R target i ∩ T.row (i + 1)).card
        = (polyDirty T.toGlobals R' target i ∩ T.row (i + 1)).card := by
  have hcard : ∀ i, i ≤ T.n → (polyDirty T.toGlobals R target i).card
      = (polyDirty T.toGlobals R' target i).card := fun i hi => by
    rw [(poly_stack T R ht hi).card, (poly_stack T R' ht hi).card]
  rw [polyPolicy_eq T R ht, polyPolicy_eq T R' ht, Except.ok.injEq]
  constructor
  · intro h i hi
    have hline := List.map_inj_left.mp h i (List.mem_range.mpr hi)
    have hprev := congrArg Line.prevDirty hline
    simp only [report] at hprev
    have h1 := Finset.card_union_add_card_inter (polyDirty T.toGlobals R target i) (T.row (i + 1))
    have h2 := Finset.card_union_add_card_inter (polyDirty T.toGlobals R' target i) (T.row (i + 1))
    have h3 := hcard i (by omega)
    omega
  · intro h
    refine List.map_congr_left fun i hi => ?_
    have hi := List.mem_range.mp hi
    have h1 := Finset.card_union_add_card_inter (polyDirty T.toGlobals R target i) (T.row (i + 1))
    have h2 := Finset.card_union_add_card_inter (polyDirty T.toGlobals R' target i) (T.row (i + 1))
    have h3 := h i hi
    have h4 := hcard i (by omega)
    have hunion : (polyDirty T.toGlobals R target i ∪ T.row (i + 1)).card
        = (polyDirty T.toGlobals R' target i ∪ T.row (i + 1)).card := by omega
    rw [report, report, hcard (i + 1) hi, hunion]

/-- **When LFU is reproducible.**  For a target `0 ≤ C`, what `poly_policy` prints is the same for
    any two resolutions exactly if no row separates two equally often used pages of a class that
    `C` cuts: with fewer than `C` pages used more often and more than `C` used at least as often,
    all pages of the class are in the next row or none is. -/
theorem lfu_reproducible_iff (T : Trace) {target : Int32} (ht : 0 ≤ target) :
    (∀ R R' : Resolution,
      polyPolicy T.toGlobals R target = polyPolicy T.toGlobals R' target) ↔
    ∀ i, 1 ≤ i → i < T.n → ∀ p ∈ Paging.seen T.row i, ∀ q ∈ Paging.seen T.row i,
      T.freq i p = T.freq i q →
      Paging.Cut (T.freq i) target.toNatClampNeg (Paging.seen T.row i) p →
      (p ∈ T.row (i + 1) ↔ q ∈ T.row (i + 1)) := by
  constructor
  · intro h i h1 hi
    refine (Paging.keeps_hits_iff _ _ _ _).mp fun X Y hX hY => ?_
    -- some run ends in `X` and some run in `Y`, and the program can be made to follow both
    obtain ⟨D, hD, rfl⟩ := (freq_counts T).reaches i (by omega) X hX
    obtain ⟨E, hE, rfl⟩ := (freq_counts T).reaches i (by omega) Y hY
    rw [← sizeT_of_nonneg ht] at hD hE
    have hsame := (polyPolicy_eq_iff T _ _ ht).mp
      (h (Resolution.preferring D) (Resolution.preferring E)) i hi
    rwa [polyDirty_preferring T ht (by omega) hD i (Nat.le_refl _),
      polyDirty_preferring T ht (by omega) hE i (Nat.le_refl _)] at hsame
  · intro h R R'
    rw [polyPolicy_eq_iff T R R' ht]
    intro i hi
    refine (Paging.keeps_hits_iff _ _ _ _).mpr (fun p hp => ?_) _ _
      (poly_stack T R ht (by omega)) (poly_stack T R' ht (by omega))
    rcases Nat.eq_zero_or_pos i with rfl | hpos
    · cases hp
    · exact h i hpos hi p hp

/-- On the sample with target 1. -/
theorem lfu_reproducible_iff_sample : (0 : Int32) ≤ 1 ∧
    ((∀ R R' : Resolution,
      polyPolicy sampleTrace.toGlobals R 1 = polyPolicy sampleTrace.toGlobals R' 1) ↔
    ∀ i, 1 ≤ i → i < 3 → ∀ p ∈ Paging.seen sampleTrace.row i,
      ∀ q ∈ Paging.seen sampleTrace.row i, sampleTrace.freq i p = sampleTrace.freq i q →
      Paging.Cut (sampleTrace.freq i) 1 (Paging.seen sampleTrace.row i) p →
      (p ∈ sampleTrace.row (i + 1) ↔ q ∈ sampleTrace.row (i + 1))) :=
  ⟨by decide, lfu_reproducible_iff sampleTrace (by decide)⟩

/-- Two pages in the first row, one of them in the second: `11`, `10`. -/
def tieTrace : Trace where
  n := 2
  m := 2
  a := fun i p => if i = 1 ∨ (i = 2 ∧ p = 0) then 1 else 0
  n_lt := sampleRenamed.n_lt
  m_le := by decide
  bit := by
    intro i p
    by_cases h : i = 1 ∨ (i = 2 ∧ p = 0)
    · exact Or.inr (if_pos h)
    · exact Or.inl (if_neg h)

/-- With target 1 the first iteration evicts page 1 or page 0; then the second finds its page
    dirty or has to take it in.  The output is not determined. -/
theorem tie_shows :
    (polyPolicy tieTrace.toGlobals (Resolution.preferring fun _ => {0}) 1).map
        (·.map Line.prevDirty) = .ok [2, 1] ∧
    (polyPolicy tieTrace.toGlobals (Resolution.preferring fun _ => {1}) 1).map
        (·.map Line.prevDirty) = .ok [2, 2] ∧
    ¬ ∀ R R' : Resolution,
      polyPolicy tieTrace.toGlobals R 1 = polyPolicy tieTrace.toGlobals R' 1 := by
  have hzero : (polyPolicy tieTrace.toGlobals (Resolution.preferring fun _ => {0}) 1).map
      (·.map Line.prevDirty) = .ok [2, 1] := by decide +kernel
  have hone : (polyPolicy tieTrace.toGlobals (Resolution.preferring fun _ => {1}) 1).map
      (·.map Line.prevDirty) = .ok [2, 2] := by decide +kernel
  refine ⟨hzero, hone, fun h => ?_⟩
  rw [h (Resolution.preferring fun _ => {0}) (Resolution.preferring fun _ => {1}), hone] at hzero
  exact absurd (Except.ok.inj hzero) (by decide)

end QemuStudy.Policy
