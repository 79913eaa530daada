/-
  What the printed lines of the three policies say, read off the ranked runs they refine.

  `min_refines`, `lru_refines` and `poly_refines` place each policy over `Paging.Run`; the theorems
  here carry the results about such runs down to the lines that `policy.cc` prints:

  1. `min_evicts_least`        — at every prefix MIN has printed at most as many evictions as ANY
                                 admissible policy makes, LRU and the frequency policy included;
  2. `no_belady_anomaly`       — for LRU and MIN a larger target keeps a superset, larger by at
                                 most the difference, so `prev_dirty` grows and `evict` shrinks
                                 with the target, iteration by iteration;
  3. `min_lines_past_only`     — two traces whose first `t` rows agree up to renaming pages make
                                 MIN print the same first `t` lines, whatever follows;
  4. `policies_same_occupancy` — all three print `dirty_set = min C (pages seen so far)`.

  Everything is about targets `0 ≤ C`; `sizeT_of_nonneg` is where that enters, since a negative
  `int` compared with a `size_t` is a huge number.
-/
import QemuStudy.Policy.Min
import QemuStudy.Policy.Lru
import QemuStudy.Policy.Poly

namespace QemuStudy.Policy

open QemuStudy

/-! ## Reading the lines of a run -/

/-- The sum of the `evict` column over iterations `1..t`. -/
def evictions (out : List Line) (t : Nat) : Int := ((out.take t).map Line.evict).sum

/-- The first `t` lines of a run do not mention what happens after iteration `t`. -/
theorem take_report (row D : Nat → Finset Nat) {t n : Nat} (ht : t ≤ n) :
    ((List.range n).map (report row D)).take t = (List.range t).map (report row D) := by
  rw [← List.map_take, List.take_range, Nat.min_eq_left ht]

theorem length_report (row D : Nat → Finset Nat) (n : Nat) :
    ((List.range n).map (report row D)).length = n := by rw [List.length_map, List.length_range]

theorem evictions_report (row D : Nat → Finset Nat) {t n : Nat} (ht : t ≤ n) :
    evictions ((List.range n).map (report row D)) t = (Paging.dropped row D t : Int) := by
  rw [evictions, take_report row D ht]
  clear ht
  induction t with
  | zero => simp [Paging.dropped]
  | succ t ih =>
    rw [List.range_succ, List.map_append, List.map_append, List.sum_append, ih,
      Paging.dropped_succ]
    simp [report]

theorem getElem?_report (row D : Nat → Finset Nat) {i n : Nat} {l : Line}
    (h : ((List.range n).map (report row D))[i]? = some l) : i < n ∧ l = report row D i := by
  rw [List.getElem?_map, Option.map_eq_some_iff] at h
  obtain ⟨j, hj, hl⟩ := h
  obtain ⟨hlt, hji⟩ := List.getElem?_eq_some_iff.mp hj
  rw [List.length_range] at hlt
  rw [List.getElem_range] at hji
  exact ⟨hlt, by rw [← hl, ← hji]⟩

/-! ## Optimality of MIN -/

/-- **MIN is optimal on every prefix.**  Against every admissible policy, given by the sets it
    evicts, and in particular against `lru_policy` and `poly_policy`, whatever order the latter
    gives to ties.  Each of the three prints one line an iteration. -/
theorem min_evicts_least (T : Trace) (C : Int32) (hC : 0 ≤ C) (R : Resolution) :
    ∃ min lru poly, minPolicy T.toGlobals C = .ok min ∧ lruPolicy T.toGlobals C = .ok lru ∧
      polyPolicy T.toGlobals R C = .ok poly ∧
      (min.length = T.n ∧ lru.length = T.n ∧ poly.length = T.n) ∧
      ∀ t, t ≤ T.n →
        (∀ evicted, Paging.Admissible T.n T.row C.toNatClampNeg evicted →
          evictions min t ≤ ((∑ j ∈ Finset.range t, (evicted (j + 1)).card : Nat) : Int)) ∧
        evictions min t ≤ evictions lru t ∧ evictions min t ≤ evictions poly t := by
  refine ⟨_, _, _, minPolicy_eq T C, lruPolicy_eq T C, polyPolicy_eq T R hC,
    ⟨length_report _ _ _, length_report _ _ _, length_report _ _ _⟩, fun t ht => ?_⟩
  rw [evictions_report _ _ ht, evictions_report _ _ ht, evictions_report _ _ ht]
  have hleast : ∀ evicted, Paging.Admissible T.n T.row (sizeT C) evicted →
      Paging.dropped T.row (minDirty T.toGlobals C) t
        ≤ ∑ j ∈ Finset.range t, (evicted (j + 1)).card := fun evicted hP =>
    (min_refines T C).1.optimal (fun i _ => minBetter_farsighted T i) hP ht
  -- a ranked run evicts what it does not keep: it is one of the admissible policies
  have hrun : ∀ {better : Nat → Nat → Nat → Prop} {D : Nat → Finset Nat},
      Paging.Run T.n better T.row (sizeT C) D →
        Paging.dropped T.row (minDirty T.toGlobals C) t ≤ Paging.dropped T.row D t := by
    intro better D hD
    obtain ⟨evicted, hP, hsum⟩ := hD.admissible
    rw [← hsum t ht]
    exact hleast evicted hP
  refine ⟨fun evicted hP => ?_, ?_, ?_⟩
  · rw [← sizeT_of_nonneg hC] at hP
    exact_mod_cast hleast evicted hP
  · exact_mod_cast hrun (lru_refines T C).1
  · exact_mod_cast hrun (poly_refines T R hC).1

/-- Three rows over three pages: `110`, `011`, `110`. -/
def sampleTrace : Trace where
  n := 3
  m := 3
  a i j := if (i = 2 ∧ j = 0) ∨ (i ≠ 2 ∧ j = 2) then 0 else 1
  n_lt := by decide
  m_le := by decide
  bit i j := by split <;> simp

/-- On the sample, against the policy that evicts every row at once. -/
theorem min_evicts_least_sample :
    (0 : Int32) ≤ 1 ∧ ∃ min lru poly, minPolicy sampleTrace.toGlobals 1 = .ok min ∧
      lruPolicy sampleTrace.toGlobals 1 = .ok lru ∧
      polyPolicy sampleTrace.toGlobals Resolution.ascending 1 = .ok poly ∧
      min.length = 3 ∧ evictions min 3 ≤ 6 ∧
      evictions min 3 ≤ evictions lru 3 ∧ evictions min 3 ≤ evictions poly 3 := by
  have h0 : (0 : Int32) ≤ 1 := by decide
  have hadm : Paging.Admissible sampleTrace.n sampleTrace.row (1 : Int32).toNatClampNeg
      sampleTrace.row := ⟨by decide, by decide⟩
  obtain ⟨min, lru, poly, hmin, hlru, hpoly, hlen, h⟩ :=
    min_evicts_least sampleTrace 1 h0 Resolution.ascending
  obtain ⟨hall, hle⟩ := h 3 (Nat.le_refl _)
  exact ⟨h0, min, lru, poly, hmin, hlru, hpoly, hlen.1, hall sampleTrace.row hadm, hle⟩

/-! ## Two targets -/

/-- Two runs of one policy that differ in the target only: after every iteration the smaller
    target holds a subset, smaller by at most the difference of the targets; no line has a smaller
    `prev_dirty` or a larger `evict` with the larger target. -/
structure NoAnomaly {σ : Type} (n : Nat) (dirty : σ → DirtySet)
    (run : Int32 → Nat → Except Fault (σ × List Line)) (C₁ C₂ : Int32) : Prop where
  sets : ∀ i, i ≤ n → ∃ s₁ s₂ out₁ out₂, run C₁ i = .ok (s₁, out₁) ∧ run C₂ i = .ok (s₂, out₂) ∧
    (dirty s₁).keys ⊆ (dirty s₂).keys ∧
    ((dirty s₂).keys.card : Int) ≤ (dirty s₁).keys.card + (C₂.toInt - C₁.toInt)
  lines : ∃ s₁ s₂ out₁ out₂, run C₁ n = .ok (s₁, out₁) ∧ run C₂ n = .ok (s₂, out₂) ∧
    out₁.length = n ∧ out₂.length = n ∧
    ∀ (i : Nat) (l₁ l₂ : Line), out₁[i]? = some l₁ → out₂[i]? = some l₂ →
      l₁.prevDirty ≤ l₂.prevDirty ∧ l₂.evict ≤ l₁.evict

/-- The union of two sets with the same row, and what is dropped from it: the larger capacity
    starts from more and drops less. -/
theorem report_mono {C₁ C₂ n : Nat} {better : Nat → Nat → Nat → Prop}
    {row D₁ D₂ : Nat → Finset Nat} (h₁ : Paging.Run n better row C₁ D₁)
    (h₂ : Paging.Run n better row C₂ D₂) (hC : C₁ ≤ C₂)
    (hasym : ∀ i p q, better i p q → ¬ better i q p) {i : Nat} (hi : i < n) :
    (report row D₁ i).prevDirty ≤ (report row D₂ i).prevDirty ∧
      (report row D₂ i).evict ≤ (report row D₁ i).evict := by
  obtain ⟨hsub, hgap⟩ := h₁.inclusion hasym h₂ hC i (by omega)
  obtain ⟨hU, hUgap⟩ := Paging.union_gap hsub hgap (row (i + 1))
  have hle := Finset.card_le_card hU
  have hk₁ := (h₁.step i hi).card
  have hk₂ := (h₂.step i hi).card
  simp only [report]
  omega

/-- **Inclusion gives the comparison.**  Any policy whose runs refine ranked runs under one
    asymmetric, target-independent order has no anomaly. -/
theorem noAnomaly_of_refines {σ : Type} {n : Nat} {dirty : σ → DirtySet}
    {run : Int32 → Nat → Except Fault (σ × List Line)} {better : Nat → Nat → Nat → Prop}
    {row : Nat → Finset Nat} {D : Int32 → Nat → Finset Nat} {Inv : Nat → σ → Prop}
    (hrun : ∀ C, Paging.Run n better row (sizeT C) (D C) ∧ ∀ k, k ≤ n → ∃ s, Inv k s ∧
      (dirty s).keys = D C k ∧ run C k = .ok (s, (List.range k).map (report row (D C))))
    (hasym : ∀ i p q, better i p q → ¬ better i q p) {C₁ C₂ : Int32} (h0 : 0 ≤ C₁)
    (hle : C₁ ≤ C₂) : NoAnomaly n dirty run C₁ C₂ := by
  have hz : 0 ≤ C₁.toInt := Int32.le_iff_toInt_le.mp h0
  have hcmp : C₁.toInt ≤ C₂.toInt := Int32.le_iff_toInt_le.mp hle
  have hs₁ : (sizeT C₁ : Int) = C₁.toInt := by
    rw [sizeT_of_nonneg h0]; exact Int.toNat_of_nonneg hz
  have hs₂ : (sizeT C₂ : Int) = C₂.toInt := by
    rw [sizeT_of_nonneg (Int32.le_trans h0 hle)]; exact Int.toNat_of_nonneg (by omega)
  have hC : sizeT C₁ ≤ sizeT C₂ := by omega
  refine ⟨fun i hi => ?_, ?_⟩
  · obtain ⟨s₁, -, hk₁, hr₁⟩ := (hrun C₁).2 i hi
    obtain ⟨s₂, -, hk₂, hr₂⟩ := (hrun C₂).2 i hi
    obtain ⟨hsub, hgap⟩ := (hrun C₁).1.inclusion hasym (hrun C₂).1 hC i hi
    refine ⟨s₁, s₂, _, _, hr₁, hr₂, ?_, ?_⟩
    · rw [hk₁, hk₂]; exact hsub
    · rw [hk₁, hk₂]; omega
  · obtain ⟨s₁, -, -, hr₁⟩ := (hrun C₁).2 n (Nat.le_refl _)
    obtain ⟨s₂, -, -, hr₂⟩ := (hrun C₂).2 n (Nat.le_refl _)
    refine ⟨s₁, s₂, _, _, hr₁, hr₂, by simp, by simp, fun i l₁ l₂ h₁ h₂ => ?_⟩
    obtain ⟨hi, rfl⟩ := getElem?_report _ _ h₁
    obtain ⟨-, rfl⟩ := getElem?_report _ _ h₂
    exact report_mono (hrun C₁).1 (hrun C₂).1 hC hasym hi

/-- **No Belady anomaly** for `lru_policy` and `min_policy`. -/
theorem no_belady_anomaly (T : Trace) (C₁ C₂ : Int32) (h0 : 0 ≤ C₁) (hle : C₁ ≤ C₂) :
    NoAnomaly T.n LruState.dirtySet (lruRun T.toGlobals) C₁ C₂ ∧
      NoAnomaly T.n MinState.dirtySet (minRun T.toGlobals) C₁ C₂ :=
  ⟨noAnomaly_of_refines (lru_refines T) (lruBetter_asymm T.toGlobals) h0 hle,
    noAnomaly_of_refines (min_refines T) (minBetter_asymm T.toGlobals) h0 hle⟩

theorem no_belady_anomaly_sample : ((0 : Int32) ≤ 1 ∧ (1 : Int32) ≤ 2) ∧
    NoAnomaly 3 LruState.dirtySet (lruRun sampleTrace.toGlobals) 1 2 ∧
      NoAnomaly 3 MinState.dirtySet (minRun sampleTrace.toGlobals) 1 2 :=
  ⟨by decide, no_belady_anomaly sampleTrace 1 2 (by decide) (by decide)⟩

/-! ## Two traces -/

/-- A permutation of the pages below `m`, as an injection of all page numbers. -/
def relabel {m : Nat} (σ : Equiv.Perm (Fin m)) : Nat ↪ Nat where
  toFun p := if h : p < m then σ ⟨p, h⟩ else p
  inj' p q hpq := by
    dsimp only at hpq
    split at hpq
    · rename_i hp
      split at hpq
      · rename_i hq
        exact congrArg Fin.val (σ.injective (Fin.ext hpq))
      · have := (σ ⟨p, hp⟩).isLt
        omega
    · rename_i hp
      split at hpq
      · rename_i hq
        have := (σ ⟨q, hq⟩).isLt
        omega
      · exact hpq

theorem relabel_of_lt {m : Nat} (σ : Equiv.Perm (Fin m)) {p : Nat} (hp : p < m) :
    relabel σ p = σ ⟨p, hp⟩ := dif_pos hp

/-- A row permuted in the matrix is a row renamed as a set. -/
theorem row_eq_map {T T' : Trace} (hm : T'.m = T.m) (σ : Equiv.Perm (Fin T.m)) {i : Nat}
    (h : ∀ p : Fin T.m, T'.a i (σ p) = T.a i p) : T'.row i = (T.row i).map (relabel σ) := by
  ext q
  rw [Globals.mem_row, Finset.mem_map]
  constructor
  · rintro ⟨hq, hone⟩
    rw [hm] at hq
    refine ⟨σ.symm ⟨q, hq⟩, ?_, ?_⟩
    · rw [Globals.mem_row]
      refine ⟨(σ.symm ⟨q, hq⟩).isLt, ?_⟩
      rw [← h, σ.apply_symm_apply]
      exact hone
    · rw [relabel_of_lt σ (σ.symm ⟨q, hq⟩).isLt, Fin.eta, σ.apply_symm_apply]
  · rintro ⟨p, hp, rfl⟩
    obtain ⟨hpm, hone⟩ := Globals.mem_row.mp hp
    rw [relabel_of_lt σ hpm, h ⟨p, hpm⟩, hm]
    exact ⟨(σ ⟨p, hpm⟩).isLt, hone⟩

/-- **MIN reports the past.**  Two traces over the same pages, of any lengths, whose first `t` rows
    agree up to one permutation of the pages: `min_policy` prints the same first `t` lines on
    both. -/
theorem min_lines_past_only (T T' : Trace) (C : Int32) (t : Nat) (ht : t ≤ T.n) (ht' : t ≤ T'.n)
    (hm : T'.m = T.m) (σ : Equiv.Perm (Fin T.m))
    (hrows : ∀ i, 1 ≤ i → i ≤ t → ∀ p : Fin T.m, T'.a i (σ p) = T.a i p) :
    ∃ out out', minPolicy T.toGlobals C = .ok out ∧ minPolicy T'.toGlobals C = .ok out' ∧
      (out.take t).length = t ∧ out.take t = out'.take t := by
  refine ⟨_, _, minPolicy_eq T C, minPolicy_eq T' C, by simp [ht], ?_⟩
  rw [take_report _ _ ht, take_report _ _ ht']
  have hmap : ∀ i, 1 ≤ i → i ≤ t → T'.row i = (T.row i).map (relabel σ) := fun i h1 h2 =>
    row_eq_map hm σ (hrows i h1 h2)
  have hcard : ∀ i, i < t → (T.row (i + 1)).card = (T'.row (i + 1)).card := by
    intro i hi
    rw [hmap (i + 1) (by omega) (by omega), Finset.card_map]
  have hnear : ∀ i, i < t → ∀ τ, i + 1 ≤ τ → τ ≤ t →
      Paging.near T.row (i + 1) τ (T.row (i + 1))
        = Paging.near T'.row (i + 1) τ (T'.row (i + 1)) := by
    intro i hi τ _ hτ
    rw [hmap (i + 1) (by omega) (by omega), Paging.near_map (relabel σ) hmap hτ]
  have hprofile := (min_refines T C).1.profile_eq (min_refines T' C).1
    (fun i _ => minBetter_farsighted T i) (fun i _ => minBetter_farsighted T' i) ht ht' hcard hnear
  apply List.map_congr_left
  intro i hi
  have hlt := List.mem_range.mp hi
  -- sizes and hits agree before the row, sizes agree after it: the whole line agrees
  obtain ⟨hD, hhits⟩ := hprofile i (by omega)
  obtain ⟨hD', -⟩ := hprofile (i + 1) (by omega)
  have hU : (minDirty T.toGlobals C i ∪ T.row (i + 1)).card
      = (minDirty T'.toGlobals C i ∪ T'.row (i + 1)).card := by
    have h1 := Paging.card_union_row T.row i (minDirty T.toGlobals C i)
    have h2 := Paging.card_union_row T'.row i (minDirty T'.toGlobals C i)
    have h3 := hhits (i + 1) (by omega) (by omega)
    have h4 := hcard i hlt
    omega
  rw [report, report, hU, hD']

/-- Two rows only, with pages 0 and 2 of `sampleTrace` exchanged: `011`, `110`. -/
def sampleRenamed : Trace where
  n := 2
  m := 3
  a i j := if (i = 2 ∧ j = 2) ∨ (i ≠ 2 ∧ j = 0) then 0 else 1
  n_lt := by decide
  m_le := by decide
  bit i j := by split <;> simp

theorem min_lines_past_only_sample :
    ∃ out out', minPolicy sampleTrace.toGlobals 1 = .ok out ∧
      minPolicy sampleRenamed.toGlobals 1 = .ok out' ∧ (out.take 2).length = 2 ∧
      out.take 2 = out'.take 2 := by
  refine min_lines_past_only sampleTrace sampleRenamed 1 2 (by decide) (by decide) rfl
    (Equiv.swap (⟨0, by decide⟩ : Fin 3) ⟨2, by decide⟩) ?_
  intro i h1 h2
  have hi : i = 1 ∨ i = 2 := by omega
  rcases hi with rfl | rfl <;> decide

/-! ## Occupancy -/

/-- The lines of a run with target `C`: one per iteration, with `dirty_set` the number of distinct
    pages seen so far, capped at `C`, and `evict` the excess of `prev_dirty` over `C`. -/
def Occupancy (T : Trace) (C : Int32) (out : List Line) : Prop :=
  out.length = T.n ∧ ∀ (i : Nat) (l : Line), out[i]? = some l → l.iter = i + 1 ∧
    (l.dirtySet : Int) = min C.toInt (Paging.seen T.row (i + 1)).card ∧
    l.evict = max 0 (l.prevDirty - C.toInt) ∧ l.evict = l.prevDirty - (l.dirtySet : Int)

theorem occupancy_of_run {T : Trace} {C : Int32} (hC : 0 ≤ C)
    {better : Nat → Nat → Nat → Prop} {D : Nat → Finset Nat}
    (h : Paging.Run T.n better T.row (sizeT C) D) :
    Occupancy T C ((List.range T.n).map (report T.row D)) := by
  refine ⟨by simp, fun i l hl => ?_⟩
  obtain ⟨hi, rfl⟩ := getElem?_report _ _ hl
  have hs : (sizeT C : Int) = C.toInt := by
    rw [sizeT_of_nonneg hC]; exact Int.toNat_of_nonneg (Int32.le_iff_toInt_le.mp hC)
  have hocc := (h.occupancy (i + 1) (by omega)).2
  have hk := (h.step i hi).card
  simp only [report]
  refine ⟨trivial, ?_, ?_, ?_⟩ <;> omega

/-- **The three policies agree on occupancy**, with no assert failing, whatever order
    `poly_policy` gives to ties. -/
theorem policies_same_occupancy (T : Trace) (C : Int32) (hC : 0 ≤ C) (R : Resolution) :
    ∃ min lru poly, minPolicy T.toGlobals C = .ok min ∧ lruPolicy T.toGlobals C = .ok lru ∧
      polyPolicy T.toGlobals R C = .ok poly ∧
      Occupancy T C min ∧ Occupancy T C lru ∧ Occupancy T C poly :=
  ⟨_, _, _, minPolicy_eq T C, lruPolicy_eq T C, polyPolicy_eq T R hC,
    occupancy_of_run hC (min_refines T C).1, occupancy_of_run hC (lru_refines T C).1,
    occupancy_of_run hC (poly_refines T R hC).1⟩

theorem policies_same_occupancy_sample : (0 : Int32) ≤ 1 ∧
    ∃ min lru poly, minPolicy sampleTrace.toGlobals 1 = .ok min ∧
      lruPolicy sampleTrace.toGlobals 1 = .ok lru ∧
      polyPolicy sampleTrace.toGlobals Resolution.ascending 1 = .ok poly ∧
      Occupancy sampleTrace 1 min ∧ Occupancy sampleTrace 1 lru ∧ Occupancy sampleTrace 1 poly :=
  ⟨by decide, policies_same_occupancy sampleTrace 1 (by decide) Resolution.ascending⟩

end QemuStudy.Policy
