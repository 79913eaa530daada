/-
  BATCH PAGING: what a policy that must shrink a set of pages can and cannot do.

  A run sees one finite set of pages per iteration (`row 1, row 2, …`).  In iteration `i + 1` the
  whole row joins the current set, and the policy then drops pages until at most `C` remain; a page
  of the row itself may be dropped at once (bypass), and the row may be larger than `C`.  The cost
  is the number of dropped pages.

  Everything here is about finite sets over an arbitrary page type:

  * `Keeps better C U D`   — `D` is a best-`C` part of `U`: `min C |U|` pages, each `better` than
                             every page of `U` left out;
  * `Run n better row C D` — `n` iterations in which a best-`C` part survives, ranked by an order
                             that may change with the iteration;
  * `Admissible`           — an ARBITRARY policy, given by the sets it evicts.

  Results, all by induction on the iteration with one step lemma each:

  1. `Run.occupancy`   — `|D i| = min C (number of distinct pages seen)`, whatever the order;
  2. `Run.inclusion`   — a larger capacity keeps a superset, larger by at most the difference
                         (needs an asymmetric order that does not depend on the capacity);
  3. `Run.optimal`     — if survivors are always used again no later than victims (`Farsighted`),
                         no admissible policy has evicted fewer pages at any iteration;
  4. `Run.profile_eq`  — under the same hypothesis the set sizes and hit counts up to iteration `t`
                         are a function of rows `1..t`, up to renaming pages.

  The crux of 3 and 4 is `Keeps.card_filter`: for a property inherited by better pages, the number
  of survivors that have it is `min C (number of candidates that have it)`.  Applied to "used again
  by iteration `τ`" it turns every step of the run into arithmetic on the counts `near`.
-/
import Mathlib.Data.Finset.Card
import Mathlib.Data.Finset.Union
import Mathlib.Algebra.BigOperators.Group.Finset.Basic
import Mathlib.Algebra.Order.BigOperators.Group.Finset
import Mathlib.Order.Interval.Finset.Nat

set_option linter.unusedSectionVars false

namespace QemuStudy.Paging

variable {α : Type*} [DecidableEq α]

/-! ## Best-`C` parts of a finite set -/

/-- `D` is what a policy with capacity `C` keeps of `U`: as many pages as fit, each of them
    `better` than every page of `U` that was dropped. -/
structure Keeps (better : α → α → Prop) (C : Nat) (U D : Finset α) : Prop where
  sub : D ⊆ U
  card : D.card = min C U.card
  best : ∀ p ∈ D, ∀ q ∈ U, q ∉ D → better p q

namespace Keeps

variable {better : α → α → Prop} {C : Nat} {U D : Finset α}

theorem card_le (h : Keeps better C U D) : D.card ≤ C := by
  rw [h.card]; exact Nat.min_le_left _ _

/-- A page is only ever dropped when the survivors fill the capacity. -/
theorem full_of_dropped (h : Keeps better C U D) {q : α} (hq : q ∈ U) (hqD : q ∉ D) :
    D.card = C ∧ C < U.card := by
  have hlt : D.card < U.card :=
    Finset.card_lt_card ⟨h.sub, fun hUD => hqD (hUD hq)⟩
  have hc := h.card
  omega

/-- **The counting lemma.**  For a property that better pages inherit, the survivors that have it
    number `min C` of the candidates that have it. -/
theorem card_filter (h : Keeps better C U D) (P : α → Prop) [DecidablePred P]
    (hP : ∀ p q, better p q → P q → P p) :
    (D.filter P).card = min C (U.filter P).card := by
  by_cases hex : ∃ q ∈ U, q ∉ D ∧ P q
  · -- some dropped page has `P`: then every survivor has it, and the survivors are `C` many
    obtain ⟨q, hqU, hqD, hPq⟩ := hex
    have hall : D.filter P = D :=
      Finset.filter_true_of_mem fun p hp => hP p q (h.best p hp q hqU hqD) hPq
    have hfull := h.full_of_dropped hqU hqD
    have hsub : D ⊆ U.filter P := fun p hp =>
      Finset.mem_filter.mpr ⟨h.sub hp, hP p q (h.best p hp q hqU hqD) hPq⟩
    have hle := Finset.card_le_card hsub
    rw [hall]; omega
  · -- no dropped page has `P`: the candidates with `P` all survive
    have hsame : U.filter P = D.filter P := by
      ext p
      simp only [Finset.mem_filter]
      constructor
      · rintro ⟨hpU, hPp⟩
        exact ⟨by by_contra hpD; exact hex ⟨p, hpU, hpD, hPp⟩, hPp⟩
      · rintro ⟨hpD, hPp⟩
        exact ⟨h.sub hpD, hPp⟩
    have hle : (D.filter P).card ≤ C :=
      Nat.le_trans (Finset.card_filter_le _ _) h.card_le
    rw [hsame]; omega

/-- **Inclusion, one step.**  Ranking a larger set by the same asymmetric order with a capacity
    larger by at least as much keeps every survivor of the smaller problem. -/
theorem subset_of_le {C₁ C₂ : Nat} {U₁ U₂ D₁ D₂ : Finset α}
    (hasym : ∀ p q, better p q → ¬ better q p)
    (h₁ : Keeps better C₁ U₁ D₁) (h₂ : Keeps better C₂ U₂ D₂)
    (hU : U₁ ⊆ U₂) (hC : C₁ ≤ C₂) (hgap : U₂.card ≤ U₁.card + (C₂ - C₁)) :
    D₁ ⊆ D₂ ∧ D₂.card ≤ D₁.card + (C₂ - C₁) := by
  refine ⟨fun p hp₁ => ?_, ?_⟩
  · by_contra hp₂
    -- `D₂` is full of pages better than `p`; those inside `U₁` all survive there next to `p`
    have hfull := (h₂.full_of_dropped (hU (h₁.sub hp₁)) hp₂).1
    have hin : D₂ ∩ U₁ ⊆ D₁.erase p := by
      intro d hd
      obtain ⟨hd₂, hdU⟩ := Finset.mem_inter.mp hd
      have hdp : better d p := h₂.best d hd₂ p (hU (h₁.sub hp₁)) hp₂
      refine Finset.mem_erase.mpr ⟨fun hdp' => hp₂ (hdp' ▸ hd₂), ?_⟩
      by_contra hd₁
      exact hasym d p hdp (h₁.best p hp₁ d hdU hd₁)
    have hout : D₂ \ U₁ ⊆ U₂ \ U₁ := Finset.sdiff_subset_sdiff h₂.sub (Finset.Subset.refl _)
    have hcin := Finset.card_le_card hin
    have hcout := Finset.card_le_card hout
    have hsplit := Finset.card_inter_add_card_sdiff D₂ U₁
    have hUsplit := Finset.card_sdiff_add_card_eq_card hU
    have herase := Finset.card_erase_of_mem hp₁
    have hpos : 0 < D₁.card := Finset.card_pos.mpr ⟨p, hp₁⟩
    have hle₁ := h₁.card_le
    omega
  · have hc₁ := h₁.card
    have hc₂ := h₂.card
    have hle := Finset.card_le_card hU
    omega

end Keeps

/-! ## Runs: one best-`C` part per iteration -/

/-- `n` iterations of ranked eviction: from the empty set, row `i + 1` joins and a best-`C` part
    (in the order of iteration `i + 1`) survives. -/
structure Run (n : Nat) (better : Nat → α → α → Prop) (row : Nat → Finset α) (C : Nat)
    (D : Nat → Finset α) : Prop where
  start : D 0 = ∅
  step : ∀ i, i < n → Keeps (better (i + 1)) C (D i ∪ row (i + 1)) (D (i + 1))

/-- The distinct pages of rows `1..i`. -/
def seen (row : Nat → Finset α) (i : Nat) : Finset α :=
  (Finset.range i).biUnion fun j => row (j + 1)

theorem seen_succ (row : Nat → Finset α) (i : Nat) :
    seen row (i + 1) = seen row i ∪ row (i + 1) := by
  rw [seen, Finset.range_add_one, Finset.biUnion_insert, Finset.union_comm, seen]

theorem row_subset_seen (row : Nat → Finset α) {i k : Nat} (h : i < k) :
    row (i + 1) ⊆ seen row k :=
  Finset.subset_biUnion_of_mem (fun j => row (j + 1)) (Finset.mem_range.mpr h)

theorem seen_subset {row : Nat → Finset α} {S : Finset α} (h : ∀ i, row i ⊆ S) (i : Nat) :
    seen row i ⊆ S := Finset.biUnion_subset.mpr fun j _ => h (j + 1)

/-- Adding the same row to both sets keeps an inclusion and does not widen the gap. -/
theorem union_gap {A B : Finset α} {g : Nat} (hAB : A ⊆ B) (hg : B.card ≤ A.card + g)
    (R : Finset α) : A ∪ R ⊆ B ∪ R ∧ (B ∪ R).card ≤ (A ∪ R).card + g := by
  have hsub : A ∪ R ⊆ B ∪ R := Finset.union_subset_union hAB (Finset.Subset.refl _)
  refine ⟨hsub, ?_⟩
  have hdiff : (B ∪ R) \ (A ∪ R) ⊆ B \ A := by
    intro x hx
    simp only [Finset.mem_sdiff, Finset.mem_union, not_or] at hx ⊢
    tauto
  have h1 := Finset.card_le_card hdiff
  have h2 := Finset.card_sdiff_add_card_eq_card hsub
  have h3 := Finset.card_sdiff_add_card_eq_card hAB
  omega

section Runs

variable {n C : Nat} {better : Nat → α → α → Prop} {row D : Nat → Finset α}

/-- **Occupancy.**  The set is the seen pages as long as they fit, and stays full afterwards. -/
theorem Run.occupancy (h : Run n better row C D) : ∀ i, i ≤ n →
    D i ⊆ seen row i ∧ (D i).card = min C (seen row i).card := by
  intro i
  induction i with
  | zero => intro _; simp [h.start, seen]
  | succ i ih =>
    intro hi
    obtain ⟨hsub, hcard⟩ := ih (by omega)
    have hk := h.step i (by omega)
    have hUsub : D i ∪ row (i + 1) ⊆ seen row (i + 1) := by
      rw [seen_succ]; exact Finset.union_subset_union hsub (Finset.Subset.refl _)
    refine ⟨hk.sub.trans hUsub, ?_⟩
    rw [hk.card]
    rcases Nat.lt_or_ge (D i).card C with hlt | hge
    · -- not full yet: nothing seen was ever dropped
      have hDi : D i = seen row i := Finset.eq_of_subset_of_card_le hsub (by omega)
      rw [hDi, seen_succ]
    · have h1 : (D i).card ≤ (D i ∪ row (i + 1)).card :=
        Finset.card_le_card Finset.subset_union_left
      have h2 := Finset.card_le_card hUsub
      omega

/-- **No anomaly.**  Two runs over the same rows and the same asymmetric orders: the larger
    capacity holds a superset, larger by at most the difference of the capacities. -/
theorem Run.inclusion {C₁ C₂ : Nat} {D₁ D₂ : Nat → Finset α}
    (hasym : ∀ i p q, better i p q → ¬ better i q p)
    (h₁ : Run n better row C₁ D₁) (h₂ : Run n better row C₂ D₂) (hC : C₁ ≤ C₂) :
    ∀ i, i ≤ n → D₁ i ⊆ D₂ i ∧ (D₂ i).card ≤ (D₁ i).card + (C₂ - C₁) := by
  intro i
  induction i with
  | zero => intro _; simp [h₁.start, h₂.start]
  | succ i ih =>
    intro hi
    obtain ⟨hsub, hgap⟩ := ih (by omega)
    obtain ⟨hU, hUgap⟩ := union_gap hsub hgap (row (i + 1))
    exact Keeps.subset_of_le (hasym (i + 1)) (h₁.step i (by omega)) (h₂.step i (by omega))
      hU hC hUgap

end Runs

/-! ## Counting the pages used again by a given iteration -/

/-- `p` occurs in one of the rows `i + 1, …, τ`. -/
def UsedBy (row : Nat → Finset α) (i τ : Nat) (p : α) : Prop := ∃ j ∈ Finset.Ioc i τ, p ∈ row j

instance (row : Nat → Finset α) (i τ : Nat) : DecidablePred (UsedBy row i τ) := fun p =>
  inferInstanceAs (Decidable (∃ j ∈ Finset.Ioc i τ, p ∈ row j))

/-- How many pages of `S` are used again in rows `i + 1, …, τ`. -/
def near (row : Nat → Finset α) (i τ : Nat) (S : Finset α) : Nat :=
  (S.filter (UsedBy row i τ)).card

/-- No survivor of iteration `i` is used again later than a victim, looking as far as row `n`. -/
def Farsighted (n : Nat) (row : Nat → Finset α) (i : Nat) (better : α → α → Prop) : Prop :=
  ∀ p q, better p q → ∀ τ, τ ≤ n → UsedBy row i τ q → UsedBy row i τ p

theorem near_self (row : Nat → Finset α) (i : Nat) (S : Finset α) : near row i i S = 0 := by
  rw [near, Finset.card_eq_zero, Finset.filter_eq_empty_iff]
  rintro p - ⟨j, hj, -⟩
  simp at hj

theorem near_le_card (row : Nat → Finset α) (i τ : Nat) (S : Finset α) :
    near row i τ S ≤ S.card := Finset.card_filter_le _ _

theorem near_mono (row : Nat → Finset α) (i τ : Nat) {S T : Finset α} (h : S ⊆ T) :
    near row i τ S ≤ near row i τ T :=
  Finset.card_le_card (Finset.filter_subset_filter _ h)

theorem usedBy_succ_left {row : Nat → Finset α} {i τ : Nat} {p : α} (hi : i + 1 ≤ τ) :
    UsedBy row i τ p ↔ p ∈ row (i + 1) ∨ UsedBy row (i + 1) τ p := by
  simp only [UsedBy, Finset.mem_Ioc]
  constructor
  · rintro ⟨j, ⟨hij, hjτ⟩, hp⟩
    rcases Nat.lt_or_ge (i + 1) j with hlt | hge
    · exact Or.inr ⟨j, ⟨hlt, hjτ⟩, hp⟩
    · have hj : j = i + 1 := by omega
      exact Or.inl (hj ▸ hp)
  · rintro (hp | ⟨j, ⟨hij, hjτ⟩, hp⟩)
    · exact ⟨i + 1, ⟨by omega, hi⟩, hp⟩
    · exact ⟨j, ⟨by omega, hjτ⟩, hp⟩

/-- The pages of `S` used in the very next row are those the row hits. -/
theorem near_next (row : Nat → Finset α) (i : Nat) (S : Finset α) :
    near row i (i + 1) S = (S ∩ row (i + 1)).card := by
  rw [near]
  congr 1
  ext p
  rw [Finset.mem_filter, Finset.mem_inter, usedBy_succ_left (Nat.le_refl _)]
  have hno : ¬ UsedBy row (i + 1) (i + 1) p := by rintro ⟨j, hj, -⟩; simp at hj
  tauto

/-- **A row joins.**  The hit pages move from "used in row `i + 1`" to wherever their next use is;
    all other counts stay. -/
theorem near_union (row : Nat → Finset α) {i τ : Nat} (hi : i + 1 ≤ τ) (S : Finset α) :
    near row (i + 1) τ (S ∪ row (i + 1)) + near row i (i + 1) S
      = near row i τ S + near row (i + 1) τ (row (i + 1)) := by
  have hU : (S ∪ row (i + 1)).filter (UsedBy row (i + 1) τ)
      = (S \ row (i + 1)).filter (UsedBy row i τ)
        ∪ (row (i + 1)).filter (UsedBy row (i + 1) τ) := by
    ext p
    simp only [Finset.mem_filter, Finset.mem_union, Finset.mem_sdiff, usedBy_succ_left hi]
    tauto
  have hS : S.filter (UsedBy row i τ)
      = (S \ row (i + 1)).filter (UsedBy row i τ) ∪ (S ∩ row (i + 1)) := by
    ext p
    simp only [Finset.mem_filter, Finset.mem_union, Finset.mem_sdiff, Finset.mem_inter,
      usedBy_succ_left hi]
    tauto
  have hdU : Disjoint ((S \ row (i + 1)).filter (UsedBy row i τ))
      ((row (i + 1)).filter (UsedBy row (i + 1) τ)) :=
    Finset.disjoint_filter_filter Finset.sdiff_disjoint
  have hdS : Disjoint ((S \ row (i + 1)).filter (UsedBy row i τ)) (S ∩ row (i + 1)) := by
    rw [Finset.disjoint_left]
    intro p hp hp'
    exact (Finset.mem_sdiff.mp (Finset.mem_of_mem_filter p hp)).2 (Finset.mem_inter.mp hp').2
  rw [near_next, near, near, near, hU, hS, Finset.card_union_of_disjoint hdU,
    Finset.card_union_of_disjoint hdS]
  omega

/-- The size of the set after a row joins, by its number of hits. -/
theorem card_union_row (row : Nat → Finset α) (i : Nat) (S : Finset α) :
    (S ∪ row (i + 1)).card + near row i (i + 1) S = S.card + (row (i + 1)).card := by
  rw [near_next]; exact Finset.card_union_add_card_inter _ _

/-- Evicting by a farsighted order caps every count at `C`. -/
theorem Keeps.near_eq {n i C : Nat} {row : Nat → Finset α} {better : α → α → Prop}
    {U D : Finset α} (h : Keeps better C U D) (hfar : Farsighted n row i better) {τ : Nat}
    (hτ : τ ≤ n) : near row i τ D = min C (near row i τ U) :=
  h.card_filter _ fun p q hpq => hfar p q hpq τ hτ

/-! ## Optimality against every admissible policy -/

/-- The set an arbitrary policy holds after iteration `i`, given the sets it evicts. -/
def after (row evicted : Nat → Finset α) : Nat → Finset α
  | 0 => ∅
  | i + 1 => (after row evicted i ∪ row (i + 1)) \ evicted (i + 1)

/-- `evicted` is a legal history for capacity `C`: in each of the `n` iterations it drops pages the
    policy holds once the row has joined, and at most `C` remain. -/
structure Admissible (n : Nat) (row : Nat → Finset α) (C : Nat) (evicted : Nat → Finset α) :
    Prop where
  sub : ∀ i, i < n → evicted (i + 1) ⊆ after row evicted i ∪ row (i + 1)
  card_le : ∀ i, i < n → (after row evicted (i + 1)).card ≤ C

section Optimal

variable {n C : Nat} {better : Nat → α → α → Prop} {row D evicted : Nat → Finset α}

/-- Pages dropped by a run in iterations `1..t`. -/
def dropped (row D : Nat → Finset α) (t : Nat) : Nat :=
  ∑ i ∈ Finset.range t, ((D i ∪ row (i + 1)).card - (D (i + 1)).card)

theorem dropped_succ (row D : Nat → Finset α) (t : Nat) :
    dropped row D (t + 1) = dropped row D t + ((D t ∪ row (t + 1)).card - (D (t + 1)).card) :=
  Finset.sum_range_succ _ _

theorem after_subset_seen (row evicted : Nat → Finset α) (i : Nat) :
    after row evicted i ⊆ seen row i := by
  induction i with
  | zero => exact Finset.empty_subset _
  | succ i ih =>
    rw [seen_succ]
    exact Finset.sdiff_subset.trans (Finset.union_subset_union ih (Finset.Subset.refl _))

/-- **The potential invariant.**  Write `e` for pages evicted so far: at every horizon `τ`,
    `e(run) + |run| + near τ (policy) ≤ e(policy) + |policy| + near τ (run)`.  A row joining
    changes both sides by the same amount; an eviction can only lower the left side unless the run
    is full at `τ`, and then the horizon `τ = i + 1`, where both `near` counts vanish, bounds it. -/
theorem Run.potential (h : Run n better row C D)
    (hfar : ∀ i, i ≤ n → Farsighted n row i (better i)) (hP : Admissible n row C evicted) :
    ∀ i, i ≤ n → ∀ τ, i ≤ τ → τ ≤ n →
      dropped row D i + (D i).card + near row i τ (after row evicted i)
        ≤ (∑ j ∈ Finset.range i, (evicted (j + 1)).card) + (after row evicted i).card
          + near row i τ (D i) := by
  intro i
  induction i with
  | zero => intro _ τ _ _; simp [dropped, h.start, after, near]
  | succ i ih =>
    intro hi τ hiτ hτ
    have hk := h.step i (by omega)
    -- both sides after the row has joined, before anything is evicted
    have hjoin : ∀ τ', i + 1 ≤ τ' → τ' ≤ n →
        dropped row D i + (D i ∪ row (i + 1)).card
            + near row (i + 1) τ' (after row evicted i ∪ row (i + 1))
          ≤ (∑ j ∈ Finset.range i, (evicted (j + 1)).card)
            + (after row evicted i ∪ row (i + 1)).card
            + near row (i + 1) τ' (D i ∪ row (i + 1)) := by
      intro τ' hiτ' hτ'
      have hI := ih (by omega) τ' (by omega) hτ'
      have hM := near_union row hiτ' (D i)
      have hA := near_union row hiτ' (after row evicted i)
      have hMc := card_union_row row i (D i)
      have hAc := card_union_row row i (after row evicted i)
      omega
    have hτcase := hjoin τ hiτ hτ
    have hbase := hjoin (i + 1) (Nat.le_refl _) hi
    rw [near_self, near_self] at hbase
    have hMnear := hk.near_eq (hfar (i + 1) hi) hτ
    have hAsub : after row evicted (i + 1) ⊆ after row evicted i ∪ row (i + 1) :=
      Finset.sdiff_subset
    have hAnear := near_mono row (i + 1) τ hAsub
    have hAle := Nat.le_trans (near_le_card row (i + 1) τ _) (hP.card_le i (by omega))
    have hMcard := Finset.card_le_card hk.sub
    have hev := Finset.card_sdiff_add_card_eq_card (hP.sub i (by omega))
    change (after row evicted (i + 1)).card + (evicted (i + 1)).card = _ at hev
    rw [dropped_succ, Finset.sum_range_succ]
    omega

/-- **Optimality at every prefix.**  A farsighted run has never dropped more pages than any
    admissible policy with the same capacity. -/
theorem Run.optimal (h : Run n better row C D)
    (hfar : ∀ i, i ≤ n → Farsighted n row i (better i)) (hP : Admissible n row C evicted)
    {t : Nat} (ht : t ≤ n) :
    dropped row D t ≤ ∑ j ∈ Finset.range t, (evicted (j + 1)).card := by
  have hpot := h.potential hfar hP t ht t (Nat.le_refl _) ht
  rw [near_self, near_self] at hpot
  have hocc := (h.occupancy t ht).2
  have hsub := Finset.card_le_card (after_subset_seen row evicted t)
  have hC : (after row evicted t).card ≤ C := by
    cases t with
    | zero => simp [after]
    | succ t => exact hP.card_le t (by omega)
  omega

/-- A ranked run is itself an admissible policy: it evicts what it does not keep. -/
theorem Run.admissible (h : Run n better row C D) :
    ∃ evicted, Admissible n row C evicted ∧
      ∀ t, t ≤ n → ∑ j ∈ Finset.range t, (evicted (j + 1)).card = dropped row D t := by
  -- `evicted` at `i` is the difference of the two sets of iteration `i`
  refine ⟨fun i => (D (i - 1) ∪ row i) \ D i, ?_, ?_⟩
  · have hafter : ∀ i, i ≤ n → after row (fun i => (D (i - 1) ∪ row i) \ D i) i = D i := by
      intro i
      induction i with
      | zero => intro _; rw [after, h.start]
      | succ i ih =>
        intro hi
        rw [after, ih (by omega), Nat.add_sub_cancel]
        exact Finset.sdiff_sdiff_eq_self (h.step i (by omega)).sub
    refine ⟨fun i hi => ?_, fun i hi => ?_⟩
    · rw [hafter i (by omega), Nat.add_sub_cancel]; exact Finset.sdiff_subset
    · rw [hafter (i + 1) (by omega)]; exact (h.step i hi).card_le
  · intro t ht
    refine Finset.sum_congr rfl fun i hi => ?_
    have hlt := Finset.mem_range.mp hi
    show ((D (i + 1 - 1) ∪ row (i + 1)) \ D (i + 1)).card = _
    rw [Nat.add_sub_cancel]
    exact Finset.card_sdiff_of_subset (h.step i (by omega)).sub

end Optimal

/-! ## The sizes of a farsighted run depend on the past only -/

/-- **Two runs, two page types.**  If rows `1..t` of two systems agree in size and in how many of
    their pages are used again by each iteration up to `t`, the two farsighted runs agree up to
    `t` in their sizes and in the number of pages each coming row hits — although the sets
    themselves, ranked by different futures, may have nothing to do with each other. -/
theorem Run.profile_eq {β : Type*} [DecidableEq β] {n n' C t : Nat}
    {better : Nat → α → α → Prop} {row D : Nat → Finset α}
    {better' : Nat → β → β → Prop} {row' D' : Nat → Finset β}
    (h : Run n better row C D) (h' : Run n' better' row' C D')
    (hfar : ∀ i, i ≤ n → Farsighted n row i (better i))
    (hfar' : ∀ i, i ≤ n' → Farsighted n' row' i (better' i))
    (ht : t ≤ n) (ht' : t ≤ n')
    (hcard : ∀ i, i < t → (row (i + 1)).card = (row' (i + 1)).card)
    (hnear : ∀ i, i < t → ∀ τ, i + 1 ≤ τ → τ ≤ t →
      near row (i + 1) τ (row (i + 1)) = near row' (i + 1) τ (row' (i + 1))) :
    ∀ i, i ≤ t → (D i).card = (D' i).card ∧
      ∀ τ, i ≤ τ → τ ≤ t → near row i τ (D i) = near row' i τ (D' i) := by
  intro i
  induction i with
  | zero => intro _; simp [h.start, h'.start, near]
  | succ i ih =>
    intro hi
    obtain ⟨hc, hn⟩ := ih (by omega)
    have hk := h.step i (by omega)
    have hk' := h'.step i (by omega)
    have hhit := hn (i + 1) (by omega) hi
    have hrow := hcard i (by omega)
    have hU := card_union_row row i (D i)
    have hU' := card_union_row row' i (D' i)
    refine ⟨?_, fun τ hiτ hτ => ?_⟩
    · have h1 := hk.card
      have h2 := hk'.card
      omega
    · have h1 := hk.near_eq (hfar (i + 1) (by omega)) (Nat.le_trans hτ ht)
      have h2 := hk'.near_eq (hfar' (i + 1) (by omega)) (Nat.le_trans hτ ht')
      have h3 := near_union row hiτ (D i)
      have h4 := near_union row' hiτ (D' i)
      have h5 := hn τ (by omega) hτ
      have h6 := hnear i (by omega) τ hiτ hτ
      omega

/-- Renaming the pages of rows `1..t` by an injection changes none of the counts up to `t`. -/
theorem near_map {β : Type*} [DecidableEq β] {row : Nat → Finset α} {row' : Nat → Finset β}
    (f : α ↪ β) {t : Nat} (hrow : ∀ i, 1 ≤ i → i ≤ t → row' i = (row i).map f)
    {i τ : Nat} (hτ : τ ≤ t) (S : Finset α) :
    near row' i τ (S.map f) = near row i τ S := by
  have hused : ∀ p, UsedBy row' i τ (f p) ↔ UsedBy row i τ p := by
    intro p
    simp only [UsedBy, Finset.mem_Ioc]
    refine exists_congr fun j => and_congr_right fun hj => ?_
    rw [hrow j (by omega) (by omega), Finset.mem_map' f]
  rw [near, Finset.filter_map, Finset.card_map, near]
  congr 1
  exact Finset.filter_congr fun p _ => hused p

end QemuStudy.Paging
