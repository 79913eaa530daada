/-
  RANKED RUNS IN CLOSED FORM, and what ties leave open.

  `Paging.Run` only compares pages that are still held: once a page is dropped, the run forgets it.
  This module compares the held pages with EVERY page seen so far.

  1. `Run.stack` — if the order of each iteration is transitive, and a page outside the next row
     never loses ground it did not have (`better i p q → better (i + 1) p q` for `q` outside row
     `i + 1`), then `D i` is a best-`C` part of `seen row i`, whatever was dropped and re-joined on
     the way.  The crux: a page that enters a full set drives some page `r` out, and `r` was better
     than everything dropped earlier.

  2. `Keeps.eq_greatest` — for an injective key a best-`C` part is unique: the pages that fewer
     than `C` others exceed.

  3. Ranking by a score with TIES (`notWorse f p q`: `p` does not score below `q`).  A best-`C`
     part is then unique only up to the one class of equal scores the capacity cuts through
     (`Cut`).  `keeps_hits_iff` says exactly when all best-`C` parts meet a given row equally
     often, and `Counts.reaches` says that every best-`C` part of `seen row i` is what SOME run
     holds after iteration `i`: the open choices of a run are as wide as the scores allow.
-/
import QemuStudy.Lib.Paging
import Mathlib.Data.Finset.Max
import Mathlib.Data.Prod.Lex
import Mathlib.Order.BooleanAlgebra.Basic

set_option linter.unusedSectionVars false

namespace QemuStudy.Paging

variable {α : Type*} [DecidableEq α]

/-! ## Held pages against all pages seen -/

section Stack

variable {n C : Nat} {better : Nat → α → α → Prop} {row D : Nat → Finset α}

/-- A page that enters a full set drives a held page out. -/
theorem Keeps.exists_driven_out {better : α → α → Prop} {U A B : Finset α}
    (h : Keeps better C U B) (hfull : A.card = C) {p : α} (hp : p ∈ B) (hpA : p ∉ A) :
    ∃ r ∈ A, r ∉ B := by
  by_contra hno
  have hsub : A ⊆ B.erase p := by
    intro r hr
    refine Finset.mem_erase.mpr ⟨fun heq => hpA (heq ▸ hr), ?_⟩
    by_contra hrB
    exact hno ⟨r, hr, hrB⟩
  have h1 := Finset.card_le_card hsub
  have h2 := Finset.card_erase_add_one hp
  have h3 := h.card_le
  omega

/-- **The stack property.**  The held pages are a best-`C` part of all pages seen. -/
theorem Run.stack (htrans : ∀ i p q r, better i p q → better i q r → better i p r)
    (hpersist : ∀ i p q, i < n → q ∉ row (i + 1) → better i p q → better (i + 1) p q)
    (h : Run n better row C D) :
    ∀ i, i ≤ n → Keeps (better i) C (seen row i) (D i) := by
  intro i
  induction i with
  | zero =>
    intro hi
    obtain ⟨hsub, hcard⟩ := h.occupancy 0 hi
    refine ⟨hsub, hcard, fun p hp => ?_⟩
    rw [h.start] at hp
    exact absurd hp (Finset.notMem_empty p)
  | succ i ih =>
    intro hi
    obtain ⟨hsub, hcard⟩ := h.occupancy (i + 1) hi
    have hold := ih (by omega)
    have hstep := h.step i (by omega)
    refine ⟨hsub, hcard, fun p hp q hq hqD => ?_⟩
    by_cases hqU : q ∈ D i ∪ row (i + 1)
    · exact hstep.best p hp q hqU hqD
    · -- `q` was dropped before and does not come back now
      have hqD' : q ∉ D i := fun hmem => hqU (Finset.mem_union_left _ hmem)
      have hqrow : q ∉ row (i + 1) := fun hmem => hqU (Finset.mem_union_right _ hmem)
      rw [seen_succ, Finset.mem_union] at hq
      have hqseen : q ∈ seen row i := hq.resolve_right hqrow
      by_cases hpD : p ∈ D i
      · exact hpersist i p q (by omega) hqrow (hold.best p hpD q hqseen hqD')
      · have hfull := (hold.full_of_dropped hqseen hqD').1
        obtain ⟨r, hr, hrD⟩ := hstep.exists_driven_out hfull hp hpD
        have hpr : better (i + 1) p r := hstep.best p hp r (Finset.mem_union_left _ hr) hrD
        have hrq : better (i + 1) r q :=
          hpersist i r q (by omega) hqrow (hold.best r hr q hqseen hqD')
        exact htrans (i + 1) p r q hpr hrq

end Stack

/-! ## The best part for an injective key -/

section Greatest

variable {β : Type*} [LinearOrder β]

/-- The elements of `A` that fewer than `k` others exceed: for an injective key the `k` greatest. -/
def greatest (key : α → β) (k : Nat) (A : Finset α) : Finset α :=
  A.filter fun p => (A.filter fun q => key p < key q).card < k

/-- **Uniqueness.**  What is kept by a key are the `C` greatest elements. -/
theorem Keeps.eq_greatest {better : α → α → Prop} {C : Nat} {U D : Finset α} (key : α → β)
    (h : Keeps better C U D) (hkey : ∀ p ∈ U, ∀ q ∈ U, better p q → key q < key p) :
    D = greatest key C U := by
  ext p
  rw [greatest, Finset.mem_filter]
  constructor
  · intro hp
    refine ⟨h.sub hp, ?_⟩
    have hin : (U.filter fun q => key p < key q) ⊆ D.erase p := by
      intro q hq
      obtain ⟨hqU, hlt⟩ := Finset.mem_filter.mp hq
      refine Finset.mem_erase.mpr ⟨fun heq => absurd hlt (heq ▸ lt_irrefl _), ?_⟩
      by_contra hqD
      exact absurd hlt (lt_asymm (hkey p (h.sub hp) q hqU (h.best p hp q hqU hqD)))
    have h1 := Finset.card_le_card hin
    have h2 := Finset.card_erase_add_one hp
    have h3 := h.card_le
    omega
  · rintro ⟨hpU, hlt⟩
    by_contra hpD
    -- a dropped element is exceeded by all `C` survivors
    have hsub : D ⊆ U.filter fun q => key p < key q := fun q hq =>
      Finset.mem_filter.mpr ⟨h.sub hq, hkey q (h.sub hq) p hpU (h.best q hq p hpU hpD)⟩
    have h1 := Finset.card_le_card hsub
    have h2 := (h.full_of_dropped hpU hpD).1
    omega

/-- The dropped elements are the best part of the opposite order. -/
theorem Keeps.compl {better : α → α → Prop} {C : Nat} {U D : Finset α} (h : Keeps better C U D) :
    Keeps (fun p q => better q p) (U.card - C) U (U \ D) := by
  refine ⟨Finset.sdiff_subset, ?_, fun p hp q hq hqD => ?_⟩
  · rw [Finset.card_sdiff_of_subset h.sub, h.card]
    omega
  · obtain ⟨hpU, hpD⟩ := Finset.mem_sdiff.mp hp
    have hqD' : q ∈ D := by
      by_contra hno
      exact hqD (Finset.mem_sdiff.mpr ⟨hq, hno⟩)
    exact h.best q hqD' p hpU hpD

end Greatest

/-! ## Scores with ties -/

section Score

variable {β : Type*} [LinearOrder β]

/-- `p` does not score below `q`. -/
def notWorse (f : α → β) (p q : α) : Prop := ¬ f p < f q

/-- Some best-`C` part always exists: drop a lowest element until the rest fits. -/
theorem exists_keeps (f : α → β) (C : Nat) (U : Finset α) : ∃ D, Keeps (notWorse f) C U D := by
  induction U using Finset.strongInduction with
  | _ U ih =>
    rcases Nat.lt_or_ge C U.card with hlt | hge
    · obtain ⟨x, hx, hmin⟩ := Finset.exists_min_image U f (Finset.card_pos.mp (by omega))
      obtain ⟨D, hD⟩ := ih (U.erase x) (Finset.erase_ssubset hx)
      have hcard := Finset.card_erase_add_one hx
      refine ⟨D, hD.sub.trans (Finset.erase_subset _ _), ?_, fun p hp q hq hqD => ?_⟩
      · have := hD.card
        omega
      · by_cases hqx : q = x
        · subst hqx
          exact not_lt.mpr (hmin p (Finset.mem_of_mem_erase (hD.sub hp)))
        · exact hD.best p hp q (Finset.mem_erase.mpr ⟨hqx, hq⟩) hqD
    · exact ⟨U, Finset.Subset.refl _, by omega, fun p _ q hq hqU => absurd hq hqU⟩

/-- The score, with ties broken by a number. -/
def refined (f : α → β) (tie : α → Nat) (x : α) : β ×ₗ Nat := toLex (f x, tie x)

theorem refined_lt {f : α → β} {tie : α → Nat} {x y : α} :
    refined f tie x < refined f tie y ↔ f x < f y ∨ f x = f y ∧ tie x < tie y :=
  Prod.Lex.toLex_lt_toLex

/-- Breaking ties is one way of ranking by the score. -/
theorem Keeps.of_refined {f : α → β} {tie : α → Nat} {C : Nat} {U D : Finset α}
    (h : Keeps (notWorse (refined f tie)) C U D) : Keeps (notWorse f) C U D :=
  ⟨h.sub, h.card, fun p hp q hq hqD hlt => h.best p hp q hq hqD (refined_lt.mpr (Or.inl hlt))⟩

/-- A page that outscores a kept page is kept. -/
theorem Keeps.mem_of_lt {f : α → β} {C : Nat} {U D : Finset α} (h : Keeps (notWorse f) C U D)
    {p q : α} (hp : p ∈ D) (hq : q ∈ U) (hlt : f p < f q) : q ∈ D := by
  by_contra hqD
  exact h.best p hp q hq hqD hlt

/-- Ties broken in favour of a best part `K` leave `K`. -/
theorem Keeps.eq_of_preferred {f : α → β} {C : Nat} {U X K : Finset α}
    (hX : Keeps (notWorse (refined f fun x => if x ∈ K then 1 else 0)) C U X)
    (hK : Keeps (notWorse f) C U K) : X = K := by
  refine Finset.eq_of_subset_of_card_le (fun p hpX => ?_) (by rw [hX.card, hK.card])
  by_contra hpK
  -- then some page of `K` was dropped, which scores no less and is preferred
  obtain ⟨q, hqK, hqX⟩ : ∃ q ∈ K, q ∉ X := by
    by_contra hno
    have hsub : K ⊆ X := fun q hq => by
      by_contra hqX
      exact hno ⟨q, hq, hqX⟩
    have heq := Finset.eq_of_subset_of_card_le hsub (by rw [hX.card, hK.card])
    exact hpK (heq ▸ hpX)
  have hle : f p ≤ f q := not_lt.mp (hK.best q hqK p (hX.sub hpX) hpK)
  refine hX.best p hpX q (hK.sub hqK) hqX (refined_lt.mpr ?_)
  rcases lt_or_eq_of_le hle with hlt | heq
  · exact Or.inl hlt
  · refine Or.inr ⟨heq, ?_⟩
    rw [if_neg hpK, if_pos hqK]
    omega

/-- The capacity `C` cuts through the pages of `U` that score like `p`: not all of them fit, but
    some do. -/
def Cut (f : α → β) (C : Nat) (U : Finset α) (p : α) : Prop :=
  (U.filter fun x => f p < f x).card < C ∧ C < (U.filter fun x => f p ≤ f x).card

instance (f : α → β) (C : Nat) (U : Finset α) (p : α) : Decidable (Cut f C U p) :=
  inferInstanceAs (Decidable (_ ∧ _))

/-- Where two best-`C` parts differ they hold pages of one cut class. -/
theorem Keeps.cut_of_differ {f : α → β} {C : Nat} {U X Y : Finset α}
    (hX : Keeps (notWorse f) C U X) (hY : Keeps (notWorse f) C U Y) {p q : α}
    (hp : p ∈ X \ Y) (hq : q ∈ Y \ X) : f p = f q ∧ Cut f C U p := by
  obtain ⟨hpX, hpY⟩ := Finset.mem_sdiff.mp hp
  obtain ⟨hqY, hqX⟩ := Finset.mem_sdiff.mp hq
  have hpq : f q ≤ f p := not_lt.mp (hX.best p hpX q (hY.sub hqY) hqX)
  have hqp : f p ≤ f q := not_lt.mp (hY.best q hqY p (hX.sub hpX) hpY)
  have hfull := (hX.full_of_dropped (hY.sub hqY) hqX).1
  refine ⟨le_antisymm hqp hpq, ?_, ?_⟩
  · -- whatever outscores `p` is kept next to `p`
    have hsub : (U.filter fun x => f p < f x) ⊆ X.erase p := by
      intro x hx
      obtain ⟨hxU, hlt⟩ := Finset.mem_filter.mp hx
      exact Finset.mem_erase.mpr
        ⟨fun heq => absurd hlt (heq ▸ lt_irrefl _), hX.mem_of_lt hpX hxU hlt⟩
    have h1 := Finset.card_le_card hsub
    have h2 := Finset.card_erase_add_one hpX
    omega
  · -- all of `X` scores at least like `p`, and so does `q`
    have hsub : insert q X ⊆ U.filter fun x => f p ≤ f x := by
      intro x hx
      rcases Finset.mem_insert.mp hx with rfl | hx
      · exact Finset.mem_filter.mpr ⟨hY.sub hqY, hqp⟩
      · have hqx : f q ≤ f x := not_lt.mp (hX.best x hx q (hY.sub hqY) hqX)
        exact Finset.mem_filter.mpr ⟨hX.sub hx, hqp.trans hqx⟩
    have h1 := Finset.card_le_card hsub
    rw [Finset.card_insert_of_notMem hqX] at h1
    omega

/-- In a cut class, any page `p` can be kept and any other page `q` dropped. -/
theorem exists_keeps_split {f : α → β} {C : Nat} {U : Finset α} {p q : α} (hp : p ∈ U)
    (hne : p ≠ q) (hpq : f p = f q) (hcut : Cut f C U p) :
    ∃ D, Keeps (notWorse f) C U D ∧ p ∈ D ∧ q ∉ D := by
  -- within the class, `p` first and `q` last
  obtain ⟨D, hD⟩ := exists_keeps
    (refined f fun x => if x = p then 2 else if x = q then 0 else 1) C U
  have hf := hD.of_refined
  refine ⟨D, hf, ?_, ?_⟩
  · by_contra hpD
    have hfull := (hf.full_of_dropped hp hpD).1
    have hsub : D ⊆ U.filter fun x => f p < f x := by
      intro x hx
      refine Finset.mem_filter.mpr ⟨hf.sub hx, ?_⟩
      by_contra hnlt
      have hle := not_lt.mp (hf.best x hx p hp hpD)
      have heq : f x = f p := le_antisymm (not_lt.mp hnlt) hle
      refine hD.best x hx p hp hpD (refined_lt.mpr (Or.inr ⟨heq, ?_⟩))
      rw [if_pos rfl, if_neg (fun h : x = p => hpD (h ▸ hx))]
      split <;> omega
    have h1 := Finset.card_le_card hsub
    have h2 := hcut.1
    omega
  · intro hqD
    have hsub : (U.filter fun x => f p ≤ f x) ⊆ D := by
      intro x hx
      obtain ⟨hxU, hle⟩ := Finset.mem_filter.mp hx
      by_contra hxD
      have hge : f x ≤ f q := not_lt.mp (hf.best q hqD x hxU hxD)
      have heq : f x = f q := le_antisymm hge (hpq ▸ hle)
      refine hD.best q hqD x hxU hxD (refined_lt.mpr (Or.inr ⟨heq.symm, ?_⟩))
      rw [if_neg (Ne.symm hne), if_pos rfl, if_neg (fun h : x = q => hxD (h ▸ hqD))]
      split <;> omega
    have h1 := Finset.card_le_card hsub
    have h2 := hf.card_le
    have h3 := hcut.2
    omega

/-- Two pages of equal score, one kept and one dropped, may change places. -/
theorem Keeps.swap {f : α → β} {C : Nat} {U D : Finset α} (h : Keeps (notWorse f) C U D) {p q : α}
    (hp : p ∈ D) (hq : q ∈ U) (hqD : q ∉ D) (hpq : f p = f q) :
    Keeps (notWorse f) C U (insert q (D.erase p)) := by
  have hqE : q ∉ D.erase p := fun hmem => hqD (Finset.mem_of_mem_erase hmem)
  refine ⟨Finset.insert_subset hq ((Finset.erase_subset _ _).trans h.sub), ?_, ?_⟩
  · rw [Finset.card_insert_of_notMem hqE, Finset.card_erase_add_one hp]
    exact h.card
  · intro x hx y hy hyD
    rw [Finset.mem_insert, not_or, Finset.mem_erase] at hyD
    -- `x` scores no less than a page of `D`, `y` no more than a page outside
    have hx' : ∃ d ∈ D, f x = f d := by
      rcases Finset.mem_insert.mp hx with rfl | hx
      · exact ⟨p, hp, hpq.symm⟩
      · exact ⟨x, Finset.mem_of_mem_erase hx, rfl⟩
    have hy' : ∃ e ∈ U, e ∉ D ∧ f y = f e := by
      by_cases hyp : y = p
      · exact ⟨q, hq, hqD, by rw [hyp, hpq]⟩
      · exact ⟨y, hy, fun hmem => hyD.2 ⟨hyp, hmem⟩, rfl⟩
    obtain ⟨d, hd, hxd⟩ := hx'
    obtain ⟨e, he, heD, hye⟩ := hy'
    unfold notWorse
    rw [hxd, hye]
    exact h.best d hd e he heD

/-- If a row separates no cut class, two best-`C` parts differ on one side of it only. -/
theorem Keeps.differ_side {f : α → β} {C : Nat} {U R X Y : Finset α}
    (hX : Keeps (notWorse f) C U X) (hY : Keeps (notWorse f) C U Y)
    (hcls : ∀ p ∈ U, ∀ q ∈ U, f p = f q → Cut f C U p → (p ∈ R ↔ q ∈ R)) {p q : α}
    (hp : p ∈ X \ Y) (hq : q ∈ Y \ X) (hcard : (X \ Y).card = (Y \ X).card) :
    ((X \ Y) ∩ R).card = ((Y \ X) ∩ R).card := by
  have hmemX : ∀ {x}, x ∈ X \ Y → x ∈ U := fun hx => hX.sub (Finset.mem_sdiff.mp hx).1
  have hmemY : ∀ {y}, y ∈ Y \ X → y ∈ U := fun hy => hY.sub (Finset.mem_sdiff.mp hy).1
  have hqp : ∀ y ∈ Y \ X, p ∈ R ↔ y ∈ R := fun y hy =>
    hcls p (hmemX hp) y (hmemY hy) (hX.cut_of_differ hY hp hy).1 (hX.cut_of_differ hY hp hy).2
  have hxq : ∀ x ∈ X \ Y, x ∈ R ↔ q ∈ R := fun x hx =>
    hcls x (hmemX hx) q (hmemY hq) (hX.cut_of_differ hY hx hq).1 (hX.cut_of_differ hY hx hq).2
  by_cases hpR : p ∈ R
  · have hqR := (hxq p hp).mp hpR
    rw [Finset.inter_eq_left.mpr fun x hx => (hxq x hx).mpr hqR,
      Finset.inter_eq_left.mpr fun y hy => (hqp y hy).mp hpR, hcard]
  · have hqR : q ∉ R := fun h => hpR ((hxq p hp).mpr h)
    have h1 : (X \ Y) ∩ R = ∅ := by
      rw [← Finset.disjoint_iff_inter_eq_empty, Finset.disjoint_left]
      exact fun x hx hxR => hqR ((hxq x hx).mp hxR)
    have h2 : (Y \ X) ∩ R = ∅ := by
      rw [← Finset.disjoint_iff_inter_eq_empty, Finset.disjoint_left]
      exact fun y hy hyR => hpR ((hqp y hy).mpr hyR)
    rw [h1, h2]

/-- **When ties do not show.**  All best-`C` parts of `U` hold equally many pages of `R` exactly
    when `R` separates no two pages of the class that `C` cuts. -/
theorem keeps_hits_iff (f : α → β) (C : Nat) (U R : Finset α) :
    (∀ X Y, Keeps (notWorse f) C U X → Keeps (notWorse f) C U Y →
      (X ∩ R).card = (Y ∩ R).card) ↔
    ∀ p ∈ U, ∀ q ∈ U, f p = f q → Cut f C U p → (p ∈ R ↔ q ∈ R) := by
  constructor
  · -- keep `p` and drop `q`, then swap the two
    intro hsame p hp q hq hpq hcut
    by_cases hne : p = q
    · rw [hne]
    obtain ⟨D, hD, hpD, hqD⟩ := exists_keeps_split hp hne hpq hcut
    have hswap := hD.swap hpD hq hqD hpq
    have hcard := hsame D _ hD hswap
    have hqE : q ∉ D.erase p := fun h => hqD (Finset.mem_of_mem_erase h)
    have hD' : insert p (D.erase p) = D := Finset.insert_erase hpD
    have hpE : p ∉ D.erase p := Finset.notMem_erase p D
    nth_rewrite 1 [← hD'] at hcard
    by_cases hpR : p ∈ R <;> by_cases hqR : q ∈ R
    · exact ⟨fun _ => hqR, fun _ => hpR⟩
    · rw [Finset.insert_inter_of_mem hpR, Finset.insert_inter_of_notMem hqR,
        Finset.card_insert_of_notMem (fun h => hpE (Finset.mem_inter.mp h).1)] at hcard
      omega
    · rw [Finset.insert_inter_of_notMem hpR, Finset.insert_inter_of_mem hqR,
        Finset.card_insert_of_notMem (fun h => hqE (Finset.mem_inter.mp h).1)] at hcard
      omega
    · exact ⟨fun h => absurd h hpR, fun h => absurd h hqR⟩
  · intro hcls X Y hX hY
    -- the two differences are equally large and lie on the same side of `R`
    have hsdiff : (X \ Y).card = (Y \ X).card := by
      have h1 := Finset.card_sdiff_add_card_inter X Y
      have h2 := Finset.card_sdiff_add_card_inter Y X
      rw [Finset.inter_comm Y X] at h2
      have h3 := hX.card
      have h4 := hY.card
      omega
    have hR : ((X \ Y) ∩ R).card = ((Y \ X) ∩ R).card := by
      rcases Finset.eq_empty_or_nonempty (X \ Y) with hempty | ⟨p, hp⟩
      · have : Y \ X = ∅ := by rw [← Finset.card_eq_zero, ← hsdiff, hempty, Finset.card_empty]
        rw [hempty, this]
      · obtain ⟨q, hq⟩ : (Y \ X).Nonempty := by
          rw [← Finset.card_pos, ← hsdiff]; exact Finset.card_pos.mpr ⟨p, hp⟩
        exact hX.differ_side hY hcls hp hq hsdiff
    have hsplit : ∀ A B : Finset α, (A ∩ R).card = ((A \ B) ∩ R).card + ((A ∩ B) ∩ R).card := by
      intro A B
      rw [← Finset.card_union_of_disjoint, ← Finset.union_inter_distrib_right,
        Finset.sdiff_union_inter]
      exact (Finset.disjoint_sdiff_inter A B).mono Finset.inter_subset_left Finset.inter_subset_left
    rw [hsplit X Y, hsplit Y X, hR, Finset.inter_comm Y X]

end Score

/-! ## Every best part can be reached -/

section Reach

variable {β : Type*} [LinearOrder β] {n C : Nat} {row : Nat → Finset α} {f : Nat → α → β}

/-- Scores that only grow, and only for the pages of the row. -/
structure Counts (n : Nat) (row : Nat → Finset α) (f : Nat → α → β) : Prop where
  mono : ∀ i p, i < n → f i p ≤ f (i + 1) p
  frame : ∀ i p, i < n → p ∉ row (i + 1) → f (i + 1) p = f i p

/-- Counts meet the hypotheses of the stack property. -/
theorem Counts.stack (hf : Counts n row f) {D : Nat → Finset α}
    (h : Run n (fun i => notWorse (f i)) row C D) :
    ∀ i, i ≤ n → Keeps (notWorse (f i)) C (seen row i) (D i) := by
  refine Run.stack (fun i p q r hpq hqr => ?_) (fun i p q hi hq hpq => ?_) h
  · exact not_lt.mpr ((not_lt.mp hqr).trans (not_lt.mp hpq))
  · unfold notWorse at hpq ⊢
    rw [not_lt] at hpq ⊢
    rw [hf.frame i q hi hq]
    exact hpq.trans (hf.mono i p hi)

/-- **One step back.**  A best part `S` of the pages seen up to `i + 1` comes from a best part of
    those seen up to `i`: among equal scores, keep the pages of `S` that the row does not bring
    back anyway. -/
theorem Counts.exists_before (hf : Counts n row f) {i : Nat} (hi : i < n) {S : Finset α}
    (hS : Keeps (notWorse (f (i + 1))) C (seen row (i + 1)) S) :
    ∃ S', Keeps (notWorse (f i)) C (seen row i) S' ∧
      Keeps (notWorse (f (i + 1))) C (S' ∪ row (i + 1)) S := by
  obtain ⟨S', hS'⟩ := exists_keeps
    (refined (f i) fun x => if x ∈ S \ row (i + 1) then 1 else 0) C (seen row i)
  have hkeep := hS'.of_refined
  have hU : S' ∪ row (i + 1) ⊆ seen row (i + 1) := by
    rw [seen_succ]; exact Finset.union_subset_union hkeep.sub (Finset.Subset.refl _)
  -- nothing of `S` outside the row is lost
  have hmem : ∀ p ∈ S, p ∉ row (i + 1) → p ∈ S' := by
    intro p hp hprow
    have hpseen : p ∈ seen row i := by
      have := hS.sub hp
      rw [seen_succ, Finset.mem_union] at this
      exact this.resolve_right hprow
    by_contra hpS'
    have hfull := (hkeep.full_of_dropped hpseen hpS').1
    have hsub : S' ⊆ S.erase p := by
      intro x hx
      refine Finset.mem_erase.mpr ⟨fun heq => hpS' (heq ▸ hx), ?_⟩
      have hxseen : x ∈ seen row (i + 1) := hU (Finset.mem_union_left _ hx)
      by_cases hlt : f i p < f i x
      · refine hS.mem_of_lt hp hxseen ?_
        rw [hf.frame i p hi hprow]
        exact lt_of_lt_of_le hlt (hf.mono i x hi)
      · have heq : f i x = f i p :=
          le_antisymm (not_lt.mp hlt) (not_lt.mp (hkeep.best x hx p hpseen hpS'))
        by_contra hxS
        refine hS'.best x hx p hpseen hpS' (refined_lt.mpr (Or.inr ⟨heq, ?_⟩))
        rw [if_neg (fun h => hxS (Finset.mem_sdiff.mp h).1),
          if_pos (Finset.mem_sdiff.mpr ⟨hp, hprow⟩)]
        omega
    have h1 := Finset.card_le_card hsub
    have h2 := Finset.card_erase_add_one hp
    have h3 := hS.card_le
    omega
  have hSU : S ⊆ S' ∪ row (i + 1) := by
    intro p hp
    by_cases hprow : p ∈ row (i + 1)
    · exact Finset.mem_union_right _ hprow
    · exact Finset.mem_union_left _ (hmem p hp hprow)
  refine ⟨S', hkeep, hSU, ?_, fun p hp q hq hqS => hS.best p hp q (hU hq) hqS⟩
  have h1 := Finset.card_le_card hSU
  have h2 := Finset.card_le_card hU
  have h3 := hS.card
  rcases Nat.lt_or_ge (seen row i).card C with hlt | hge
  · -- nothing was dropped yet
    have hall : S' = seen row i :=
      Finset.eq_of_subset_of_card_le hkeep.sub (by have := hkeep.card; omega)
    rw [h3, hall, seen_succ]
  · have h4 := hkeep.card
    have h5 : S'.card ≤ (S' ∪ row (i + 1)).card := Finset.card_le_card Finset.subset_union_left
    omega

/-- **Every best part is reachable.** -/
theorem Counts.reaches (hf : Counts n row f) : ∀ i, i ≤ n → ∀ S,
    Keeps (notWorse (f i)) C (seen row i) S →
    ∃ D, Run i (fun j => notWorse (f j)) row C D ∧ D i = S := by
  intro i
  induction i with
  | zero =>
    intro _ S hS
    refine ⟨fun _ => ∅, ⟨rfl, fun j hj => absurd hj (Nat.not_lt_zero j)⟩, ?_⟩
    exact (Finset.subset_empty.mp hS.sub).symm
  | succ i ih =>
    intro hi S hS
    obtain ⟨S', hS', hstep⟩ := hf.exists_before (by omega) hS
    obtain ⟨D, hD, hDi⟩ := ih (by omega) S' hS'
    refine ⟨Function.update D (i + 1) S, ⟨?_, fun j hj => ?_⟩, Function.update_self ..⟩
    · rw [Function.update_of_ne (by omega)]; exact hD.start
    · rw [Function.update_of_ne (by omega : j ≠ i + 1)]
      rcases Nat.lt_or_ge j i with hlt | hge
      · rw [Function.update_of_ne (by omega)]; exact hD.step j hlt
      · obtain rfl : j = i := by omega
        rw [Function.update_self, hDi]; exact hstep

end Reach

end QemuStudy.Paging
