/-
  `parse_input` recovers the bitmaps from a serial-console log.

  The guest prints each bitmap as a line of digits, and the console ends it with CR LF; boot and
  kernel messages stand in between, as bytes, ended by LF alone or by anything and LF.  Whatever
  the interleaving, `parse_input` finds exactly the rows of the matrix (`parse_recovers_bitmaps`):
  the blind cut of the last character removes the CR of a row, and no other line may look like a
  row once its last byte is gone.
-/
import QemuStudy.Policy.Loaders

namespace QemuStudy.Policy

open QemuStudy QemuStudy.Lines

/-- A line of the console: a row of a bitmap, ended by CR LF, or other bytes, ended by LF. -/
inductive ConsoleLine
  | row (bits : List Bool)
  | other (bytes : List UInt8)

/-- The line without its LF. -/
def ConsoleLine.bytes : ConsoleLine → List UInt8
  | .row bits => utf8 (bits.map bitChar) ++ [CR]
  | .other bytes => bytes

def ConsoleLine.bits : ConsoleLine → Option (List Bool)
  | .row bits => some bits
  | .other _ => none

/-- The file that a console log is. -/
def consoleLog (log : List ConsoleLine) : List UInt8 :=
  (log.map ConsoleLine.bytes).flatMap fun l => l ++ [LF]

/-- `log` has the rows of the matrix `B` in order, and between them lines of any bytes but LF that
    are not a non-empty string of zeros and ones once their last byte is cut off. -/
structure Embeds {r c : Nat} (B : Fin r → Fin c → Bool) (log : List ConsoleLine) : Prop where
  rows : log.filterMap ConsoleLine.bits
    = (List.finRange r).map fun k => (List.finRange c).map (B k)
  other_line : ∀ bytes, .other bytes ∈ log → LF ∉ bytes
  other_text : ∀ bytes, .other bytes ∈ log →
    ¬ (bytes.dropLast ≠ [] ∧ ∀ b ∈ bytes.dropLast, b = '0'.toUInt8 ∨ b = '1'.toUInt8)

/-- What `parse_input` makes of a line. -/
theorem bitmap_line {r c : Nat} {B : Fin r → Fin c → Bool} {log : List ConsoleLine}
    (hc : 1 ≤ c) (h : Embeds B log) {l : ConsoleLine} (hl : l ∈ log) :
    bitmap l.bytes = l.bits.map (·.map Bool.toNat) := by
  cases l with
  | row bits =>
    have hmem : bits ∈ (List.finRange r).map fun k => (List.finRange c).map (B k) := by
      rw [← h.rows]
      exact List.mem_filterMap.mpr ⟨_, hl, rfl⟩
    obtain ⟨k, -, rfl⟩ := List.mem_map.mp hmem
    refine bitmap_bits_cr fun h0 => ?_
    have hlen := congrArg List.length h0
    rw [List.length_map, List.length_finRange, List.length_nil] at hlen
    omega
  | other bytes =>
    refine if_neg fun hmatch => h.other_text bytes hl ?_
    rw [binaryPattern, Bool.and_eq_true, decide_eq_true_eq, List.all_eq_true] at hmatch
    refine ⟨hmatch.1, fun b hb => ?_⟩
    have := hmatch.2 b hb
    rwa [Bool.or_eq_true, decide_eq_true_eq, decide_eq_true_eq] at this

/-- **The rows that the filter accepts are the rows of the matrix.** -/
theorem bitmaps_consoleLog {r c : Nat} {B : Fin r → Fin c → Bool} {log : List ConsoleLine}
    (hc : 1 ≤ c) (h : Embeds B log) : bitmaps (consoleLog log)
      = (List.finRange r).map fun k => (List.finRange c).map fun i => (B k i).toNat := by
  have hno : ∀ l ∈ log.map ConsoleLine.bytes, LF ∉ l := by
    intro l hl
    obtain ⟨line, hline, rfl⟩ := List.mem_map.mp hl
    cases line with
    | row bits =>
      rw [ConsoleLine.bytes, List.mem_append, not_or]
      exact ⟨not_mem_utf8 (by decide) (not_mem_bits (by decide) (by decide) bits), by decide⟩
    | other bytes => exact h.other_line bytes hline
  rw [consoleLog, bitmaps_terminated hno, List.filterMap_map]
  show log.filterMap (fun l => bitmap l.bytes) = _
  rw [List.filterMap_congr (fun l hl => bitmap_line hc h hl), ← List.map_filterMap, h.rows,
    List.map_map]
  exact List.map_congr_left fun k _ => List.map_map

theorem width_matrix {r c : Nat} (hr : 1 ≤ r) (B : Fin r → Fin c → Bool) :
    width ((List.finRange r).map fun k => (List.finRange c).map fun i => (B k i).toNat) = c := by
  obtain ⟨r, rfl⟩ : ∃ r', r = r' + 1 := ⟨r - 1, by omega⟩
  rw [List.finRange_succ, List.map_cons]
  show ((List.finRange c).map _).length = c
  rw [List.length_map, List.length_finRange]

theorem getD_matrix {r c : Nat} (B : Fin r → Fin c → Bool) {k : Nat} (hk : k < r) :
    ((List.finRange r).map fun k => (List.finRange c).map fun i => (B k i).toNat).getD k []
      = (List.finRange c).map fun i => (B ⟨k, hk⟩ i).toNat := by
  rw [List.getD_eq_getElem _ _ (by simpa using hk), List.getElem_map, List.getElem_finRange]
  rfl

theorem fits_matrix {r c : Nat} (hr : 1 ≤ r) (hr' : r < MAX_ITER) (hc : 1 ≤ c)
    (hc' : c ≤ PAGE_NUM) (B : Fin r → Fin c → Bool) :
    Fits ((List.finRange r).map fun k => (List.finRange c).map fun i => (B k i).toNat) := by
  have hlen : ∀ row ∈ (List.finRange r).map fun k => (List.finRange c).map fun i => (B k i).toNat,
      row.length = c := by
    intro row hrow
    obtain ⟨k, -, rfl⟩ := List.mem_map.mp hrow
    rw [List.length_map, List.length_finRange]
  constructor
  · intro row hrow h0
    have := hlen row hrow
    rw [h0, List.length_nil] at this
    omega
  · intro row hrow
    rw [hlen row hrow, width_matrix hr]
  · rw [List.length_map, List.length_finRange]
    exact hr'
  · rw [width_matrix hr]
    exact hc'

/-- **`parse_input` reads the embedded matrix.**  For every 0/1 matrix that the static array can
    hold and every log that embeds it, the function ends without failing its assert, `n` and `m`
    are the numbers of rows and columns, row `k + 1` of `a` is the `k`-th row of the matrix, and
    every other cell is still 0. -/
theorem parse_recovers_bitmaps {r c : Nat} (hr : 1 ≤ r) (hr' : r < MAX_ITER) (hc : 1 ≤ c)
    (hc' : c ≤ PAGE_NUM) (B : Fin r → Fin c → Bool) (log : List ConsoleLine) (h : Embeds B log) :
    ∃ g, parseInput (some (consoleLog log)) = .ok g ∧ g.n = r ∧ g.m = c ∧
      (∀ (k : Fin r) (i : Fin c), g.a (k + 1) i = (B k i).toNat) ∧
      ∀ k i, ¬ (1 ≤ k ∧ k ≤ r ∧ i < c) → g.a k i = 0 := by
  have hrows := bitmaps_consoleLog hc h
  have hfit := fits_matrix hr hr' hc hc' B
  rw [← hrows] at hfit
  refine ⟨_, (parseInput_eq_ok_iff _ _).mpr ⟨hfit, rfl⟩, ?_, ?_, fun k i => ?_, fun k i hki => ?_⟩
  · rw [hrows]
    show ((List.finRange r).map _).length = r
    rw [List.length_map, List.length_finRange]
  · rw [hrows]
    exact width_matrix hr B
  · rw [hrows]
    show (((List.finRange r).map _).getD k []).getD i 0 = _
    rw [getD_matrix B k.isLt, List.getD_eq_getElem _ _ (by simp), List.getElem_map,
      List.getElem_finRange]
    rfl
  · rw [hrows]
    cases k with
    | zero => rfl
    | succ k =>
      show (((List.finRange r).map _).getD k []).getD i 0 = 0
      by_cases hk : k < r
      · rw [getD_matrix B hk, List.getD_eq_default _ _ (by simp; omega)]
      · rw [List.getD_eq_default ((List.finRange r).map _) [] (by simp; omega)]
        rfl

/-- The 2-by-3 matrix with the rows `011` and `100`; an empty line stands before it and a line `ok`
    between the rows. -/
theorem parse_recovers_bitmaps_sample :
    ∃ g, parseInput (some (consoleLog [.other [], .row [false, true, true], .other [111, 107],
        .row [true, false, false]])) = .ok g ∧
      g.n = 2 ∧ g.m = 3 ∧ [g.a 1 0, g.a 1 1, g.a 1 2] = [0, 1, 1] ∧
      [g.a 2 0, g.a 2 1, g.a 2 2] = [1, 0, 0] := by
  obtain ⟨g, hg, hn, hm, ha, -⟩ := parse_recovers_bitmaps (r := 2) (c := 3) (by decide) (by decide)
    (by decide) (by decide) (fun k i => decide (k = 0 ↔ i ≠ 0))
    [.other [], .row [false, true, true], .other [111, 107], .row [true, false, false]]
    ⟨by decide, fun bytes h => by
      simp only [List.mem_cons, ConsoleLine.other.injEq, List.not_mem_nil, or_false, reduceCtorEq,
        false_or] at h
      rcases h with rfl | rfl <;> decide, fun bytes h => by
      simp only [List.mem_cons, ConsoleLine.other.injEq, List.not_mem_nil, or_false, reduceCtorEq,
        false_or] at h
      rcases h with rfl | rfl
      · exact fun hh => hh.1 rfl
      · exact fun hh => absurd (hh.2 111 (by decide)) (by decide)⟩
  refine ⟨g, hg, hn, hm, ?_, ?_⟩
  · exact congrArg₂ _ (ha 0 0) (congrArg₂ _ (ha 0 1) (congrArg₂ _ (ha 0 2) rfl))
  · exact congrArg₂ _ (ha 1 0) (congrArg₂ _ (ha 1 1) (congrArg₂ _ (ha 1 2) rfl))

end QemuStudy.Policy
