/-
  `parse_input` of `fmsync_policy/policy.cc`: the serial-console log of a VM goes in, the globals
  `n`, `m` and `a` come out.

  The loop cuts the last character off each line, whatever it is, and takes what is left as a row
  if it matches `^[01]+$`.  The first row fixes `m`, every other one is asserted to have the same
  length, and nothing checks `n` or `m` against the static array; here each write is.

  `parseInput_eq_ok_iff` is the whole function in one line: with `bitmaps file` the rows the filter
  accepts, it ends normally exactly if these rows FIT (`Fits`: one width, fewer than `MAX_ITER` of
  them, at most `PAGE_NUM` wide), and then `n`, `m` and `a` are those rows.
-/
import Mathlib.Data.List.GetD
import QemuStudy.Policy.Trace
import QemuStudy.Lib.Lines

namespace QemuStudy.Policy

open QemuStudy QemuStudy.Lines

/-! ## The code -/

def LF : UInt8 := '\n'.toUInt8
def CR : UInt8 := '\r'.toUInt8

/-- `std::regex_match(line, binary_pattern)` with the pattern `^[01]+$`. -/
def binaryPattern (line : List UInt8) : Bool :=
  line ≠ [] && line.all fun c => c = '0'.toUInt8 || c = '1'.toUInt8

/-- `a[iter][idx] = v`, inside `int a[MAX_ITER][PAGE_NUM]`. -/
def Globals.write (iter idx v : Nat) (g : Globals) : Except Fault Globals :=
  if iter < MAX_ITER ∧ idx < PAGE_NUM then
    .ok { g with a := Function.update g.a iter (Function.update (g.a iter) idx v) }
  else .error .outOfRange

/-- `a[n][i] = line[i] - '0'`. -/
def storeDigit (line : List UInt8) (i : Nat) (g : Globals) : Except Fault Globals :=
  match (line)[i]? with
  | some c => g.write g.n i (c.toNat - '0'.toNat)
  | none => .error .outOfRange

/-- `if (m == 0) m = line.length(); else assert(m == line.length());` -/
def setWidth (line : List UInt8) (g : Globals) : Except Fault Globals :=
  if g.m = 0 then .ok { g with m := line.length }
  else if g.m = line.length then .ok g
  else .error .assertFailed

/-- The body of the `while`. -/
def parseLine (g : Globals) (line : List UInt8) : Except Fault Globals :=
  -- on an empty line `line.length()-1` wraps around and `substr` takes all of it, which is nothing
  let line := line.dropLast
  if binaryPattern line then do
    let g := { g with n := g.n + 1 }
    let g ← setWidth line g
    forLoop (storeDigit line) 0 g.m g
  else .ok g

/-- `parse_input`, on the bytes of the file if there is one. -/
def parseInput : Option (List UInt8) → Except Fault Globals
  | none => .error .assertFailed
  | some file => (lines LF file).foldlM parseLine ⟨0, 0, fun _ _ => 0⟩

/-! ## Rows -/

/-- The digits of a line, as they are stored. -/
def digits (line : List UInt8) : List Nat := line.map fun c => c.toNat - '0'.toNat

/-- The row that a line is taken for, if it is. -/
def bitmap (line : List UInt8) : Option (List Nat) :=
  if binaryPattern line.dropLast then some (digits line.dropLast) else none

/-- The rows of a file, by the filter of `parse_input`. -/
def bitmaps (file : List UInt8) : List (List Nat) := (lines LF file).filterMap bitmap

/-- The length of the first row, 0 if there is none. -/
def width (rows : List (List Nat)) : Nat := (rows.headD []).length

/-- The globals that hold `rows`: row `k + 1` of `a` is the `k`-th of them. -/
def Globals.ofRows (rows : List (List Nat)) : Globals where
  n := rows.length
  m := width rows
  a
    | 0, _ => 0
    | k + 1, i => (rows.getD k []).getD i 0

/-- Rows that `a` can hold. -/
structure Fits (rows : List (List Nat)) : Prop where
  ne_nil : ∀ r ∈ rows, r ≠ []
  uniform : ∀ r ∈ rows, r.length = width rows
  n_lt : rows.length < MAX_ITER
  m_le : width rows ≤ PAGE_NUM

theorem Fits.nil : Fits [] := ⟨by simp, by simp, by decide, by decide⟩

theorem width_append {rows : List (List Nat)} (h : rows ≠ []) (rest : List (List Nat)) :
    width (rows ++ rest) = width rows := by
  cases rows with
  | nil => exact absurd rfl h
  | cons r rows => rfl

theorem Fits.of_append {rows rest : List (List Nat)} (h : Fits (rows ++ rest)) : Fits rows := by
  by_cases hrows : rows = []
  · subst hrows
    exact Fits.nil
  · refine ⟨fun r hr => h.ne_nil r (List.mem_append_left _ hr), fun r hr => ?_, ?_, ?_⟩
    · rw [h.uniform r (List.mem_append_left _ hr), width_append hrows]
    · have := h.n_lt
      rw [List.length_append] at this
      omega
    · rw [← width_append hrows rest]; exact h.m_le

theorem Fits.width_eq_zero {rows : List (List Nat)} (h : Fits rows) :
    width rows = 0 ↔ rows = [] := by
  cases rows with
  | nil => simp [width]
  | cons r rows =>
    have := List.length_pos_iff.mpr (h.ne_nil r List.mem_cons_self)
    simp [width, h.ne_nil r List.mem_cons_self]

/-! ## One row -/

theorem getD_append_single (rows : List (List Nat)) (row : List Nat) (k : Nat) :
    (rows ++ [row]).getD k [] = if k = rows.length then row else rows.getD k [] := by
  by_cases hk : k < rows.length
  · rw [List.getD_append _ _ _ _ hk, if_neg (by omega)]
  · rw [List.getD_append_right _ _ _ _ (by omega)]
    by_cases heq : k = rows.length
    · rw [heq, if_pos rfl, Nat.sub_self]; rfl
    · rw [if_neg heq, List.getD_eq_default _ _ (by simp; omega),
        List.getD_eq_default _ _ (by omega)]

/-- `rows`, and the first `i` digits of one more row. -/
def Globals.partRow (rows : List (List Nat)) (row : List Nat) (i : Nat) : Globals where
  n := rows.length + 1
  m := row.length
  a k j := if k = rows.length + 1 ∧ j < i then row.getD j 0 else (Globals.ofRows rows).a k j

theorem Globals.partRow_zero (rows : List (List Nat)) (row : List Nat) :
    Globals.partRow rows row 0
      = { Globals.ofRows rows with n := rows.length + 1, m := row.length } := by
  simp [Globals.partRow]

theorem Globals.partRow_all {rows : List (List Nat)} {row : List Nat}
    (hw : width (rows ++ [row]) = row.length) :
    Globals.partRow rows row row.length = Globals.ofRows (rows ++ [row]) := by
  show Globals.mk _ _ _ = Globals.mk _ _ _
  rw [Globals.mk.injEq]
  refine ⟨by simp, hw.symm, funext fun k => funext fun j => ?_⟩
  cases k with
  | zero => rw [if_neg (by omega)]; rfl
  | succ k =>
    show _ = ((rows ++ [row]).getD k []).getD j 0
    rw [getD_append_single]
    by_cases hk : k = rows.length
    · subst hk
      rw [if_pos rfl]
      by_cases hj : j < row.length
      · rw [if_pos ⟨rfl, hj⟩]
      · rw [if_neg (fun h => hj h.2), List.getD_eq_default _ _ (by omega)]
        show (rows.getD rows.length []).getD j 0 = 0
        rw [List.getD_eq_default _ _ (Nat.le_refl _)]
        rfl
    · rw [if_neg (by omega), if_neg hk]
      rfl

/-- One digit. -/
theorem storeDigit_partRow {rows : List (List Nat)} {line : List UInt8} {i : Nat}
    (hn : rows.length + 1 < MAX_ITER) (hi : i < line.length) (hm : line.length ≤ PAGE_NUM) :
    storeDigit line i (Globals.partRow rows (digits line) i)
      = .ok (Globals.partRow rows (digits line) (i + 1)) := by
  have hdigit : (digits line).getD i 0 = (line)[i].toNat - '0'.toNat := by
    simp [digits, List.getD, hi]
  rw [storeDigit, List.getElem?_eq_getElem hi]
  show Globals.write (rows.length + 1) i ((line)[i].toNat - '0'.toNat) _ = _
  rw [Globals.write, if_pos ⟨hn, by omega⟩, ← hdigit]
  simp only [Globals.partRow, Except.ok.injEq, Globals.mk.injEq, true_and]
  funext k j
  by_cases hk : k = rows.length + 1
  · subst hk
    rw [Function.update_self]
    by_cases hj : j = i
    · subst hj
      rw [Function.update_self, if_pos ⟨rfl, by omega⟩]
    · rw [Function.update_of_ne hj]
      by_cases hlt : j < i
      · rw [if_pos hlt, if_pos ⟨rfl, by omega⟩]
      · rw [if_neg hlt, if_neg (fun h => by omega)]
  · rw [Function.update_of_ne hk, if_neg (fun h => hk h.1), if_neg (fun h => hk h.1)]

/-- **The inner loop** stores a row that fits. -/
theorem storeRow_ok {rows : List (List Nat)} {line : List UInt8} (hn : rows.length + 1 < MAX_ITER)
    (hm : line.length ≤ PAGE_NUM) (hw : width (rows ++ [digits line]) = line.length) :
    forLoop (storeDigit line) 0 line.length
      { Globals.ofRows rows with n := rows.length + 1, m := line.length }
    = .ok (Globals.ofRows (rows ++ [digits line])) := by
  have hlen : (digits line).length = line.length := List.length_map _
  obtain ⟨g, hg, hP⟩ := forLoop_inv (storeDigit line)
    (fun i g => g = Globals.partRow rows (digits line) i) line.length 0
    (Globals.partRow rows (digits line) 0)
    (fun i g _ hi hg => ⟨_, hg ▸ storeDigit_partRow hn (by omega) hm, rfl⟩) rfl
  rw [Globals.partRow_zero, hlen] at hg
  rw [hg, hP, Nat.zero_add, ← hlen, Globals.partRow_all (hw.trans hlen.symm)]

/-- What the body of the loop can do: store within the array, or fail. -/
theorem storeDigit_cases (line : List UInt8) (i : Nat) (g : Globals) :
    (∃ g', storeDigit line i g = .ok g' ∧ g'.n = g.n ∧ g.n < MAX_ITER ∧ i < PAGE_NUM) ∨
      storeDigit line i g = .error .outOfRange := by
  rw [storeDigit]
  split
  · rw [Globals.write]
    split
    · rename_i hb
      exact Or.inl ⟨_, rfl, rfl, hb.1, hb.2⟩
    · exact Or.inr rfl
  · exact Or.inr rfl

/-- It runs out of the array if the row does not fit. -/
theorem storeRow_bounds {line : List UInt8} {g g' : Globals} (hpos : 0 < g.m)
    (h : forLoop (storeDigit line) 0 g.m g = .ok g') : g.n < MAX_ITER ∧ g.m ≤ PAGE_NUM := by
  have hstep : ∀ i t t', t.n = g.n → storeDigit line i t = .ok t' →
      t'.n = g.n ∧ g.n < MAX_ITER ∧ i < PAGE_NUM := by
    intro i t t' hn hs
    rcases storeDigit_cases line i t with ⟨t₁, hok, hkeep, hrow, hcol⟩ | herr
    · obtain rfl : t₁ = t' := Except.ok.inj (hok.symm.trans hs)
      exact ⟨hkeep.trans hn, hn ▸ hrow, hcol⟩
    · rw [herr] at hs
      cases hs
  have hvisit := forLoop_visits (P := fun t => t.n = g.n)
    (fun i t t' hn hs => (hstep i t t' hn hs).1) g.m 0 rfl h (g.m - 1) (by omega) (by omega)
  obtain ⟨t, t', hn, hs⟩ := hvisit
  obtain ⟨-, h1, h2⟩ := hstep _ t t' hn hs
  exact ⟨h1, by omega⟩

/-! ## One line, all lines -/

theorem digits_ne_nil {line : List UInt8} (h : binaryPattern line = true) : digits line ≠ [] := by
  rw [binaryPattern, Bool.and_eq_true, decide_eq_true_eq] at h
  exact fun hd => h.1 (List.map_eq_nil_iff.mp hd)

/-- One more row. -/
theorem fits_concat_iff {rows : List (List Nat)} (h : Fits rows) {row : List Nat} (hne : row ≠ []) :
    Fits (rows ++ [row]) ↔ width (rows ++ [row]) = row.length ∧ rows.length + 1 < MAX_ITER ∧
      row.length ≤ PAGE_NUM := by
  constructor
  · intro hfit
    have hw := hfit.uniform row (by simp)
    exact ⟨hw.symm, by simpa using hfit.n_lt, hw ▸ hfit.m_le⟩
  · rintro ⟨hw, hn, hm⟩
    refine ⟨?_, ?_, by simpa using hn, hw ▸ hm⟩
    · intro r hr
      rcases List.mem_append.mp hr with hr | hr
      · exact h.ne_nil r hr
      · rw [List.mem_singleton.mp hr]; exact hne
    · intro r hr
      rcases List.mem_append.mp hr with hr | hr
      · rw [h.uniform r hr, width_append (List.ne_nil_of_mem hr)]
      · rw [List.mem_singleton.mp hr, hw]

/-- `m` is set by the first row and asserted by the others. -/
theorem setWidth_ofRows {rows : List (List Nat)} (h : Fits rows) (line : List UInt8) :
    setWidth line { Globals.ofRows rows with n := rows.length + 1 } =
      if width (rows ++ [digits line]) = line.length then
        .ok { Globals.ofRows rows with n := rows.length + 1, m := line.length }
      else .error .assertFailed := by
  show (if width rows = 0 then Except.ok (⟨rows.length + 1, line.length, _⟩ : Globals)
    else if width rows = line.length then Except.ok ⟨rows.length + 1, width rows, _⟩
    else Except.error Fault.assertFailed) = _
  by_cases hrows : rows = []
  · subst hrows
    rw [if_pos (h.width_eq_zero.mpr rfl), if_pos (by simp [width, digits])]
  · have hm : width rows ≠ 0 := fun h0 => hrows (h.width_eq_zero.mp h0)
    rw [if_neg hm, width_append hrows]
    by_cases hw : width rows = line.length
    · rw [if_pos hw, if_pos hw, hw]
    · rw [if_neg hw, if_neg hw]

/-- **One line**: on top of rows that fit, a line is skipped, or is one more row that still fits,
    or stops the program. -/
theorem parseLine_eq_ok_iff {rows : List (List Nat)} (h : Fits rows) (line : List UInt8)
    (g : Globals) : parseLine (Globals.ofRows rows) line = .ok g ↔
      Fits (rows ++ (bitmap line).toList) ∧ g = Globals.ofRows (rows ++ (bitmap line).toList) := by
  by_cases hmatch : binaryPattern line.dropLast = true
  · have hne := digits_ne_nil hmatch
    have hlen : (digits line.dropLast).length = line.dropLast.length := List.length_map _
    have hpos : 0 < line.dropLast.length := hlen ▸ List.length_pos_iff.mpr hne
    simp only [parseLine, bitmap, if_pos hmatch, Option.toList_some]
    rw [fits_concat_iff h hne, hlen]
    show setWidth _ { Globals.ofRows rows with n := rows.length + 1 } >>= _ = _ ↔ _
    rw [setWidth_ofRows h]
    by_cases hw : width (rows ++ [digits line.dropLast]) = line.dropLast.length
    · rw [if_pos hw, ok_bind]
      constructor
      · intro hrun
        obtain ⟨hn, hm⟩ := storeRow_bounds hpos hrun
        refine ⟨⟨hw, hn, hm⟩, ?_⟩
        have hok := storeRow_ok hn hm hw
        exact Except.ok.inj (hrun.symm.trans hok)
      · rintro ⟨⟨-, hn, hm⟩, rfl⟩
        exact storeRow_ok hn hm hw
    · rw [if_neg hw]
      constructor
      · intro hrun; cases hrun
      · intro hrun; exact absurd hrun.1.1 hw
  · simp only [parseLine, bitmap, if_neg hmatch, Option.toList_none, List.append_nil,
      Except.ok.injEq]
    exact ⟨fun hg => ⟨h, hg.symm⟩, fun hg => hg.2.symm⟩

theorem append_filterMap_bitmap (rows : List (List Nat)) (line : List UInt8)
    (ls : List (List UInt8)) : rows ++ (line :: ls).filterMap bitmap
      = (rows ++ (bitmap line).toList) ++ ls.filterMap bitmap := by
  cases hb : bitmap line with
  | none => simp [hb]
  | some row => simp [hb]

/-- **The loop over the lines.** -/
theorem foldlM_parseLine_eq_ok_iff (ls : List (List UInt8)) : ∀ {rows : List (List Nat)}
    (_ : Fits rows) (g : Globals), ls.foldlM parseLine (Globals.ofRows rows) = .ok g ↔
      Fits (rows ++ ls.filterMap bitmap) ∧ g = Globals.ofRows (rows ++ ls.filterMap bitmap) := by
  induction ls with
  | nil =>
    intro rows h g
    rw [List.foldlM_nil, List.filterMap_nil, List.append_nil]
    exact ⟨fun hg => ⟨h, (Except.ok.inj hg).symm⟩, fun hg => congrArg Except.ok hg.2.symm⟩
  | cons line ls ih =>
    intro rows h g
    rw [List.foldlM_cons, append_filterMap_bitmap]
    constructor
    · intro hrun
      obtain ⟨g₁, hline, hrest⟩ := ok_of_bind hrun
      obtain ⟨hfit, rfl⟩ := (parseLine_eq_ok_iff h line g₁).mp hline
      exact (ih hfit g).mp hrest
    · rintro ⟨hfit, hg⟩
      have hline := (parseLine_eq_ok_iff h line _).mpr ⟨hfit.of_append, rfl⟩
      rw [hline, ok_bind]
      exact (ih hfit.of_append g).mpr ⟨hfit, hg⟩

/-- The zero-initialised globals hold no row. -/
theorem ofRows_nil : (⟨0, 0, fun _ _ => 0⟩ : Globals) = Globals.ofRows [] := by
  unfold Globals.ofRows
  congr 1
  funext k i
  cases k <;> rfl

/-- **What `parse_input` does**: it ends normally exactly if the rows in the file fit, and then the
    globals hold these rows and nothing else. -/
theorem parseInput_eq_ok_iff (file : List UInt8) (g : Globals) : parseInput (some file) = .ok g ↔
    Fits (bitmaps file) ∧ g = Globals.ofRows (bitmaps file) := by
  rw [parseInput, ofRows_nil]
  exact foldlM_parseLine_eq_ok_iff (lines LF file) Fits.nil g

/-! ## Faults -/

/-- The inner loop knows one fault only. -/
theorem storeRow_error {line : List UInt8} {e : Fault} : ∀ (n lo : Nat) (g : Globals),
    forLoop (storeDigit line) lo n g = .error e → e = .outOfRange := by
  intro n
  induction n with
  | zero => intro lo g h; cases h
  | succ n ih =>
    intro lo g h
    rw [forLoop] at h
    cases hs : storeDigit line lo g with
    | ok g₁ => rw [hs] at h; exact ih (lo + 1) g₁ h
    | error e' =>
      rw [hs] at h
      obtain rfl : e' = e := Except.error.inj h
      rcases storeDigit_cases line lo g with ⟨g₁, hok, -⟩ | herr
      · rw [hok] at hs
        cases hs
      · exact Except.error.inj (hs.symm.trans herr)

/-- **The line that stops the program** is a row: of another width than the first, or one that `a`
    has no place for. -/
theorem parseLine_error {rows : List (List Nat)} (h : Fits rows) {line : List UInt8} {e : Fault}
    (herr : parseLine (Globals.ofRows rows) line = .error e) : ∃ row, bitmap line = some row ∧
      ((e = .assertFailed ∧ row.length ≠ width (rows ++ [row])) ∨
        (e = .outOfRange ∧ row.length = width (rows ++ [row]) ∧
          ¬ (rows.length + 1 < MAX_ITER ∧ row.length ≤ PAGE_NUM))) := by
  by_cases hmatch : binaryPattern line.dropLast = true
  · have hlen : (digits line.dropLast).length = line.dropLast.length := List.length_map _
    refine ⟨digits line.dropLast, by rw [bitmap, if_pos hmatch], ?_⟩
    rw [hlen]
    simp only [parseLine, if_pos hmatch] at herr
    change setWidth _ { Globals.ofRows rows with n := rows.length + 1 } >>= _ = _ at herr
    rw [setWidth_ofRows h] at herr
    by_cases hw : width (rows ++ [digits line.dropLast]) = line.dropLast.length
    · rw [if_pos hw, ok_bind] at herr
      refine Or.inr ⟨storeRow_error _ _ _ herr, hw.symm, fun hb => ?_⟩
      rw [storeRow_ok hb.1 hb.2 hw] at herr
      cases herr
    · rw [if_neg hw] at herr
      exact Or.inl ⟨(Except.error.inj herr).symm, Ne.symm hw⟩
  · simp only [parseLine, if_neg hmatch] at herr
    cases herr

theorem foldlM_parseLine_error {e : Fault} (ls : List (List UInt8)) :
    ∀ {rows : List (List Nat)} (_ : Fits rows),
      ls.foldlM parseLine (Globals.ofRows rows) = .error e →
      (e = .assertFailed ∧ ¬ ∀ r ∈ rows ++ ls.filterMap bitmap,
        r.length = width (rows ++ ls.filterMap bitmap)) ∨
      (e = .outOfRange ∧ ¬ ((rows ++ ls.filterMap bitmap).length < MAX_ITER ∧
        width (rows ++ ls.filterMap bitmap) ≤ PAGE_NUM)) := by
  induction ls with
  | nil => intro rows _ h; cases h
  | cons line ls ih =>
    intro rows h herr
    rw [List.foldlM_cons] at herr
    rw [append_filterMap_bitmap]
    cases hline : parseLine (Globals.ofRows rows) line with
    | ok g =>
      obtain ⟨hfit, rfl⟩ := (parseLine_eq_ok_iff h line g).mp hline
      rw [hline, ok_bind] at herr
      exact ih hfit herr
    | error e' =>
      rw [hline] at herr
      obtain rfl : e' = e := Except.error.inj herr
      obtain ⟨row, hrow, hcases⟩ := parseLine_error h hline
      rw [hrow, Option.toList_some, width_append (by simp)]
      rcases hcases with ⟨he, hne⟩ | ⟨he, hw, hno⟩
      · exact Or.inl ⟨he, fun hall => hne (hall row (by simp))⟩
      · refine Or.inr ⟨he, fun hb => hno ⟨?_, hw ▸ hb.2⟩⟩
        have := hb.1
        rw [List.length_append, List.length_append, List.length_singleton] at this
        omega

/-- **How `parse_input` fails**: by its assert only if the rows differ in width, and outside the
    array only if there are too many rows or they are too wide. -/
theorem parseInput_error {file : List UInt8} {e : Fault} (h : parseInput (some file) = .error e) :
    (e = .assertFailed ∧ ¬ ∀ r ∈ bitmaps file, r.length = width (bitmaps file)) ∨
    (e = .outOfRange ∧
      ¬ ((bitmaps file).length < MAX_ITER ∧ width (bitmaps file) ≤ PAGE_NUM)) := by
  rw [parseInput, ofRows_nil] at h
  exact foldlM_parseLine_error (lines LF file) Fits.nil h

/-! ## What it leaves behind -/

/-- A row holds zeros and ones. -/
theorem bitmap_bit {line : List UInt8} {row : List Nat} (h : bitmap line = some row) :
    ∀ d ∈ row, d = 0 ∨ d = 1 := by
  rw [bitmap] at h
  split at h
  · rename_i hmatch
    rw [binaryPattern, Bool.and_eq_true, List.all_eq_true] at hmatch
    intro d hd
    rw [← Option.some.inj h] at hd
    obtain ⟨c, hc, rfl⟩ := List.mem_map.mp hd
    have hbit := hmatch.2 c hc
    rw [Bool.or_eq_true, decide_eq_true_eq, decide_eq_true_eq] at hbit
    rcases hbit with rfl | rfl
    · exact Or.inl rfl
    · exact Or.inr rfl
  · cases h

/-- **The globals hold a trace** whenever `parse_input` ends normally. -/
theorem parseInput_trace {file : List UInt8} {g : Globals} (h : parseInput (some file) = .ok g) :
    ∃ T : Trace, T.toGlobals = g := by
  obtain ⟨hfit, rfl⟩ := (parseInput_eq_ok_iff file g).mp h
  refine ⟨⟨Globals.ofRows (bitmaps file), hfit.n_lt, hfit.m_le, fun k i => ?_⟩, rfl⟩
  cases k with
  | zero => exact Or.inl rfl
  | succ k =>
    show ((bitmaps file).getD k []).getD i 0 = 0 ∨ ((bitmaps file).getD k []).getD i 0 = 1
    by_cases hk : k < (bitmaps file).length
    · rw [List.getD_eq_getElem _ _ hk]
      by_cases hi : i < ((bitmaps file)[k]).length
      · rw [List.getD_eq_getElem _ _ hi]
        obtain ⟨line, -, hline⟩ := List.mem_filterMap.mp (List.getElem_mem hk)
        exact bitmap_bit hline _ (List.getElem_mem hi)
      · rw [List.getD_eq_default _ _ (by omega)]
        exact Or.inl rfl
    · rw [List.getD_eq_default (bitmaps file) [] (by omega)]
      exact Or.inl rfl

/-- A file written line by line. -/
theorem bitmaps_terminated {ls : List (List UInt8)} (h : ∀ l ∈ ls, LF ∉ l) :
    bitmaps (ls.flatMap fun l => l ++ [LF]) = ls.filterMap bitmap := by
  rw [bitmaps, lines_flatMap h]

end QemuStudy.Policy
