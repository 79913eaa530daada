/-
  The two trace loaders of the repository: `parse_input` of `policy.cc` (bytes, cuts the last
  character of a line, matches `^[01]+$`) and `load_access_data` of `heatmap.py` (text with
  universal newlines, strips whitespace, checks every character); and the generator of synthetic
  traces, `generate_lines_to_file`.

  A `Log` is a console log with bitmap lines in it, each ended by LF or by CRLF, between other
  lines that start with something else than a digit of a bitmap.  `loadAccessData` reads the bitmap
  lines of every log, as they are (`loadAccessData_log`).  `parse_input` cuts a CARRIAGE RETURN off
  a line that ends in CRLF, but the last COLUMN off a line that ends in LF (`bitmaps_log`), so

  * the two loaders agree exactly on the logs all of whose bitmap lines end in CRLF, as long as
    they fit the static array, and
  * no trace written by the generator is recovered: its lines end in LF.
-/
import Mathlib.Data.List.DropRight
import QemuStudy.Policy.ParseInput

namespace QemuStudy.Policy

open QemuStudy QemuStudy.Lines

/-! ## `heatmap.py` -/

/-- The whitespace of Python's `str.strip`. -/
def isSpace (c : Char) : Bool :=
  let v := c.toNat
  (9 ≤ v && v ≤ 13) || (28 ≤ v && v ≤ 32) || v = 0x85 || v = 0xA0 || v = 0x1680 ||
    (0x2000 ≤ v && v ≤ 0x200A) || v = 0x2028 || v = 0x2029 || v = 0x202F || v = 0x205F || v = 0x3000

/-- `line.strip()`. -/
def strip (line : List Char) : List Char := (line.dropWhile isSpace).rdropWhile isSpace

/-- Text mode: CRLF and a lone CR are read as LF. -/
def universalNewlines : List Char → List Char
  | [] => []
  | '\r' :: '\n' :: s => '\n' :: universalNewlines s
  | '\r' :: s => '\n' :: universalNewlines s
  | c :: s => c :: universalNewlines s

/-- A two-dimensional numpy array.  (The empty one has no second dimension there.) -/
structure Array2 where
  rows : Nat
  cols : Nat
  data : List (List Nat)
  deriving DecidableEq, Repr

/-- `np.array(lines)`; rows of different lengths raise an exception. -/
def npArray (lines : List (List Nat)) : Option Array2 :=
  if lines.all fun r => r.length = width lines then some ⟨lines.length, width lines, lines⟩
  else none

/-- `data_array.T`. -/
def Array2.T (A : Array2) : Array2 where
  rows := A.cols
  cols := A.rows
  data := (List.range A.cols).map fun i => A.data.map fun r => r.getD i 0

/-- The row that a line is taken for, if it is.  (The `\n` that Python leaves at its end is
    whitespace and would be stripped.) -/
def accessRow (line : List Char) : Option (List Nat) :=
  let line := strip line
  if line ≠ [] && line.all (fun c => c = '0' || c = '1') then
    some (line.map fun c => c.toNat - '0'.toNat)
  else none

/-- `load_access_data`, on the text of the file if there is one. -/
def loadAccessData : Option (List Char) → Option Array2
  | none => none
  | some text =>
    (npArray ((lines '\n' (universalNewlines text)).filterMap accessRow)).map Array2.T

/-! ## `generate_random_lines.py` -/

def bitChar (b : Bool) : Char := if b then '1' else '0'

/-- `generate_lines_to_file`: the text it writes, for the outcomes `coin` of
    `random.random() < prob_one`. -/
def generateLinesToFile (numLines : Nat) (coin : Nat → Nat → Bool) : List Char :=
  (List.range numLines).flatMap fun k =>
    (List.range 9000).map (fun i => bitChar (coin k i)) ++ ['\n']

/-! ## Console logs -/

inductive Eol
  | lf
  | crlf
  deriving DecidableEq, Repr

def Eol.chars : Eol → List Char
  | .lf => ['\n']
  | .crlf => ['\r', '\n']

/-- A terminated line of a log. -/
inductive LogLine
  | bitmap (bits : List Bool) (eol : Eol)
  | other (text : List Char) (eol : Eol)
  deriving DecidableEq, Repr

def LogLine.content : LogLine → List Char
  | .bitmap bits _ => bits.map bitChar
  | .other text _ => text

def LogLine.eol : LogLine → Eol
  | .bitmap _ eol => eol
  | .other _ eol => eol

/-- No line break inside, and the first character that is not blank is neither 0 nor 1. -/
structure Plain (text : List Char) : Prop where
  no_lf : '\n' ∉ text
  no_cr : '\r' ∉ text
  first : ∀ c ∈ (text.dropWhile isSpace).head?, c ≠ '0' ∧ c ≠ '1'

/-- A console log with bitmaps of one width in it: a text, which the loaders see as its UTF-8 bytes
    (a log that cannot be decoded is not one), where "blank" in `Plain` is the whitespace that
    `str.strip` removes. -/
structure Log where
  lines : List LogLine
  /-- what follows the last terminator, usually nothing -/
  rest : List Char
  width : Nat
  width_pos : 0 < width
  bitmap_width : ∀ bits eol, .bitmap bits eol ∈ lines → bits.length = width
  other_plain : ∀ text eol, .other text eol ∈ lines → Plain text
  rest_plain : Plain rest

def LogLine.chars (l : LogLine) : List Char := l.content ++ l.eol.chars

def Log.text (L : Log) : List Char := L.lines.flatMap LogLine.chars ++ L.rest

/-- The bytes of a text. -/
def utf8 (text : List Char) : List UInt8 := text.flatMap String.utf8EncodeChar

/-- The row a line holds. -/
def LogLine.row : LogLine → Option (List Nat)
  | .bitmap bits _ => some (bits.map Bool.toNat)
  | .other _ _ => none

/-- The trace in a log. -/
def Log.rows (L : Log) : List (List Nat) := L.lines.filterMap LogLine.row

/-! ## `load_access_data` on a log -/

theorem universalNewlines_cons {c : Char} (hc : c ≠ '\r') (s : List Char) :
    universalNewlines (c :: s) = c :: universalNewlines s := by
  rw [universalNewlines]
  · intro _ h; exact absurd h hc
  · exact hc

theorem universalNewlines_append {l : List Char} (hl : '\r' ∉ l) (s : List Char) :
    universalNewlines (l ++ s) = l ++ universalNewlines s := by
  induction l with
  | nil => rfl
  | cons c l ih =>
    rw [List.mem_cons, not_or] at hl
    rw [List.cons_append, universalNewlines_cons (Ne.symm hl.1), ih hl.2, List.cons_append]

theorem universalNewlines_eol (e : Eol) (s : List Char) :
    universalNewlines (e.chars ++ s) = '\n' :: universalNewlines s := by
  cases e with
  | lf => exact universalNewlines_cons (by decide) s
  | crlf => rfl

theorem bitChar_cases (b : Bool) : bitChar b = '0' ∨ bitChar b = '1' := by
  cases b <;> simp [bitChar]

theorem not_mem_bits {c : Char} (h0 : c ≠ '0') (h1 : c ≠ '1') (bits : List Bool) :
    c ∉ bits.map bitChar := by
  intro hc
  obtain ⟨b, -, rfl⟩ := List.mem_map.mp hc
  exact (bitChar_cases b).elim h0 h1

/-- The lines that are in a log: no line break inside. -/
theorem Log.content_ok (L : Log) {l : LogLine} (hl : l ∈ L.lines) :
    '\n' ∉ l.content ∧ '\r' ∉ l.content := by
  cases l with
  | bitmap bits eol => exact ⟨not_mem_bits (by decide) (by decide) _,
      not_mem_bits (by decide) (by decide) _⟩
  | other text eol => exact ⟨(L.other_plain text eol hl).no_lf, (L.other_plain text eol hl).no_cr⟩

/-- Python's lines are the contents of the log's lines, and the rest. -/
theorem lines_universalNewlines {ls : List LogLine}
    (hls : ∀ l ∈ ls, '\n' ∉ l.content ∧ '\r' ∉ l.content) {rest : List Char}
    (hrest : Plain rest) :
    lines '\n' (universalNewlines (ls.flatMap LogLine.chars ++ rest))
      = ls.map LogLine.content ++ if rest = [] then [] else [rest] := by
  induction ls with
  | nil =>
    have huniv := universalNewlines_append hrest.no_cr []
    rw [universalNewlines, List.append_nil] at huniv
    rw [List.flatMap_nil, List.nil_append, huniv, lines_rest hrest.no_lf]
    rfl
  | cons l ls ih =>
    obtain ⟨hlf, hcr⟩ := hls l List.mem_cons_self
    rw [List.flatMap_cons, List.append_assoc, LogLine.chars, List.append_assoc,
      universalNewlines_append hcr, universalNewlines_eol, lines_terminated hlf,
      ih fun x hx => hls x (List.mem_cons_of_mem l hx)]
    rfl

theorem strip_bits (bits : List Bool) : strip (bits.map bitChar) = bits.map bitChar := by
  have hspace : ∀ c ∈ bits.map bitChar, isSpace c = false := by
    intro c hc
    obtain ⟨b, -, rfl⟩ := List.mem_map.mp hc
    cases b <;> decide
  have hleft : (bits.map bitChar).dropWhile isSpace = bits.map bitChar := by
    rw [List.dropWhile_eq_self_iff]
    intro hl
    rw [hspace _ (List.getElem_mem hl)]
    simp
  rw [strip, hleft, List.rdropWhile_eq_self_iff]
  intro hl
  rw [hspace _ (List.getLast_mem hl)]
  simp

theorem accessRow_bits {bits : List Bool} (h : bits ≠ []) :
    accessRow (bits.map bitChar) = some (bits.map Bool.toNat) := by
  have hall : (bits.map bitChar).all (fun c => c = '0' || c = '1') = true := by
    rw [List.all_eq_true]
    intro c hc
    obtain ⟨b, -, rfl⟩ := List.mem_map.mp hc
    simpa using bitChar_cases b
  have hne : bits.map bitChar ≠ [] := by simpa using h
  rw [accessRow, strip_bits, if_pos (by rw [hall, decide_eq_true hne]; rfl), List.map_map]
  congr 2
  funext b
  cases b <;> rfl

theorem accessRow_plain {text : List Char} (h : Plain text) : accessRow text = none := by
  rw [accessRow, if_neg]
  rw [Bool.and_eq_true, decide_eq_true_eq, List.all_eq_true]
  rintro ⟨hne, hall⟩
  -- what is left starts with the first character that is not blank
  obtain ⟨r, hr⟩ := List.rdropWhile_prefix isSpace (text.dropWhile isSpace)
  obtain ⟨c, s, hs⟩ := List.exists_cons_of_ne_nil hne
  have hhead : c ∈ (text.dropWhile isSpace).head? := by
    rw [← hr, show (text.dropWhile isSpace).rdropWhile isSpace = c :: s from hs]
    rfl
  obtain ⟨h0, h1⟩ := h.first c hhead
  have hc := hall c (hs ▸ List.mem_cons_self)
  simp [h0, h1] at hc

theorem Log.bits_ne_nil (L : Log) {bits : List Bool} {eol : Eol}
    (h : .bitmap bits eol ∈ L.lines) : bits ≠ [] := by
  intro h0
  have hw := L.bitmap_width bits eol h
  have hpos := L.width_pos
  rw [h0, List.length_nil] at hw
  omega

theorem Log.mem_rows_iff (L : Log) {r : List Nat} :
    r ∈ L.rows ↔ ∃ bits eol, .bitmap bits eol ∈ L.lines ∧ bits.map Bool.toNat = r := by
  constructor
  · intro hr
    obtain ⟨l, hl, hrow⟩ := List.mem_filterMap.mp hr
    cases l with
    | bitmap bits eol => exact ⟨bits, eol, hl, Option.some.inj hrow⟩
    | other text eol => cases hrow
  · rintro ⟨bits, eol, hl, rfl⟩
    exact List.mem_filterMap.mpr ⟨_, hl, rfl⟩

theorem Log.mem_rows (L : Log) {r : List Nat} (hr : r ∈ L.rows) : r.length = L.width := by
  obtain ⟨bits, eol, hl, rfl⟩ := L.mem_rows_iff.mp hr
  rw [List.length_map, L.bitmap_width bits eol hl]

theorem Log.uniform (L : Log) : ∀ r ∈ L.rows, r.length = Policy.width L.rows := by
  intro r hr
  cases hrows : L.rows with
  | nil => rw [hrows] at hr; cases hr
  | cons r₀ rows =>
    have hfirst : r₀.length = L.width := L.mem_rows (by rw [hrows]; exact List.mem_cons_self)
    rw [L.mem_rows hr]
    exact hfirst.symm

/-- **`load_access_data` reads every log.** -/
theorem loadAccessData_log (L : Log) : loadAccessData (some L.text)
    = some (Array2.T ⟨L.rows.length, width L.rows, L.rows⟩) := by
  have hrows : (lines '\n' (universalNewlines L.text)).filterMap accessRow = L.rows := by
    have hlast : (if L.rest = [] then [] else [L.rest]).filterMap accessRow = [] := by
      by_cases hr : L.rest = []
      · rw [if_pos hr]; rfl
      · rw [if_neg hr, List.filterMap_cons_none (accessRow_plain L.rest_plain)]; rfl
    rw [Log.text, lines_universalNewlines (fun l hl => L.content_ok hl) L.rest_plain,
      List.filterMap_append, hlast, List.append_nil, List.filterMap_map, Log.rows]
    apply List.filterMap_congr
    intro l hl
    cases l with
    | bitmap bits eol => exact accessRow_bits (L.bits_ne_nil hl)
    | other text eol => exact accessRow_plain (L.other_plain text eol hl)
  rw [loadAccessData, hrows, npArray, if_pos (by simpa using L.uniform)]
  rfl

/-! ## `parse_input` on a log -/

theorem utf8_append (s t : List Char) : utf8 (s ++ t) = utf8 s ++ utf8 t := List.flatMap_append

/-- An ASCII byte is a character of the text. -/
theorem mem_of_ascii_mem_utf8 {text : List Char} {b : UInt8} (hb : b.toNat < 128)
    (h : b ∈ utf8 text) : ∃ c ∈ text, c.toNat = b.toNat := by
  obtain ⟨c, hc, hmem⟩ := List.mem_flatMap.mp h
  refine ⟨c, hc, ?_⟩
  simp only [String.utf8EncodeChar] at hmem
  split at hmem
  · rename_i hv
    rw [List.mem_singleton.mp hmem, UInt8.toNat_ofNat']
    show c.val.toNat = _
    omega
  · -- all bytes of the longer encodings have their top bit set
    exfalso
    split at hmem
    · simp only [List.mem_cons, List.not_mem_nil, or_false] at hmem
      rcases hmem with rfl | rfl <;> rw [UInt8.toNat_ofNat'] at hb <;> omega
    · split at hmem
      · simp only [List.mem_cons, List.not_mem_nil, or_false] at hmem
        rcases hmem with rfl | rfl | rfl <;> rw [UInt8.toNat_ofNat'] at hb <;> omega
      · simp only [List.mem_cons, List.not_mem_nil, or_false] at hmem
        rcases hmem with rfl | rfl | rfl | rfl <;> rw [UInt8.toNat_ofNat'] at hb <;> omega

theorem not_mem_utf8 {text : List Char} {c : Char} (hc : c.toNat < 128) (h : c ∉ text) :
    c.toUInt8 ∉ utf8 text := by
  have hval : c.toUInt8.toNat = c.toNat := by
    show (UInt8.ofNat c.toNat).toNat = c.toNat
    rw [UInt8.toNat_ofNat']
    omega
  intro hmem
  obtain ⟨d, hd, hdc⟩ := mem_of_ascii_mem_utf8 (hval ▸ hc) hmem
  have : d = c := Char.toNat_inj.mp (hdc.trans hval)
  exact h (this ▸ hd)

/-- What a terminated line leaves of its terminator after `getline`. -/
def Eol.left : Eol → List UInt8
  | .lf => []
  | .crlf => [CR]

theorem utf8_eol (e : Eol) : utf8 e.chars = e.left ++ [LF] := by cases e <;> rfl

/-- The lines that `getline` returns. -/
theorem lines_utf8 {ls : List LogLine} (hls : ∀ l ∈ ls, '\n' ∉ l.content ∧ '\r' ∉ l.content)
    {rest : List Char} (hrest : Plain rest) :
    lines LF (utf8 (ls.flatMap LogLine.chars ++ rest))
      = ls.map (fun l => utf8 l.content ++ l.eol.left) ++
        if utf8 rest = [] then [] else [utf8 rest] := by
  induction ls with
  | nil => exact lines_rest (not_mem_utf8 (by decide) hrest.no_lf)
  | cons l ls ih =>
    obtain ⟨hlf, -⟩ := hls l List.mem_cons_self
    have hline : LF ∉ utf8 l.content ++ l.eol.left := by
      rw [List.mem_append, not_or]
      exact ⟨not_mem_utf8 (by decide) hlf, by cases l.eol <;> decide⟩
    rw [List.flatMap_cons, List.append_assoc, LogLine.chars, utf8_append, utf8_append, utf8_eol,
      ← List.append_assoc, List.append_assoc, List.singleton_append, lines_terminated hline,
      ih fun x hx => hls x (List.mem_cons_of_mem l hx)]
    rfl


/-- What `parse_input` makes of a line: with LF the cut takes the last digit. -/
def LogLine.parsed : LogLine → Option (List Nat)
  | .bitmap bits .crlf => some (bits.map Bool.toNat)
  | .bitmap bits .lf =>
    if bits.dropLast = [] then none else some (bits.dropLast.map Bool.toNat)
  | .other _ _ => none

theorem utf8_bits (bits : List Bool) :
    utf8 (bits.map bitChar) = bits.map fun b => (bitChar b).toUInt8 := by
  rw [utf8, List.flatMap_map, List.map_eq_flatMap]
  apply List.flatMap_congr
  intro b _
  cases b <;> rfl

theorem binaryPattern_bits {bits : List Bool} (h : bits ≠ []) :
    binaryPattern (bits.map fun b => (bitChar b).toUInt8) = true := by
  rw [binaryPattern, Bool.and_eq_true, decide_eq_true_eq, List.all_eq_true]
  refine ⟨by simpa using h, fun c hc => ?_⟩
  obtain ⟨b, -, rfl⟩ := List.mem_map.mp hc
  cases b <;> decide

theorem digits_bits (bits : List Bool) :
    digits (bits.map fun b => (bitChar b).toUInt8) = bits.map Bool.toNat := by
  rw [digits, List.map_map]
  apply List.map_congr_left
  intro b _
  cases b <;> rfl

/-- A line behind which something is cut off that is not a digit. -/
theorem bitmap_bits_cr {bits : List Bool} (h : bits ≠ []) :
    bitmap (utf8 (bits.map bitChar) ++ [CR]) = some (bits.map Bool.toNat) := by
  rw [bitmap, List.dropLast_concat, utf8_bits, if_pos (binaryPattern_bits h), digits_bits]

theorem bitmap_bits {bits : List Bool} : bitmap (utf8 (bits.map bitChar))
    = if bits.dropLast = [] then none else some (bits.dropLast.map Bool.toNat) := by
  rw [bitmap, utf8_bits, ← List.map_dropLast]
  by_cases h : bits.dropLast = []
  · rw [if_pos h, h]; rfl
  · rw [if_neg h, if_pos (binaryPattern_bits h), digits_bits]

/-- A line that does not start with a digit of a bitmap is no row, whatever is cut off. -/
theorem bitmap_eq_none {b : UInt8} {line : List UInt8} (h0 : b ≠ '0'.toUInt8)
    (h1 : b ≠ '1'.toUInt8) : bitmap (b :: line) = none := by
  rw [bitmap, if_neg]
  intro hm
  rw [binaryPattern, Bool.and_eq_true, decide_eq_true_eq, List.all_eq_true] at hm
  obtain ⟨hne, hall⟩ := hm
  cases line with
  | nil => exact hne rfl
  | cons c line =>
    have := hall b (by simp)
    simp [h0, h1] at this

theorem bitmap_plain {text : List Char} (h : Plain text) (e : Eol) :
    bitmap (utf8 text ++ e.left) = none := by
  cases text with
  | nil => cases e <;> decide
  | cons c text =>
    -- the first character is blank or the first that is not
    have hc : c ≠ '0' ∧ c ≠ '1' := by
      by_cases hs : isSpace c = true
      · exact ⟨fun h0 => by rw [h0] at hs; exact absurd hs (by decide),
          fun h1 => by rw [h1] at hs; exact absurd hs (by decide)⟩
      · refine h.first c ?_
        rw [List.dropWhile_cons_of_neg hs]
        rfl
    have hbyte : ∀ {d : Char}, d.toNat < 128 → c ≠ d → d.toUInt8 ∉ utf8 [c] := fun hd hne =>
      not_mem_utf8 hd (by simpa using Ne.symm hne)
    have h0 := hbyte (d := '0') (by decide) hc.1
    have h1 := hbyte (d := '1') (by decide) hc.2
    cases hbytes : utf8 [c] with
    | nil =>
      have hlen := congrArg List.length hbytes
      rw [utf8, List.flatMap_singleton, String.length_utf8EncodeChar, List.length_nil] at hlen
      exact absurd hlen (Nat.ne_of_gt c.utf8Size_pos)
    | cons b bs =>
      rw [hbytes, List.mem_cons, not_or] at h0 h1
      rw [← List.singleton_append, utf8_append, hbytes]
      exact bitmap_eq_none (Ne.symm h0.1) (Ne.symm h1.1)

/-- **What `parse_input` reads in a log.** -/
theorem bitmaps_log (L : Log) : bitmaps (utf8 L.text) = L.lines.filterMap LogLine.parsed := by
  have hlast : (if utf8 L.rest = [] then [] else [utf8 L.rest]).filterMap bitmap = [] := by
    have hnone : bitmap (utf8 L.rest) = none := by
      simpa [Eol.left] using bitmap_plain L.rest_plain .lf
    by_cases hr : utf8 L.rest = []
    · rw [if_pos hr]; rfl
    · rw [if_neg hr, List.filterMap_cons_none hnone]; rfl
  rw [bitmaps, Log.text, lines_utf8 (fun l hl => L.content_ok hl) L.rest_plain,
    List.filterMap_append, hlast, List.append_nil, List.filterMap_map]
  apply List.filterMap_congr
  intro l hl
  cases l with
  | bitmap bits eol =>
    cases eol with
    | lf =>
      show bitmap (utf8 (bits.map bitChar) ++ []) = _
      rw [List.append_nil, bitmap_bits]
      rfl
    | crlf => exact bitmap_bits_cr (L.bits_ne_nil hl)
  | other text eol => exact bitmap_plain (L.other_plain text eol hl) eol

/-! ## The same trace -/

/-- Rows `1..n` and columns `0..m-1` of `a`. -/
def Globals.array (g : Globals) : Array2 where
  rows := g.n
  cols := g.m
  data := (List.range g.n).map fun k => (List.range g.m).map fun i => g.a (k + 1) i

theorem map_range_getD {row : List Nat} {m : Nat} (h : row.length = m) :
    (List.range m).map (fun i => row.getD i 0) = row := by
  apply List.ext_getElem
  · simpa using h.symm
  · intro i h1 h2
    simp [List.getD, h2]

theorem array_ofRows {rows : List (List Nat)} (h : ∀ r ∈ rows, r.length = width rows) :
    (Globals.ofRows rows).array = ⟨rows.length, width rows, rows⟩ := by
  show Array2.mk _ _ _ = Array2.mk _ _ _
  rw [Array2.mk.injEq]
  refine ⟨rfl, rfl, List.ext_getElem (by simp [Globals.ofRows]) fun k h1 h2 => ?_⟩
  rw [List.getElem_map, List.getElem_range]
  show (List.range (width rows)).map (fun i => (rows.getD k []).getD i 0) = rows[k]
  rw [List.getD_eq_getElem _ _ h2]
  exact map_range_getD (h _ (List.getElem_mem h2))

/-- Transposing twice gives the array back. -/
theorem Array2.T_T {rows : List (List Nat)} (h : ∀ r ∈ rows, r.length = width rows) :
    (Array2.mk rows.length (width rows) rows).T.T = ⟨rows.length, width rows, rows⟩ := by
  show Array2.mk _ _ _ = Array2.mk _ _ _
  rw [Array2.mk.injEq]
  refine ⟨rfl, rfl, List.ext_getElem (by simp [Array2.T]) fun k h1 h2 => ?_⟩
  simp only [Array2.T, List.getElem_map, List.getElem_range, List.map_map]
  rw [← map_range_getD (h _ (List.getElem_mem h2))]
  apply List.map_congr_left
  intro i _
  simp [List.getD, h2]

/-- Both loaders return, and one matrix is the transpose of the other. -/
def SameTrace (text : List Char) : Prop :=
  ∃ g A, parseInput (some (utf8 text)) = .ok g ∧ loadAccessData (some text) = some A ∧
    g.array = A.T

/-- Every bitmap line ends in CRLF, and the bitmaps fit the static array. -/
def Log.Readable (L : Log) : Prop :=
  L.rows.length < MAX_ITER ∧
    ∀ bits eol, .bitmap bits eol ∈ L.lines → eol = .crlf ∧ bits.length ≤ PAGE_NUM

/-- The bitmap lines that end in LF. -/
def LogLine.isLf : LogLine → Bool
  | .bitmap _ .lf => true
  | _ => false

/-- An LF costs a digit. -/
theorem digit_lost {l : LogLine} (h : ∀ bits eol, l = .bitmap bits eol → bits ≠ []) :
    (l.parsed.getD []).length + (if l.isLf then 1 else 0) = (l.row.getD []).length := by
  match l, h with
  | .other text eol, _ => rfl
  | .bitmap bits .crlf, _ => rfl
  | .bitmap bits .lf, h =>
    have hpos := List.length_pos_iff.mpr (h bits .lf rfl)
    have hdrop : bits.dropLast.length = bits.length - 1 := List.length_dropLast
    show ((if bits.dropLast = [] then none else some (bits.dropLast.map Bool.toNat)).getD []).length
      + 1 = (bits.map Bool.toNat).length
    rw [List.length_map]
    by_cases h0 : bits.dropLast = []
    · rw [h0, List.length_nil] at hdrop
      rw [if_pos h0, Option.getD_none, List.length_nil]
      omega
    · rw [if_neg h0, Option.getD_some, List.length_map]
      omega

/-- **The digits that `parse_input` loses are as many as the bitmap lines that end in LF.** -/
theorem digits_lost (ls : List LogLine) (hls : ∀ bits eol, .bitmap bits eol ∈ ls → bits ≠ []) :
    (ls.filterMap LogLine.parsed).flatten.length + ls.countP LogLine.isLf
      = (ls.filterMap LogLine.row).flatten.length := by
  induction ls with
  | nil => rfl
  | cons l ls ih =>
    have hcons : ∀ f : LogLine → Option (List Nat), ((l :: ls).filterMap f).flatten.length
        = ((f l).getD []).length + (ls.filterMap f).flatten.length := by
      intro f
      cases hf : f l <;> simp [hf]
    have hl := digit_lost (l := l) fun bits eol heq => hls bits eol (heq ▸ List.mem_cons_self)
    have ih := ih fun bits eol h => hls bits eol (List.mem_cons_of_mem l h)
    rw [hcons, hcons, List.countP_cons]
    omega

/-- `parse_input` sees the rows as they are exactly if no bitmap line ends in LF. -/
theorem parsed_eq_rows_iff (L : Log) : L.lines.filterMap LogLine.parsed = L.rows ↔
    ∀ bits eol, .bitmap bits eol ∈ L.lines → eol = .crlf := by
  constructor
  · intro heq bits eol hmem
    have hlost := digits_lost L.lines fun bits eol h => L.bits_ne_nil h
    rw [heq, Log.rows] at hlost
    have hnone : L.lines.countP LogLine.isLf = 0 := by omega
    rw [List.countP_eq_zero] at hnone
    cases eol with
    | lf => exact absurd rfl (hnone _ hmem)
    | crlf => rfl
  · intro hall
    apply List.filterMap_congr
    intro l hl
    cases l with
    | bitmap bits eol => rw [hall bits eol hl]; rfl
    | other text eol => rfl

/-- The rows of a log fit the array if there are not too many and they are not too wide. -/
theorem fits_rows_iff (L : Log) : Fits L.rows ↔ L.rows.length < MAX_ITER ∧
    ∀ bits eol, .bitmap bits eol ∈ L.lines → bits.length ≤ PAGE_NUM := by
  constructor
  · intro h
    refine ⟨h.n_lt, fun bits eol hl => ?_⟩
    have := h.uniform _ (L.mem_rows_iff.mpr ⟨bits, eol, hl, rfl⟩)
    rw [List.length_map] at this
    exact this ▸ h.m_le
  · rintro ⟨hn, hm⟩
    refine ⟨fun r hr h0 => ?_, L.uniform, hn, ?_⟩
    · have hw := L.mem_rows hr
      have hpos := L.width_pos
      rw [h0, List.length_nil] at hw
      omega
    · cases hrows : L.rows with
      | nil => decide
      | cons r rows =>
        have hr : r ∈ L.rows := by rw [hrows]; exact List.mem_cons_self
        obtain ⟨bits, eol, hl, rfl⟩ := L.mem_rows_iff.mp hr
        exact (List.length_map _).trans_le (hm bits eol hl)

/-- `parse_input` returns the rows of a log as they are exactly if the log is readable. -/
theorem parseInput_log_iff (L : Log) :
    (∃ g, parseInput (some (utf8 L.text)) = .ok g ∧ g.array.data = L.rows) ↔ L.Readable := by
  have hread : L.Readable ↔ Fits L.rows ∧ L.lines.filterMap LogLine.parsed = L.rows := by
    rw [fits_rows_iff, parsed_eq_rows_iff, Log.Readable]
    exact ⟨fun h => ⟨⟨h.1, fun b e hl => (h.2 b e hl).2⟩, fun b e hl => (h.2 b e hl).1⟩,
      fun h => ⟨h.1.1, fun b e hl => ⟨h.2 b e hl, h.1.2 b e hl⟩⟩⟩
  rw [hread]
  constructor
  · rintro ⟨g, hg, hdata⟩
    obtain ⟨hfit, rfl⟩ := (parseInput_eq_ok_iff _ g).mp hg
    rw [array_ofRows hfit.uniform] at hdata
    rw [← hdata, ← bitmaps_log]
    exact ⟨hfit, rfl⟩
  · rintro ⟨hfit, heq⟩
    have hg := (parseInput_eq_ok_iff (utf8 L.text) (Globals.ofRows L.rows)).mpr
      (by rw [bitmaps_log, heq]; exact ⟨hfit, rfl⟩)
    exact ⟨_, hg, by rw [array_ofRows hfit.uniform]⟩

/-- The log that the generator writes. -/
def generatedLog (numLines : Nat) (coin : Nat → Nat → Bool) : Log where
  lines := (List.range numLines).map fun k => .bitmap ((List.range 9000).map (coin k)) .lf
  rest := []
  width := 9000
  width_pos := by decide
  bitmap_width := by
    intro bits eol h
    obtain ⟨k, -, hk⟩ := List.mem_map.mp h
    rw [← (LogLine.bitmap.inj hk).1, List.length_map, List.length_range]
  other_plain := by
    intro text eol h
    obtain ⟨k, -, hk⟩ := List.mem_map.mp h
    cases hk
  rest_plain := ⟨List.not_mem_nil, List.not_mem_nil, fun c hc => by cases hc⟩

theorem generatedLog_text (numLines : Nat) (coin : Nat → Nat → Bool) :
    (generatedLog numLines coin).text = generateLinesToFile numLines coin := by
  show _ ++ [] = _
  rw [List.append_nil, generateLinesToFile]
  show ((List.range numLines).map _).flatMap LogLine.chars = _
  rw [List.flatMap_map]
  apply List.flatMap_congr
  intro k _
  show ((List.range 9000).map (coin k)).map bitChar ++ ['\n'] = _
  rw [List.map_map]
  rfl

theorem generatedLog_rows (numLines : Nat) (coin : Nat → Nat → Bool) :
    (generatedLog numLines coin).rows
      = (List.range numLines).map fun k => (List.range 9000).map fun i => (coin k i).toNat := by
  show ((List.range numLines).map _).filterMap LogLine.row = _
  rw [List.filterMap_map, ← List.filterMap_eq_map]
  apply List.filterMap_congr
  intro k _
  show some (((List.range 9000).map (coin k)).map Bool.toNat) = _
  rw [List.map_map]
  rfl

/-- **When the loaders agree.**  They read the same trace in a log exactly if all its bitmap lines
    end in CRLF and the bitmaps fit the static array; and `parse_input` recovers no trace of the
    generator but the empty one. -/
theorem loaders_agree_iff (L : Log) (numLines : Nat) (coin : Nat → Nat → Bool) :
    (SameTrace L.text ↔ L.Readable) ∧
    ((∃ g, parseInput (some (utf8 (generateLinesToFile numLines coin))) = .ok g ∧
      g.array.data = (List.range numLines).map fun k =>
        (List.range 9000).map fun i => (coin k i).toNat) ↔ numLines = 0) := by
  constructor
  · rw [← parseInput_log_iff, SameTrace]
    constructor
    · rintro ⟨g, A, hg, hA, heq⟩
      rw [loadAccessData_log] at hA
      cases hA
      rw [Array2.T_T L.uniform] at heq
      exact ⟨g, hg, congrArg Array2.data heq⟩
    · rintro ⟨g, hg, hdata⟩
      refine ⟨g, _, hg, loadAccessData_log L, ?_⟩
      obtain ⟨hfit, rfl⟩ := (parseInput_eq_ok_iff _ g).mp hg
      rw [array_ofRows hfit.uniform] at hdata ⊢
      rw [Array2.T_T L.uniform, ← hdata]
  · rw [← generatedLog_text, ← generatedLog_rows, parseInput_log_iff]
    constructor
    · rintro ⟨-, hall⟩
      by_contra hne
      have hmem : LogLine.bitmap ((List.range 9000).map (coin 0)) .lf
          ∈ (generatedLog numLines coin).lines :=
        List.mem_map.mpr ⟨0, List.mem_range.mpr (Nat.pos_of_ne_zero hne), rfl⟩
      cases (hall _ _ hmem).1
    · rintro rfl
      exact ⟨by rw [generatedLog_rows, List.length_map]; decide, fun bits eol h => by cases h⟩

/-- A one-line trace of two pages with a plain LF. -/
def lfLog : Log where
  lines := [.bitmap [false, true] .lf]
  rest := []
  width := 2
  width_pos := by decide
  bitmap_width := by
    intro bits eol h
    rw [← (LogLine.bitmap.inj (List.mem_singleton.mp h).symm).1]
    rfl
  other_plain := by
    intro text eol h
    cases List.mem_singleton.mp h
  rest_plain := ⟨List.not_mem_nil, List.not_mem_nil, fun c hc => by cases hc⟩

/-- `parse_input` sees one page, `load_access_data` two: not the same trace. -/
theorem lf_trace_loses_a_page :
    (parseInput (some (utf8 lfLog.text))).map Globals.array = .ok ⟨1, 1, [[0]]⟩ ∧
    (loadAccessData (some lfLog.text)).map Array2.T = some ⟨1, 2, [[0, 1]]⟩ ∧
    ¬ SameTrace lfLog.text := by
  have hparse : (parseInput (some (utf8 lfLog.text))).map Globals.array = .ok ⟨1, 1, [[0]]⟩ := by
    decide +kernel
  have hload : (loadAccessData (some lfLog.text)).map Array2.T = some ⟨1, 2, [[0, 1]]⟩ := by
    decide +kernel
  refine ⟨hparse, hload, ?_⟩
  rintro ⟨g, A, hg, hA, heq⟩
  rw [hg] at hparse
  rw [hA, Option.map_some, ← heq] at hload
  have hone := Except.ok.inj hparse
  rw [Option.some.inj hload] at hone
  exact absurd hone (by decide)

end QemuStudy.Policy
