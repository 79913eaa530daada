/-
  LINES OF A STREAM.

  `getline nl s` is one call of `getline`: nothing at the end of the stream, else what stands before
  the first `nl` and the rest behind it.  `lines nl s` is what the loop `while (getline(..))` gets
  to see; `lines_getline` is that loop.  The last line need not be terminated, and an empty rest is
  not a line.

  `lines_terminated` and `lines_rest` are all that is needed to read a text written line by line.
  `keepLines` is the same for readers that leave the terminator at the line.

  `fgets` reads a line in pieces of bounded size; `fgets_line` says that no piece reaches into the
  next line.
-/
import Mathlib.Data.List.Basic
import Mathlib.Data.List.TakeWhile

namespace QemuStudy.Lines

variable {α : Type*} [DecidableEq α]

/-- One `getline`: the line and the rest of the stream. -/
def getline (nl : α) : List α → Option (List α × List α)
  | [] => none
  | c :: s => some ((c :: s).takeWhile (· ≠ nl), ((c :: s).dropWhile (· ≠ nl)).tail)

/-- The lines of a stream, without their terminators. -/
def lines (nl : α) : List α → List (List α)
  | [] => []
  | c :: s =>
    if c = nl then [] :: lines nl s
    else match lines nl s with
      | [] => [[c]]
      | l :: ls => (c :: l) :: ls

theorem lines_cons_nl (nl : α) (s : List α) : lines nl (nl :: s) = [] :: lines nl s := by
  rw [lines, if_pos rfl]

/-- **The loop.**  `lines` is what one `getline` after the other returns. -/
theorem lines_getline (nl : α) : ∀ s : List α, lines nl s = match getline nl s with
    | none => []
    | some (l, rest) => l :: lines nl rest := by
  intro s
  induction s with
  | nil => rfl
  | cons c s ih =>
    by_cases hc : c = nl
    · subst hc
      simp [getline, lines_cons_nl]
    · rw [lines, if_neg hc, ih]
      cases s with
      | nil => simp [getline, hc, lines]
      | cons d s => simp [getline, hc]

/-- A terminated line is the first line. -/
theorem lines_terminated {nl : α} {l : List α} (h : nl ∉ l) (s : List α) :
    lines nl (l ++ nl :: s) = l :: lines nl s := by
  induction l with
  | nil => exact lines_cons_nl nl s
  | cons c l ih =>
    rw [List.mem_cons, not_or] at h
    rw [List.cons_append, lines, if_neg (Ne.symm h.1), ih h.2]

/-- A text written line by line is read line by line. -/
theorem lines_flatMap {nl : α} {ls : List (List α)} (h : ∀ l ∈ ls, nl ∉ l) :
    lines nl (ls.flatMap (· ++ [nl])) = ls := by
  induction ls with
  | nil => rfl
  | cons l ls ih =>
    rw [List.flatMap_cons, List.append_assoc, List.singleton_append,
      lines_terminated (h l List.mem_cons_self),
      ih fun x hx => h x (List.mem_cons_of_mem l hx)]

/-- What follows the last terminator is a line unless it is empty. -/
theorem lines_rest {nl : α} {l : List α} (h : nl ∉ l) :
    lines nl l = if l = [] then [] else [l] := by
  induction l with
  | nil => rfl
  | cons c l ih =>
    rw [List.mem_cons, not_or] at h
    rw [lines, if_neg (Ne.symm h.1), ih h.2, if_neg (List.cons_ne_nil c l)]
    by_cases hl : l = []
    · rw [if_pos hl, hl]
    · rw [if_neg hl]

/-- The lines of a stream, each with its terminator. -/
def keepLines (nl : α) : List α → List (List α)
  | [] => []
  | c :: s =>
    if c = nl then [c] :: keepLines nl s
    else match keepLines nl s with
      | [] => [[c]]
      | l :: ls => (c :: l) :: ls

theorem keepLines_terminated {nl : α} {l : List α} (h : nl ∉ l) (s : List α) :
    keepLines nl (l ++ nl :: s) = (l ++ [nl]) :: keepLines nl s := by
  induction l with
  | nil => rw [List.nil_append, keepLines, if_pos rfl]; rfl
  | cons c l ih =>
    rw [List.mem_cons, not_or] at h
    rw [List.cons_append, keepLines, if_neg (Ne.symm h.1), ih h.2]
    rfl

/-- The same with the terminators. -/
theorem keepLines_flatMap {nl : α} {ls : List (List α)} (h : ∀ l ∈ ls, nl ∉ l) :
    keepLines nl (ls.flatMap (· ++ [nl])) = ls.map (· ++ [nl]) := by
  induction ls with
  | nil => rfl
  | cons l ls ih =>
    rw [List.flatMap_cons, List.append_assoc, List.singleton_append,
      keepLines_terminated (h l List.mem_cons_self),
      ih fun x hx => h x (List.mem_cons_of_mem l hx), List.map_cons]

theorem forall_ne_of_notMem {c : α} {l : List α} (h : c ∉ l) : ∀ b ∈ l, decide (b ≠ c) = true :=
  fun _ hb => decide_eq_true fun heq => h (heq ▸ hb)

/-! ## Lines in pieces -/

/-- One `fgets` with room for `n` items: it stops behind the first `nl`, after `n` items or at the
    end of the stream, whichever comes first. -/
def fgets (nl : α) (n : Nat) : List α → Option (List α × List α)
  | [] => none
  | c :: s =>
    let k := min n (((c :: s).takeWhile (· ≠ nl)).length + 1)
    some ((c :: s).take k, (c :: s).drop k)

/-- The first line of the stream `l ++ s`, or what is left of it: `nl` stands at its end and nowhere
    else, or it is the unterminated rest of the stream. -/
def IsLine (nl : α) (l s : List α) : Prop :=
  (∃ t, nl ∉ t ∧ l = t ++ [nl]) ∨ (nl ∉ l ∧ s = [])

theorem IsLine.drop {β : Type*} {nl : β} {l s : List β} (h : IsLine nl l s) {n : Nat}
    (hn : n < l.length) : IsLine nl (l.drop n) s := by
  rcases h with ⟨t, ht, rfl⟩ | ⟨hl, hs⟩
  · rw [List.length_append, List.length_singleton] at hn
    refine Or.inl ⟨t.drop n, fun hmem => ht (List.mem_of_mem_drop hmem), ?_⟩
    exact List.drop_append_of_le_length (by omega)
  · exact Or.inr ⟨fun hmem => hl (List.mem_of_mem_drop hmem), hs⟩

/-- `fgets` takes the first `n` items of a line and never reaches into the next one. -/
theorem fgets_line {nl : α} {l s : List α} (h : IsLine nl l s) (hne : l ≠ []) (n : Nat) :
    fgets nl n (l ++ s) = some (l.take n, l.drop n ++ s) := by
  have hstream : l ++ s ≠ [] := fun hnil => hne (List.append_eq_nil_iff.mp hnil).1
  have hfgets : ∀ {x : List α}, x ≠ [] → fgets nl n x
      = some (x.take (min n ((x.takeWhile (· ≠ nl)).length + 1)),
          x.drop (min n ((x.takeWhile (· ≠ nl)).length + 1))) := by
    intro x hx
    cases x with
    | nil => exact absurd rfl hx
    | cons c x => rfl
  rw [hfgets hstream]
  rcases h with ⟨t, ht, rfl⟩ | ⟨hl, rfl⟩
  · have htake : ((t ++ [nl] ++ s).takeWhile (· ≠ nl)).length + 1 = (t ++ [nl]).length := by
      rw [List.append_assoc, List.takeWhile_append_of_pos (forall_ne_of_notMem ht)]
      simp
    rw [htake, List.take_append_of_le_length (Nat.min_le_right _ _), ← List.take_take,
      List.take_length, List.drop_append_of_le_length (Nat.min_le_right _ _)]
    rcases Nat.le_total n (t ++ [nl]).length with hle | hge
    · rw [Nat.min_eq_left hle]
    · rw [Nat.min_eq_right hge, List.drop_length, List.drop_eq_nil_of_le hge]
  · rw [List.append_nil, List.append_nil, List.takeWhile_eq_self_iff.mpr (forall_ne_of_notMem hl)]
    rcases Nat.le_total n (l.length + 1) with hle | hge
    · rw [Nat.min_eq_left hle]
    · rw [Nat.min_eq_right hge, List.take_of_length_le (by omega),
        List.drop_eq_nil_of_le (by omega), List.take_of_length_le (by omega),
        List.drop_eq_nil_of_le (by omega)]

end QemuStudy.Lines
