/-
  TEXT: comparing strings, decimal numerals, joined words, and searching with simple regular
  expressions.

  1. `textLE` compares two strings by their characters from the left, a proper beginning first:
     the order of `str` in Python.  It is a total order (`textLE_total`, `_trans`, `_antisymm`).

  2. `decimal n` is the numeral of `n` without sign or leading zeros.  Compared as TEXT, numerals
     are compared up to their common length only: for `a` with no more digits than `b`,
     `decimal a` comes first exactly if `a` is at most the number that the leading digits of `b`
     form (`textLE_decimal_iff`).  For numerals of equal length this is the order of the numbers.

  3. `join` is `sep.join(words)`; words without the first character of the separator can be read off
     the result (`join_injective`).

  4. A list sorted by one order is in another order exactly if the two agree on its members
     (`insertionSort_pairwise_iff`).

  5. A `Pattern` is a sequence of literal characters and greedy repetitions of a character class,
     some of them captured.  `matchAt` tries the longest repetition first and gives characters back
     one by one, `search` tries every position: what `re.search` does for such patterns.
     `matchAt_literals` and `matchAt_many` run a match over a text that was printed in the same
     order; `search_eq_none` says that a missing literal character rules every match out, and
     `search_skip` that lines without the literals are passed over.

  6. `Apart x y words`: no word has `x` directly before `y`, and no two words have them at their
     seam.  Then nothing made of these words contains `x, y` (`Apart.not_infix`).
-/
import Mathlib.Data.List.Basic
import Mathlib.Data.List.Chain
import Mathlib.Data.List.Pairwise
import Mathlib.Data.List.Sort
import Mathlib.Data.Nat.Digits.Defs

namespace QemuStudy.Text

/-! ## Strings in order -/

/-- `s <= t` for two strings. -/
def textLE : List Char → List Char → Bool
  | [], _ => true
  | _ :: _, [] => false
  | c :: s, d :: t => if c = d then textLE s t else decide (c.toNat < d.toNat)

theorem textLE_total : ∀ s t : List Char, textLE s t = true ∨ textLE t s = true := by
  intro s
  induction s with
  | nil => intro t; exact Or.inl rfl
  | cons c s ih =>
    intro t
    cases t with
    | nil => exact Or.inr rfl
    | cons d t =>
      by_cases hcd : c = d
      · subst hcd
        rw [textLE, textLE, if_pos rfl, if_pos rfl]
        exact ih t
      · have hne : c.toNat ≠ d.toNat := fun h => hcd (Char.toNat_inj.mp h)
        rw [textLE, textLE, if_neg hcd, if_neg (Ne.symm hcd), decide_eq_true_eq, decide_eq_true_eq]
        omega

theorem textLE_trans : ∀ {s t u : List Char}, textLE s t = true → textLE t u = true →
    textLE s u = true := by
  intro s
  induction s with
  | nil => intro t u _ _; rfl
  | cons c s ih =>
    intro t u hst htu
    match t, u with
    | [], _ => cases hst
    | _ :: _, [] => cases htu
    | d :: t, e :: u =>
      rw [textLE] at hst htu ⊢
      by_cases hcd : c = d
      · subst hcd
        by_cases hce : c = e
        · rw [if_pos rfl] at hst
          rw [if_pos hce] at htu ⊢
          exact ih hst htu
        · rw [if_neg hce] at htu ⊢
          exact htu
      · rw [if_neg hcd, decide_eq_true_eq] at hst
        by_cases hde : d = e
        · subst hde
          rw [if_neg hcd, decide_eq_true_eq]
          exact hst
        · rw [if_neg hde, decide_eq_true_eq] at htu
          have hce : c ≠ e := fun h => by subst h; omega
          rw [if_neg hce, decide_eq_true_eq]
          omega

theorem textLE_antisymm : ∀ {s t : List Char}, textLE s t = true → textLE t s = true → s = t := by
  intro s
  induction s with
  | nil =>
    intro t _ h
    cases t with
    | nil => rfl
    | cons d t => cases h
  | cons c s ih =>
    intro t hst hts
    cases t with
    | nil => cases hst
    | cons d t =>
      rw [textLE] at hst hts
      by_cases hcd : c = d
      · subst hcd
        rw [if_pos rfl] at hst hts
        rw [ih hst hts]
      · rw [if_neg hcd, decide_eq_true_eq] at hst
        rw [if_neg (Ne.symm hcd), decide_eq_true_eq] at hts
        omega

/-! ## Numerals -/

/-- The numeral of a number. -/
def decimal (n : Nat) : List Char := Nat.toDigits 10 n

/-- The number of a numeral. -/
def numeral (s : List Char) : Nat := Nat.ofDigitChars 10 s 0

theorem numeral_decimal (n : Nat) : numeral (decimal n) = n :=
  Nat.ofDigitChars_toDigits (by decide) (by decide)

theorem decimal_injective {a b : Nat} (h : decimal a = decimal b) : a = b := by
  rw [← numeral_decimal a, h, numeral_decimal]

theorem isDigit_of_mem_decimal {n : Nat} {c : Char} (h : c ∈ decimal n) : c.isDigit = true :=
  Nat.isDigit_of_mem_toDigits (by decide) (by decide) h

theorem decimal_ne_nil (n : Nat) : decimal n ≠ [] := Nat.toDigits_ne_nil

theorem decimal_length_mono {a b : Nat} (h : a ≤ b) :
    (decimal a).length ≤ (decimal b).length := by
  have hpos : 0 < (decimal b).length := List.length_pos_iff.mpr (decimal_ne_nil b)
  rw [decimal, Nat.length_toDigits_le_iff (by decide) hpos]
  exact Nat.lt_of_le_of_lt h ((Nat.length_toDigits_le_iff (by decide) hpos).mp (Nat.le_refl _))

theorem numeral_cons (c : Char) (s : List Char) :
    numeral (c :: s) = 10 ^ s.length * (c.toNat - '0'.toNat) + numeral s := by
  rw [numeral, Nat.ofDigitChars_cons, Nat.ofDigitChars_eq_ofDigitChars_zero, Nat.mul_zero,
    Nat.zero_add]
  rfl

theorem digit_toNat {c : Char} (h : c.isDigit = true) : 48 ≤ c.toNat ∧ c.toNat ≤ 57 :=
  Char.isDigit_iff_toNat.mp h

theorem numeral_lt {s : List Char} (h : ∀ c ∈ s, c.isDigit = true) :
    numeral s < 10 ^ s.length := by
  induction s with
  | nil => exact Nat.one_pos
  | cons c s ih =>
    have hd := digit_toNat (h c List.mem_cons_self)
    have h0 : '0'.toNat = 48 := rfl
    have hs := ih fun x hx => h x (List.mem_cons_of_mem c hx)
    rw [numeral_cons, List.length_cons, Nat.pow_succ]
    calc 10 ^ s.length * (c.toNat - '0'.toNat) + numeral s
        < 10 ^ s.length * (c.toNat - '0'.toNat) + 10 ^ s.length := by omega
      _ = 10 ^ s.length * (c.toNat - '0'.toNat + 1) := by rw [Nat.mul_add, Nat.mul_one]
      _ ≤ 10 ^ s.length * 10 := Nat.mul_le_mul_left _ (by omega)

/-- Numerals of one length compare like their numbers. -/
theorem textLE_iff_of_length_eq : ∀ {s t : List Char}, (∀ c ∈ s, c.isDigit = true) →
    (∀ c ∈ t, c.isDigit = true) → s.length = t.length →
    (textLE s t = true ↔ numeral s ≤ numeral t) := by
  intro s
  induction s with
  | nil =>
    intro t _ _ hlen
    obtain rfl : t = [] := List.length_eq_zero_iff.mp hlen.symm
    exact ⟨fun _ => Nat.le_refl _, fun _ => rfl⟩
  | cons c s ih =>
    intro t hs ht hlen
    cases t with
    | nil => cases hlen
    | cons d t =>
      have hlen' : s.length = t.length := Nat.succ.inj hlen
      have hs' := fun x hx => hs x (List.mem_cons_of_mem c hx)
      have ht' := fun x hx => ht x (List.mem_cons_of_mem d hx)
      have hlt := numeral_lt hs'
      have hlt' := numeral_lt ht'
      have hc := digit_toNat (hs c List.mem_cons_self)
      have hd := digit_toNat (ht d List.mem_cons_self)
      have h0 : '0'.toNat = 48 := rfl
      rw [textLE, numeral_cons, numeral_cons, ← hlen']
      rw [← hlen'] at hlt'
      by_cases hcd : c = d
      · subst hcd
        rw [if_pos rfl, ih hs' ht' hlen']
        omega
      · have hne : c.toNat ≠ d.toNat := fun h => hcd (Char.toNat_inj.mp h)
        rw [if_neg hcd, decide_eq_true_eq]
        constructor
        · intro hcd
          have hmul : 10 ^ s.length * (c.toNat - '0'.toNat + 1)
              ≤ 10 ^ s.length * (d.toNat - '0'.toNat) := Nat.mul_le_mul_left _ (by omega)
          rw [Nat.mul_add, Nat.mul_one] at hmul
          omega
        · intro hle
          by_contra hno
          have hmul : 10 ^ s.length * (d.toNat - '0'.toNat + 1)
              ≤ 10 ^ s.length * (c.toNat - '0'.toNat) := Nat.mul_le_mul_left _ (by omega)
          rw [Nat.mul_add, Nat.mul_one] at hmul
          omega

/-- Only the beginning of the longer string takes part in the comparison. -/
theorem textLE_take : ∀ {s t : List Char}, s.length ≤ t.length →
    textLE s t = textLE s (t.take s.length) := by
  intro s
  induction s with
  | nil => intro t _; rfl
  | cons c s ih =>
    intro t hlen
    cases t with
    | nil => cases hlen
    | cons d t =>
      rw [List.length_cons, List.take_succ_cons, textLE, textLE,
        ih (Nat.le_of_succ_le_succ hlen)]

theorem numeral_append (s t : List Char) :
    numeral (s ++ t) = 10 ^ t.length * numeral s + numeral t := by
  rw [numeral, Nat.ofDigitChars_append, Nat.ofDigitChars_eq_ofDigitChars_zero]
  rfl

/-- The leading digits of a numeral are the quotient by a power of ten. -/
theorem numeral_take {t : List Char} (ht : ∀ c ∈ t, c.isDigit = true) (k : Nat) :
    numeral (t.take k) = numeral t / 10 ^ (t.length - k) := by
  have hrest : numeral (t.drop k) < 10 ^ (t.length - k) := by
    have := numeral_lt fun c (hc : c ∈ t.drop k) => ht c (List.mem_of_mem_drop hc)
    rwa [List.length_drop] at this
  have hsplit := numeral_append (t.take k) (t.drop k)
  rw [List.take_append_drop, List.length_drop] at hsplit
  rw [hsplit, Nat.mul_add_div (Nat.pow_pos (by decide)), Nat.div_eq_of_lt hrest, Nat.add_zero]

/-- The number that the leading digits of `b` form, as many of them as `a` has. -/
def leading (a b : Nat) : Nat := b / 10 ^ ((decimal b).length - (decimal a).length)

/-- **Numerals as text.**  `decimal a` comes before `decimal b`, which has at least as many digits,
    exactly if `a` is at most the number of the leading digits of `b`. -/
theorem textLE_decimal_iff {a b : Nat} (h : (decimal a).length ≤ (decimal b).length) :
    textLE (decimal a) (decimal b) = true ↔ a ≤ leading a b := by
  have htake : ∀ c ∈ (decimal b).take (decimal a).length, c.isDigit = true :=
    fun c hc => isDigit_of_mem_decimal (List.mem_of_mem_take hc)
  have hlen : (decimal a).length = ((decimal b).take (decimal a).length).length := by
    rw [List.length_take, Nat.min_eq_left h]
  rw [textLE_take h, textLE_iff_of_length_eq (fun c => isDigit_of_mem_decimal) htake hlen,
    numeral_take (fun c => isDigit_of_mem_decimal), numeral_decimal, numeral_decimal, leading]

/-! ## Joined words -/

theorem takeWhile_run {cls : Char → Bool} {run rest : List Char} (hrun : ∀ c ∈ run, cls c = true)
    (hrest : ∀ c ∈ rest.head?, cls c = false) : (run ++ rest).takeWhile cls = run := by
  have hstop : rest.takeWhile cls = [] := by
    cases rest with
    | nil => rfl
    | cons c rest => rw [List.takeWhile_cons, hrest c rfl]; rfl
  rw [List.takeWhile_append_of_pos hrun, hstop, List.append_nil]

/-- What stands before the first `c`. -/
theorem takeWhile_ne {c : Char} {s rest : List Char} (hs : c ∉ s)
    (hrest : ∀ d ∈ rest.head?, d = c) :
    (s ++ rest).takeWhile (· ≠ c) = s :=
  takeWhile_run (fun _ hd => decide_eq_true fun h => hs (h ▸ hd))
    (fun d hd => decide_eq_false (not_not_intro (hrest d hd)))

theorem append_cons_injective {c : Char} {s t r r' : List Char} (hs : c ∉ s) (ht : c ∉ t)
    (h : s ++ c :: r = t ++ c :: r') : s = t ∧ r = r' := by
  have hst : s = t := by
    have hfirst : ∀ x : List Char, ∀ d ∈ (c :: x).head?, d = c := fun x d hd => by cases hd; rfl
    rw [← takeWhile_ne hs (hfirst r), h, takeWhile_ne ht (hfirst r')]
  subst hst
  exact ⟨rfl, (List.cons.inj (List.append_cancel_left h)).2⟩

/-- `sep.join(words)`. -/
def join (sep : List Char) : List (List Char) → List Char
  | [] => []
  | w :: words => w ++ words.flatMap (sep ++ ·)

/-- The first word ends where the separator begins, and so on. -/
theorem append_flatMap_injective {c : Char} {sep : List Char} : ∀ {u v : List (List Char)}
    {a b : List Char}, (∀ w ∈ a :: u, c ∉ w) → (∀ w ∈ b :: v, c ∉ w) →
    a ++ u.flatMap (c :: sep ++ ·) = b ++ v.flatMap (c :: sep ++ ·) → a = b ∧ u = v := by
  have hword : ∀ {a : List Char} {u : List (List Char)}, c ∉ a →
      (a ++ u.flatMap (c :: sep ++ ·)).takeWhile (· ≠ c) = a := by
    intro a u ha
    refine takeWhile_ne ha fun d hd => ?_
    cases u with
    | nil => cases hd
    | cons w u => cases hd; rfl
  intro u
  induction u with
  | nil =>
    intro v a b ha hb h
    have hab : a = b := by
      rw [← hword (u := []) (ha a List.mem_cons_self), h, hword (hb b List.mem_cons_self)]
    subst hab
    have hrest := List.append_cancel_left h
    cases v with
    | nil => exact ⟨rfl, rfl⟩
    | cons w v => cases hrest
  | cons w u ih =>
    intro v a b ha hb h
    have hab : a = b := by
      rw [← hword (u := w :: u) (ha a List.mem_cons_self), h, hword (hb b List.mem_cons_self)]
    subst hab
    have hrest := List.append_cancel_left h
    cases v with
    | nil => cases hrest
    | cons x v =>
      rw [List.flatMap_cons, List.flatMap_cons, List.append_assoc, List.append_assoc] at hrest
      obtain ⟨rfl, rfl⟩ := ih (fun y hy => ha y (List.mem_cons_of_mem a hy))
        (fun y hy => hb y (List.mem_cons_of_mem a hy)) (List.append_cancel_left hrest)
      exact ⟨rfl, rfl⟩

theorem mem_join {c : Char} {sep : List Char} {words : List (List Char)}
    (h : c ∈ join sep words) : c ∈ sep ∨ ∃ w ∈ words, c ∈ w := by
  cases words with
  | nil => cases h
  | cons w words =>
    rcases List.mem_append.mp h with hw | hrest
    · exact Or.inr ⟨w, List.mem_cons_self, hw⟩
    · obtain ⟨x, hx, hc⟩ := List.mem_flatMap.mp hrest
      rcases List.mem_append.mp hc with hsep | hin
      · exact Or.inl hsep
      · exact Or.inr ⟨x, List.mem_cons_of_mem w hx, hin⟩

/-- Words that are not empty and lack the first character of the separator can be read off the
    joined text. -/
theorem join_injective {c : Char} {sep : List Char} {u v : List (List Char)}
    (hu : ∀ w ∈ u, w ≠ [] ∧ c ∉ w) (hv : ∀ w ∈ v, w ≠ [] ∧ c ∉ w)
    (h : join (c :: sep) u = join (c :: sep) v) : u = v := by
  cases u with
  | nil =>
    cases v with
    | nil => rfl
    | cons b v => exact absurd (List.append_eq_nil_iff.mp h.symm).1 (hv b List.mem_cons_self).1
  | cons a u =>
    cases v with
    | nil => exact absurd (List.append_eq_nil_iff.mp h).1 (hu a List.mem_cons_self).1
    | cons b v =>
      obtain ⟨rfl, rfl⟩ := append_flatMap_injective (fun w hw => (hu w hw).2)
        (fun w hw => (hv w hw).2) h
      rfl

/-! ## Sorting -/

/-- **Sorted by one order, wanted by another.**  The list sorted by `r` is in the order of `s`
    exactly if `r` agrees with `s` on its members. -/
theorem insertionSort_pairwise_iff {α : Type*} {r s : α → α → Prop} [DecidableRel r]
    [Std.Total r] [IsTrans α r] (hanti : ∀ {x y}, r x y → r y x → x = y) (hrefl : ∀ x, s x x)
    (l : List α) :
    (l.insertionSort r).Pairwise s ↔ ∀ x ∈ l, ∀ y ∈ l, ¬ s y x → r x y := by
  have hsorted : (l.insertionSort r).Pairwise r := List.pairwise_insertionSort r l
  have hmem : ∀ x, x ∈ l.insertionSort r ↔ x ∈ l := fun x => List.mem_insertionSort r
  constructor
  · intro h x hx y hy hxy
    -- of two members one stands first, and both orders say the same about them
    have hboth := (hsorted.and h).imp (S := fun a b => (r a b ∧ s a b) ∨ (r b a ∧ s b a)) Or.inl
    have hsymm : Std.Symm fun a b => (r a b ∧ s a b) ∨ (r b a ∧ s b a) :=
      ⟨fun _ _ hab => Or.symm hab⟩
    have hne : x ≠ y := fun h => hxy (h ▸ hrefl x)
    have hcase := hboth.forall ((hmem x).mpr hx) ((hmem y).mpr hy) hne
    rcases hcase with hxy' | hyx
    · exact hxy'.1
    · exact absurd hyx.2 hxy
  · intro h
    refine hsorted.imp_of_mem fun {x y} hx hy hr => ?_
    by_contra hno
    have heq := hanti hr (h y ((hmem y).mp hy) x ((hmem x).mp hx) hno)
    exact hno (heq ▸ hrefl x)

/-! ## Patterns -/

/-- One item of a pattern: a character, or a greedy repetition of the characters of a class, at
    least `least` of them, captured or not. -/
inductive Item where
  | lit (c : Char)
  | many (least : Nat) (cls : Char → Bool) (captured : Bool)

/-- A pattern: its items in their order. -/
abbrev Pattern := List Item

/-- The characters of a text as a pattern. -/
def literals (text : List Char) : Pattern := text.map Item.lit

/-- Match the pattern from the first character of the text on.  The result is what the captured
    items matched. -/
def matchAt : Pattern → List Char → Option (List (List Char))
  | [], _ => some []
  | .lit _ :: _, [] => none
  | .lit c :: re, d :: s => if d = c then matchAt re s else none
  | .many least cls captured :: re, s =>
    -- the longest run first; each further attempt gives one character back
    let longest := (s.takeWhile cls).length
    (List.range (longest + 1 - least)).findSome? fun back =>
      (matchAt re (s.drop (longest - back))).map fun groups =>
        if captured then s.take (longest - back) :: groups else groups

/-- `re.search`: the match at the first position that has one. -/
def search (re : Pattern) : List Char → Option (List (List Char))
  | [] => matchAt re []
  | c :: s => (matchAt re (c :: s)).or (search re s)

theorem matchAt_literals (text : List Char) (re : Pattern) (s : List Char) :
    matchAt (literals text ++ re) (text ++ s) = matchAt re s := by
  induction text with
  | nil => rfl
  | cons c text ih =>
    rw [literals, List.map_cons, List.cons_append, List.cons_append, matchAt, if_pos rfl]
    exact ih

/-- A repetition takes a whole run of its class if what follows matches after it. -/
theorem matchAt_many (least : Nat) (cls : Char → Bool) (captured : Bool) {re : Pattern}
    (run : List Char) {rest : List Char} {groups : List (List Char)}
    (hrun : ∀ c ∈ run, cls c = true) (hrest : ∀ c ∈ rest.head?, cls c = false)
    (hleast : least ≤ run.length)
    (hre : matchAt re rest = some groups) :
    matchAt (.many least cls captured :: re) (run ++ rest)
      = some (if captured then run :: groups else groups) := by
  have htries : run.length + 1 - least = (run.length - least) + 1 := by omega
  rw [matchAt, takeWhile_run hrun hrest, htries, List.range_succ_eq_map]
  simp only [List.findSome?_cons, Nat.sub_zero, List.drop_left, List.take_left, hre,
    Option.map_some]

/-- A text that matches has every literal character of the pattern. -/
theorem mem_of_matchAt {re : Pattern} {c : Char} (hc : Item.lit c ∈ re) :
    ∀ {s : List Char} {groups : List (List Char)}, matchAt re s = some groups → c ∈ s := by
  induction re with
  | nil => cases hc
  | cons item re ih =>
    intro s groups h
    cases item with
    | lit d =>
      cases s with
      | nil => cases h
      | cons x s =>
        rw [matchAt] at h
        by_cases hx : x = d
        · subst hx
          rw [if_pos rfl] at h
          rcases List.mem_cons.mp hc with heq | hin
          · cases heq
            exact List.mem_cons_self
          · exact List.mem_cons_of_mem x (ih hin h)
        · rw [if_neg hx] at h
          cases h
    | many least cls captured =>
      have hin : Item.lit c ∈ re := by
        rcases List.mem_cons.mp hc with heq | hin
        · cases heq
        · exact hin
      rw [matchAt] at h
      obtain ⟨back, -, hback⟩ := List.exists_of_findSome?_eq_some h
      obtain ⟨inner, hinner, -⟩ := Option.map_eq_some_iff.mp hback
      exact List.mem_of_mem_drop (ih hin hinner)

theorem search_eq_none {re : Pattern} {c : Char} (hc : Item.lit c ∈ re) {s : List Char}
    (hs : c ∉ s) : search re s = none := by
  have hnone : ∀ t : List Char, c ∉ t → matchAt re t = none := fun t ht =>
    Option.eq_none_iff_forall_not_mem.mpr fun _ hg => ht (mem_of_matchAt hc hg)
  induction s with
  | nil => exact hnone [] hs
  | cons x s ih =>
    rw [search, hnone _ hs, Option.none_or]
    exact ih fun h => hs (List.mem_cons_of_mem x h)

theorem search_of_matchAt {re : Pattern} {s : List Char} {groups : List (List Char)}
    (h : matchAt re s = some groups) : search re s = some groups := by
  cases s with
  | nil => exact h
  | cons c s => rw [search, h, Option.some_or]

/-- A match starts with the literals. -/
theorem prefix_of_matchAt {w : List Char} {re : Pattern} : ∀ {s : List Char}
    {groups : List (List Char)}, matchAt (literals w ++ re) s = some groups → w <+: s := by
  induction w with
  | nil => exact fun _ => List.nil_prefix
  | cons c w ih =>
    intro s groups h
    cases s with
    | nil => cases h
    | cons d s =>
      rw [literals, List.map_cons, List.cons_append, matchAt] at h
      split at h
      · rename_i hdc
        subst hdc
        exact (List.prefix_cons_inj d).mpr (ih h)
      · cases h

/-- A stretch that does not contain the literals, and ends with a character they do not have, is
    passed over. -/
theorem search_skip {w : List Char} {c : Char} (hc : c ∉ w) (re : Pattern) {s : List Char} :
    ∀ {l : List Char}, l.getLast? = some c → ¬ w <:+: l →
      search (literals w ++ re) (l ++ s) = search (literals w ++ re) s := by
  intro l
  induction l with
  | nil => intro hlast; cases hlast
  | cons x l ih =>
    intro hlast hl
    have hnone : matchAt (literals w ++ re) (x :: l ++ s) = none := by
      refine Option.eq_none_iff_forall_not_mem.mpr fun groups hg => ?_
      rcases List.prefix_or_prefix_of_prefix (prefix_of_matchAt hg) (List.prefix_append (x :: l) s)
        with hwl | hlw
      · exact hl hwl.isInfix
      · exact hc (hlw.subset (List.mem_of_getLast? hlast))
    rw [List.cons_append] at hnone ⊢
    rw [search, hnone, Option.none_or]
    cases l with
    | nil => rfl
    | cons y l =>
      rw [List.getLast?_cons_cons] at hlast
      exact ih hlast fun hin => hl (hin.trans (List.suffix_cons x _).isInfix)

/-! ## Neighbours in a concatenation -/

section Neighbours

variable {α : Type*} {x y : α} {words ws : List (List α)}

/-- `x` is never directly before `y`, neither inside a word nor where two words meet. -/
def Apart (x y : α) (words : List (List α)) : Prop :=
  (∀ w ∈ words, w.IsChain fun a b => ¬ (a = x ∧ b = y)) ∧
    ∀ w ∈ words, ∀ w' ∈ words, ¬ (w.getLast? = some x ∧ w'.head? = some y)

instance [DecidableEq α] : Decidable (Apart x y words) := inferInstanceAs (Decidable (_ ∧ _))

theorem Apart.not_infix (h : Apart x y words) (hws : ∀ w ∈ ws, w = [] ∨ w ∈ words) :
    ¬ [x, y] <:+: ws.flatten := by
  intro hin
  have hmem : ∀ w ∈ ws.filter (!·.isEmpty), w ∈ words := by
    intro w hw
    obtain ⟨hw, hne⟩ := List.mem_filter.mp hw
    rcases hws w hw with rfl | hw
    · cases hne
    · exact hw
  have hne : [] ∉ ws.filter (!·.isEmpty) := by simp
  have hchain : ws.flatten.IsChain fun a b => ¬ (a = x ∧ b = y) := by
    rw [← List.flatten_filter_not_isEmpty, List.isChain_flatten hne]
    refine ⟨fun w hw => h.1 w (hmem w hw), ?_⟩
    refine List.Pairwise.isChain (List.pairwise_of_forall_mem_list fun w hw w' hw' => ?_)
    rintro a ha b hb ⟨rfl, rfl⟩
    exact h.2 w (hmem w hw) w' (hmem w' hw') ⟨ha, hb⟩
  exact (List.isChain_pair.mp ( List.IsChain.infix hchain hin)) ⟨rfl, rfl⟩

/-- Neighbours as the pairs of a list with its own tail. -/
theorem mem_zip_tail_iff_infix {s : List α} : (x, y) ∈ s.zip s.tail ↔ [x, y] <:+: s := by
  induction s with
  | nil => simp
  | cons a s ih =>
    cases s with
    | nil =>
      refine ⟨fun h => (nomatch h), fun h => ?_⟩
      have := h.length_le
      simp at this
    | cons b s =>
      have hhead : [x, y] <+: a :: b :: s ↔ (x, y) = (a, b) := by
        simp [List.cons_prefix_cons]
      rw [List.tail_cons, List.zip_cons_cons, List.mem_cons, List.infix_cons_iff, hhead]
      exact or_congr_right ih

end Neighbours

end QemuStudy.Text
