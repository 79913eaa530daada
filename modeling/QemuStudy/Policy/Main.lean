/-
  What a run of `policy` prints: `main` of `policy.cc` and the formats of its lines.

  `policyMain` reads the trace and runs LFU (`poly_policy`), LRU and MIN on it, one after the other,
  with one target; `Outcome.text` is the text of a run that ends.  An assertion that fails stops the
  program, and with it this text.

  `policyMain_numbered` is what a reader of the text can rely on, for EVERY trace and EVERY target a
  run ends with, negative ones included: each policy prints one line for each iteration `1..n`, in
  this order, and no number in it is negative.
-/
import QemuStudy.Lib.Text
import QemuStudy.Policy.Min
import QemuStudy.Policy.Lru
import QemuStudy.Policy.Poly
import QemuStudy.Policy.ParseInput

namespace QemuStudy.Policy

open QemuStudy QemuStudy.Text

/-! ## Formats -/

/-- An `int` as `cout` and `printf("%d")` show it. -/
def showInt : Int → List Char
  | .ofNat v => decimal v
  | .negSucc v => '-' :: decimal (v + 1)

theorem showInt_of_nonneg {v : Int} (h : 0 ≤ v) : showInt v = decimal v.toNat := by
  obtain ⟨k, rfl⟩ := Int.eq_ofNat_of_zero_le h
  rfl

/-- The line that every policy prints after an iteration, without its end. -/
def Line.text (l : Line) : List Char :=
  "iter: ".toList ++ (decimal l.iter ++ (" dirty_set: ".toList ++ (decimal l.dirtySet ++
    (" evict: ".toList ++ (showInt l.evict ++ (" prev_dirty: ".toList ++ showInt l.prevDirty))))))

/-- The names under which the policies are announced. -/
inductive PolicyName
  | LFU
  | LRU
  | MIN
  deriving DecidableEq, Repr

/-- The policies in the order in which they run. -/
def PolicyName.all : List PolicyName := [.LFU, .LRU, .MIN]

def PolicyName.text : PolicyName → List Char
  | .LFU => "LFU".toList
  | .LRU => "LRU".toList
  | .MIN => "MIN".toList

/-- What a run prints: the size of the trace and the lines of each policy. -/
structure Outcome where
  n : Nat
  m : Nat
  lines : PolicyName → List Line

/-- `main`, from the file and the target on. -/
def policyMain (R : Resolution) (file : Option (List UInt8)) (cacheSize : Int32) :
    Except Fault Outcome := do
  let g ← parseInput file
  let lfu ← polyPolicy g R cacheSize
  let lru ← lruPolicy g cacheSize
  let min ← minPolicy g cacheSize
  return ⟨g.n, g.m, fun
    | .LFU => lfu
    | .LRU => lru
    | .MIN => min⟩

/-- `puts`. -/
def puts (s : List Char) : List Char := s ++ ['\n']

/-- `puts("\n\n\npolicy: LFU")` and the like. -/
def announce (p : PolicyName) : List Char := puts ("\n\n\npolicy: ".toList ++ p.text)

/-- The loop's `cout << .. << endl`, over all iterations. -/
def printLines (out : List Line) : List Char := out.flatMap fun l => l.text ++ ['\n']

/-- The text of a run.  `poly_policy` and `lru_policy` end with `puts("")`, `min_policy` does
    not. -/
def Outcome.text (o : Outcome) : List Char :=
  (decimal o.n ++ ' ' :: decimal o.m ++ ['\n']) ++
    (announce .LFU ++ printLines (o.lines .LFU) ++ puts []) ++
    (announce .LRU ++ printLines (o.lines .LRU) ++ puts []) ++
    (announce .MIN ++ printLines (o.lines .MIN))

/-- The line of iteration `k` under a policy. -/
def Outcome.lineAt (o : Outcome) (p : PolicyName) (k : Nat) : Option Line :=
  (o.lines p).find? fun l => l.iter = k

/-! ## The text, line by line -/

/-- The printed lines of one policy. -/
def Outcome.sectionLines (o : Outcome) (p : PolicyName) : List (List Char) :=
  [[], [], [], "policy: ".toList ++ p.text] ++ (o.lines p).map Line.text

/-- All printed lines. -/
def Outcome.allLines (o : Outcome) : List (List Char) :=
  (decimal o.n ++ ' ' :: decimal o.m) :: (o.sectionLines .LFU ++ [] :: (o.sectionLines .LRU ++
    [] :: o.sectionLines .MIN))

theorem Outcome.section_text (o : Outcome) (p : PolicyName) :
    announce p ++ printLines (o.lines p) = (o.sectionLines p).flatMap (· ++ ['\n']) := by
  rw [Outcome.sectionLines, List.flatMap_append, List.flatMap_map]
  simp [announce, puts, printLines]

theorem Outcome.text_eq (o : Outcome) : o.text = o.allLines.flatMap (· ++ ['\n']) := by
  rw [Outcome.text, Outcome.section_text, Outcome.section_text, Outcome.section_text,
    Outcome.allLines]
  simp [puts]

/-! ## One line for each iteration -/

/-- One line for each of the iterations `1..n`, in their order, with no negative number in it. -/
structure Numbered (n : Nat) (out : List Line) : Prop where
  iters : out.map Line.iter = (List.range n).map (· + 1)
  nonneg : ∀ l ∈ out, 0 ≤ l.evict ∧ 0 ≤ l.prevDirty

theorem numbered_report (row D : Nat → Finset Nat) (n : Nat) :
    Numbered n ((List.range n).map (report row D)) := by
  refine ⟨by rw [List.map_map]; rfl, fun l hl => ?_⟩
  obtain ⟨i, -, rfl⟩ := List.mem_map.mp hl
  exact ⟨Int.natCast_nonneg _, Int.natCast_nonneg _⟩

theorem evictNum_nonneg (target : Int32) (size : Nat) : 0 ≤ evictNum target size := by
  rw [evictNum]
  generalize toInt (subSizeT size (sizeT target)) = v
  by_cases hv : v < 0
  · rw [if_pos hv]
  · rw [if_neg hv]
    exact Int.not_lt.mp hv

/-- **One step.**  An iteration of `poly_policy` that ends keeps the invariant and prints its own
    number and no negative one, whatever the target. -/
theorem polyIteration_line (T : Trace) (R : Resolution) {target : Int32} {i : Nat} (hi : i < T.n)
    {s s' : PolyState} {l : Line} (hs : PolyInv T.toGlobals i s)
    (h : polyIteration T.toGlobals R target (i + 1) s = .ok (s', l)) :
    PolyInv T.toGlobals (i + 1) s' ∧ l.iter = i + 1 ∧ 0 ≤ l.evict ∧ 0 ≤ l.prevDirty := by
  obtain ⟨s₁, hrow, hinv, -⟩ := polyRow_spec T hi hs
  have hpages := T.pages hinv.keys
  have hprev : 0 ≤ toInt s₁.dirtySet.size := by
    rw [toInt_of_lt (Nat.lt_of_le_of_lt (DirtySet.size_le hpages) (by decide))]
    exact Int.natCast_nonneg _
  rw [polyIteration, hrow, ok_bind] at h
  by_cases hnum : (evictNum target s₁.dirtySet.size).toNat ≤ s₁.dirtySet.size
  · obtain ⟨s₂, hev, hval, htrue, hkeys⟩ := polyEvict_ok R target (i + 1) hinv.allTrue hpages hnum
    rw [hev, ok_bind] at h
    obtain ⟨rfl, rfl⟩ := Prod.mk.inj (Except.ok.inj h)
    refine ⟨⟨hval.trans hinv.value, htrue, fun p hp => hinv.keys ?_⟩, rfl, ?_, ?_⟩
    · rw [hkeys, List.mem_toFinset] at hp
      rw [← sortedPages_toFinset R (i + 1) s₁.value, List.mem_toFinset]
      exact List.mem_of_mem_drop hp
    · dsimp only
      exact evictNum_nonneg target s₁.dirtySet.size
    · dsimp only
      exact hprev
  · obtain ⟨e, he⟩ := polyEvict_error R target (i + 1) hinv.allTrue hpages (Nat.lt_of_not_le hnum)
    rw [he] at h
    cases h

theorem polyRun_numbered (T : Trace) (R : Resolution) (target : Int32) : ∀ (k : Nat), k ≤ T.n →
    ∀ {s : PolyState} {out : List Line}, polyRun T.toGlobals R target k = .ok (s, out) →
      PolyInv T.toGlobals k s ∧ Numbered k out := by
  intro k
  induction k with
  | zero =>
    intro _ s out h
    cases h
    exact ⟨⟨rfl, DirtySet.allTrue_empty, by simp⟩, rfl, by simp⟩
  | succ k ih =>
    intro hk s' out' h
    rw [polyRun_succ] at h
    obtain ⟨⟨s, out⟩, hrun, hlast⟩ := ok_of_bind h
    obtain ⟨hinv, hnum⟩ := ih (by omega) hrun
    obtain ⟨⟨s₁, l⟩, hit, hprinted⟩ := ok_of_bind hlast
    cases hprinted
    obtain ⟨hinv', hiter, hnonneg⟩ := polyIteration_line T R (by omega) hinv hit
    refine ⟨hinv', ?_, fun x hx => ?_⟩
    · rw [List.map_append, hnum.iters, List.range_succ, List.map_append, List.map_singleton,
        List.map_singleton, hiter]
    · rcases List.mem_append.mp hx with hold | hnew
      · exact hnum.nonneg x hold
      · obtain rfl := List.mem_singleton.mp hnew
        exact hnonneg

theorem polyPolicy_numbered (T : Trace) (R : Resolution) {target : Int32} {out : List Line}
    (h : polyPolicy T.toGlobals R target = .ok out) : Numbered T.n out := by
  rw [polyPolicy] at h
  obtain ⟨r, hrun, hr⟩ := ok_of_bind h
  cases hr
  exact (polyRun_numbered T R target T.n (Nat.le_refl _) hrun).2

/-- **What every run prints.** -/
theorem policyMain_numbered {R : Resolution} {file : List UInt8} {cacheSize : Int32} {o : Outcome}
    (h : policyMain R (some file) cacheSize = .ok o) (p : PolicyName) :
    Numbered o.n (o.lines p) := by
  rw [policyMain] at h
  obtain ⟨g, hg, hpolicies⟩ := ok_of_bind h
  obtain ⟨T, rfl⟩ := parseInput_trace hg
  rw [lruPolicy_eq, minPolicy_eq] at hpolicies
  obtain ⟨lfu, hlfu, hend⟩ := ok_of_bind hpolicies
  cases hend
  cases p with
  | LFU => exact polyPolicy_numbered T R hlfu
  | LRU => exact numbered_report _ _ _
  | MIN => exact numbered_report _ _ _

/-- Every trace that `parse_input` can store has an output, for every target `0 ≤ C`. -/
theorem policyMain_ends (R : Resolution) {file : List UInt8} {g : Globals}
    (hg : parseInput (some file) = .ok g) {cacheSize : Int32} (h0 : 0 ≤ cacheSize) :
    ∃ o, policyMain R (some file) cacheSize = .ok o ∧ o.n = g.n := by
  obtain ⟨T, rfl⟩ := parseInput_trace hg
  exact ⟨_, by rw [policyMain, hg, ok_bind, polyPolicy_eq T R h0, ok_bind, lruPolicy_eq,
    minPolicy_eq]; rfl, rfl⟩

/-- The iterations that have a line. -/
theorem lineAt_isSome_iff {o : Outcome} {p : PolicyName} (h : Numbered o.n (o.lines p)) {k : Nat} :
    (o.lineAt p k).isSome = true ↔ 1 ≤ k ∧ k ≤ o.n := by
  have hmem : k ∈ (o.lines p).map Line.iter ↔ 1 ≤ k ∧ k ≤ o.n := by
    rw [h.iters, List.mem_map]
    constructor
    · rintro ⟨i, hi, rfl⟩
      have := List.mem_range.mp hi
      omega
    · intro hk
      exact ⟨k - 1, List.mem_range.mpr (by omega), by omega⟩
  rw [← hmem, Outcome.lineAt, List.find?_isSome, List.mem_map]
  simp

end QemuStudy.Policy
