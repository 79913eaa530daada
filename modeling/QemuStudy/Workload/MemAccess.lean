/-
  `apps/random-write/mem_access.c`: which bytes can the random-write workload dirty?

  The loop of `mem_access` flips `memory[rand_u64() % size]`, with `size = N * GB`.  `rand_u64`
  glues two values of `rand()` at bit 32, but `rand()` has 31 bits only: bits 31 and 63 of the
  result are always 0.  In units of 1 GB (bit 30) the drawn number is `4 * upper + b`, `b` being
  the top bit of `lower`, so the GB block that is hit is `(4 * upper + b) % N` with `b < 2`
  (`offset_block`), and within its block any byte can be hit (`hits_iff`).

  * If 4 divides `N`, the blocks 2 and 3 of every four are never hit, in any run
    (`memAccess_hole`).
  * If `N % 4 = 2`, doubling wraps around and every block is hit.
  * If `N` is odd, each block comes up within three rounds through the blocks, but the upper half
    has to go that far: every block is hit exactly if `3 * N ≤ 2^33 + 1`.

  `whole_buffer_iff` puts the three together.
-/
import Mathlib.Data.Nat.Bitwise
import Mathlib.Logic.Function.Basic

namespace QemuStudy.Workload

/-! ## The program -/

/-- `#define GB (1024UL * 1024UL * 1024UL)` -/
def GB : UInt64 := 1024 * 1024 * 1024

/-- What `rand()` returns: `0, …, RAND_MAX` with `RAND_MAX = 2^31 - 1`. -/
abbrev Rand := Fin (2 ^ 31)

/-- `rand_u64`, for the two values that `rand()` returns: the first is the upper one. -/
def randU64 (r : Rand × Rand) : UInt64 :=
  let upper := UInt64.ofNat r.1
  let lower := UInt64.ofNat r.2
  (upper <<< 32) ||| lower

/-- `args.size = N * GB` in `main`. -/
def bufferSize (N : Nat) : UInt64 := UInt64.ofNat N * GB

/-- `size_t random_offset = rand_u64() % size;` -/
def randomOffset (size : UInt64) (r : Rand × Rand) : Nat := (randU64 r % size).toNat

/-- The body of `while (1)`: `memory[random_offset] ^= 1`. -/
def accessOnce (size : UInt64) (memory : Nat → UInt8) (r : Rand × Rand) : Nat → UInt8 :=
  Function.update memory (randomOffset size r) (memory (randomOffset size r) ^^^ 1)

/-- `mem_access` after the passes that drew `rs`. -/
def memAccess (size : UInt64) (rs : List (Rand × Rand)) (memory : Nat → UInt8) : Nat → UInt8 :=
  rs.foldl (accessOnce size) memory

/-! ## Words as numbers -/

theorem randU64_toNat (r : Rand × Rand) : (randU64 r).toNat = r.1 * 2 ^ 32 + r.2 := by
  have h1 : r.1.val < 2147483648 := r.1.isLt
  have h2 : r.2.val < 2147483648 := r.2.isLt
  have hu : (UInt64.ofNat r.1).toNat = r.1 := by rw [UInt64.toNat_ofNat']; omega
  have hl : (UInt64.ofNat r.2).toNat = r.2 := by rw [UInt64.toNat_ofNat']; omega
  show ((UInt64.ofNat r.1 <<< 32) ||| UInt64.ofNat r.2).toNat = _
  rw [UInt64.toNat_or, UInt64.toNat_shiftLeft, hu, hl]
  show (r.1.val <<< 32) % 2 ^ 64 ||| r.2.val = _
  rw [Nat.shiftLeft_eq, Nat.mod_eq_of_lt (by omega), ← Nat.shiftLeft_eq,
    ← Nat.shiftLeft_add_eq_or_of_lt (by omega), Nat.shiftLeft_eq]

theorem bufferSize_toNat {N : Nat} (hN : N * 2 ^ 30 ≤ 2 ^ 62) :
    (bufferSize N).toNat = 2 ^ 30 * N := by
  rw [bufferSize, UInt64.toNat_mul, UInt64.toNat_ofNat']
  show N % 2 ^ 64 * 1073741824 % 2 ^ 64 = _
  omega

/-- The offset, split into the GB block and the byte within the block. -/
theorem offset_block {N : Nat} (hN : N * 2 ^ 30 ≤ 2 ^ 62) (r : Rand × Rand) :
    randomOffset (bufferSize N) r
      = r.2 % 2 ^ 30 + 2 ^ 30 * ((4 * r.1 + r.2 / 2 ^ 30) % N) := by
  rw [randomOffset, UInt64.toNat_mod, randU64_toNat, bufferSize_toNat hN, Nat.mod_mul]
  congr 1
  · omega
  · congr 2
    omega

/-- Block `k` is hit by `4 * u + b`. -/
def BlockHit (N k : Nat) : Prop := ∃ u b, u < 2 ^ 31 ∧ b < 2 ∧ (4 * u + b) % N = k

/-- **Which offsets are hit** is decided by the GB block alone. -/
theorem hits_iff {N : Nat} (hN : N * 2 ^ 30 ≤ 2 ^ 62) (o : Nat) :
    (∃ r, randomOffset (bufferSize N) r = o) ↔ BlockHit N (o / 2 ^ 30) := by
  constructor
  · rintro ⟨r, rfl⟩
    have h2 := r.2.isLt
    refine ⟨r.1, r.2 / 2 ^ 30, r.1.isLt, by omega, ?_⟩
    rw [offset_block hN]
    omega
  · rintro ⟨u, b, hu, hb, hblock⟩
    refine ⟨(⟨u, hu⟩, ⟨b * 2 ^ 30 + o % 2 ^ 30, by omega⟩), ?_⟩
    rw [offset_block hN]
    show (b * 2 ^ 30 + o % 2 ^ 30) % 2 ^ 30
      + 2 ^ 30 * ((4 * u + (b * 2 ^ 30 + o % 2 ^ 30) / 2 ^ 30) % N) = o
    rw [show (b * 2 ^ 30 + o % 2 ^ 30) / 2 ^ 30 = b by omega, hblock]
    omega

/-! ## The blocks -/

/-- A way to hit block `k`: after `j` rounds through the blocks, at a place that is 0 or 1 modulo 4
    and in reach of the upper half. -/
theorem blockHit_of_round {N k j : Nat} (hk : k < N) (hmod : (k + j * N) % 4 < 2)
    (hreach : (k + j * N) / 4 < 2 ^ 31) : BlockHit N k := by
  refine ⟨(k + j * N) / 4, (k + j * N) % 4, hreach, hmod, ?_⟩
  rw [show 4 * ((k + j * N) / 4) + (k + j * N) % 4 = k + j * N by omega, Nat.add_mul_mod_self_right,
    Nat.mod_eq_of_lt hk]

/-- Every hit is of that kind. -/
theorem BlockHit.round {N k : Nat} (h : BlockHit N k) :
    ∃ j, (k + j * N) % 4 < 2 ∧ (k + j * N) / 4 < 2 ^ 31 := by
  obtain ⟨u, b, hu, hb, hmod⟩ := h
  refine ⟨(4 * u + b) / N, ?_⟩
  have hdiv : k + (4 * u + b) / N * N = 4 * u + b := by
    rw [← hmod, Nat.mod_add_div']
  rw [hdiv]
  omega

/-- Two rounds through the blocks reach everything if `N` is twice an odd number, or odd and not
    too large. -/
theorem blockHit_of {N : Nat} (hN : N ≤ 2 ^ 32)
    (h : N % 4 = 2 ∨ (N % 2 = 1 ∧ 3 * N ≤ 2 ^ 33 + 1)) {k : Nat} (hk : k < N) : BlockHit N k := by
  -- the first of the rounds 0, 1, 2 in which the place of `k` is 0 or 1 modulo 4
  by_cases h0 : k % 4 < 2
  · exact blockHit_of_round (j := 0) hk (by omega) (by omega)
  · by_cases h1 : (k + N) % 4 < 2
    · exact blockHit_of_round (j := 1) hk (by omega) (by omega)
    · exact blockHit_of_round (j := 2) hk (by omega) (by omega)

/-- If 4 divides `N`, no round changes the place of a block modulo 4. -/
theorem not_blockHit_of_four_dvd {N k : Nat} (hN : N % 4 = 0) (hk : 2 ≤ k % 4) :
    ¬ BlockHit N k := by
  intro hhit
  obtain ⟨j, hmod, -⟩ := hhit.round
  obtain ⟨M, rfl⟩ : ∃ M, N = 4 * M := ⟨N / 4, by omega⟩
  rw [show j * (4 * M) = 4 * (j * M) by rw [Nat.mul_left_comm]] at hmod
  omega

/-- Otherwise some block stays out of reach: block 2 if 4 divides `N`, and for a large odd `N` one
    of the last four, which only the third round would bring to 0 or 1 modulo 4. -/
theorem exists_not_blockHit {N : Nat} (hN : 1 ≤ N)
    (h : ¬ (N % 4 = 2 ∨ (N % 2 = 1 ∧ 3 * N ≤ 2 ^ 33 + 1))) : ∃ k, k < N ∧ ¬ BlockHit N k := by
  by_cases h4 : N % 4 = 0
  · exact ⟨2, by omega, not_blockHit_of_four_dvd h4 (by omega)⟩
  · -- `N` is odd, and `k` is 2 or 3 modulo 4 in the rounds 0 and 1
    have hlast : ∀ k, ¬ k % 4 < 2 → ¬ (k + N) % 4 < 2 → 2 ^ 31 ≤ (k + 2 * N) / 4 →
        ¬ BlockHit N k := by
      intro k h0 h1 h2 hhit
      obtain ⟨j, hmod, hreach⟩ := hhit.round
      match j with
      | 0 => omega
      | 1 => omega
      | j + 2 =>
        rw [show (j + 2) * N = j * N + 2 * N by rw [Nat.add_mul]] at hreach
        omega
    by_cases h1 : N % 4 = 1
    · exact ⟨N - 3, by omega, hlast _ (by omega) (by omega) (by omega)⟩
    · exact ⟨N - 4, by omega, hlast _ (by omega) (by omega) (by omega)⟩

/-- **Can the workload dirty the whole buffer?**  For `N` GB, every byte is hit by some two values
    of `rand()` exactly if `N` is twice an odd number, or odd with `3 * N ≤ 2^33 + 1`. -/
theorem whole_buffer_iff (N : Nat) (hN : 1 ≤ N) (hmax : N * 2 ^ 30 ≤ 2 ^ 62) :
    (∀ o, o < N * 2 ^ 30 → ∃ upper lower : Rand,
      randomOffset (bufferSize N) (upper, lower) = o) ↔
    N % 4 = 2 ∨ (N % 2 = 1 ∧ 3 * N ≤ 2 ^ 33 + 1) := by
  constructor
  · intro hall
    by_contra hno
    obtain ⟨k, hk, hmiss⟩ := exists_not_blockHit hN hno
    obtain ⟨upper, lower, ho⟩ := hall (k * 2 ^ 30) (by omega)
    have hhit := (hits_iff hmax _).mp ⟨_, ho⟩
    rw [Nat.mul_div_cancel _ (by decide)] at hhit
    exact hmiss hhit
  · intro h o ho
    obtain ⟨⟨upper, lower⟩, hr⟩ := (hits_iff hmax o).mpr
      (blockHit_of (by omega) h (show o / 2 ^ 30 < N by omega))
    exact ⟨upper, lower, hr⟩

/-- Three GB are covered. -/
theorem whole_buffer_iff_three : (1 ≤ 3 ∧ 3 * 2 ^ 30 ≤ 2 ^ 62) ∧
    ∀ o, o < 3 * 2 ^ 30 → ∃ upper lower : Rand,
      randomOffset (bufferSize 3) (upper, lower) = o :=
  ⟨by decide, (whole_buffer_iff 3 (by decide) (by decide)).mpr (by decide)⟩

/-- With 4 GB, nothing hits the byte at 2 GB. -/
theorem four_gb_hole : 2 * 2 ^ 30 < 4 * 2 ^ 30 ∧
    ∀ upper lower : Rand, randomOffset (bufferSize 4) (upper, lower) ≠ 2 * 2 ^ 30 := by
  refine ⟨by decide, fun upper lower h => ?_⟩
  exact not_blockHit_of_four_dvd (by decide) (by decide)
    ((hits_iff (N := 4) (by decide) (2 * 2 ^ 30)).mp ⟨_, h⟩)

/-! ## Runs -/

/-- A byte that no pass hits keeps its value. -/
theorem memAccess_frame {size : UInt64} {o : Nat} (rs : List (Rand × Rand))
    (h : ∀ r ∈ rs, randomOffset size r ≠ o) (memory : Nat → UInt8) :
    memAccess size rs memory o = memory o := by
  induction rs generalizing memory with
  | nil => rfl
  | cons r rs ih =>
    show memAccess size rs (accessOnce size memory r) o = _
    rw [ih (fun r' hr' => h r' (List.mem_cons_of_mem r hr'))]
    exact Function.update_of_ne (Ne.symm (h r List.mem_cons_self)) _ _

/-- Flipping the lowest bit changes a byte. -/
theorem xor_one_ne (x : UInt8) : x ^^^ 1 ≠ x := by
  intro h
  have hx := congrArg (x ^^^ ·) h
  simp only [← UInt8.xor_assoc, UInt8.xor_self, UInt8.zero_xor] at hx
  cases hx

/-- **What a run can dirty** is what a single pass can hit. -/
theorem memAccess_dirties_iff (size : UInt64) (memory : Nat → UInt8) (o : Nat) :
    (∃ rs, memAccess size rs memory o ≠ memory o) ↔ ∃ r, randomOffset size r = o := by
  constructor
  · rintro ⟨rs, hne⟩
    by_contra hno
    exact hne (memAccess_frame rs (fun r _ hr => hno ⟨r, hr⟩) memory)
  · rintro ⟨r, rfl⟩
    refine ⟨[r], ?_⟩
    show Function.update memory _ _ _ ≠ _
    rw [Function.update_self]
    exact xor_one_ne _

/-- **The hole in any run**: if 4 divides `N`, the blocks 2 and 3 of every four keep their content
    however long the workload runs. -/
theorem memAccess_hole {N : Nat} (hN : N % 4 = 0) (hmax : N * 2 ^ 30 ≤ 2 ^ 62) {o : Nat}
    (ho : 2 ≤ o / 2 ^ 30 % 4) (rs : List (Rand × Rand)) (memory : Nat → UInt8) :
    memAccess (bufferSize N) rs memory o = memory o := by
  by_contra hne
  obtain ⟨r, hr⟩ := (memAccess_dirties_iff _ memory o).mp ⟨rs, hne⟩
  exact not_blockHit_of_four_dvd hN ho ((hits_iff hmax o).mp ⟨r, hr⟩)

end QemuStudy.Workload
