/-
  The configuration: `get_config_value` of `apps/controller.c`, the calls of `main`, and what
  `source config.txt` gives to the shell scripts.

  `get_config_value` compares the BEGINNING of what `fgets` returns with the key and takes the first
  hit.  `fgets` returns a line in pieces of at most 254 bytes.  So three things can go wrong:

  1. a NAME that begins with the key, on an earlier line, is taken for it;
  2. a piece of a long line that begins with the key is taken for a line; unless the NAME ends in
     this piece it has no `=`, and `strchr` returns NULL;
  3. the VALUE is cut at the end of its piece, or does not fit the buffer.

  `config_read_iff` says for EVERY file of `NAME=VALUE` lines with different names when none of
  them does any harm, in terms of the lines: the first line, and in it the first multiple of 254,
  at which the text goes on with the key (`FirstHit`) must be in the NAME's last piece, and what is
  left of the VALUE in that piece must be the right one (`Config.Readable`).

  The scripts do not copy the VALUE, they execute the line.  `sourceFile` covers the lines that a
  shell takes as they stand (`Config.Plain`): a variable, `=`, and a word without shell syntax.  For
  such files the VALUE is what the scripts get, and the condition for the controller to store it is
  the condition for both to work with the same configuration.  Other VALUEs are a matter of the
  shell: `10.10.1.3;x` is an assignment and a command, `~` the home directory, and a `)` makes
  `source` give up on the file.

  `readable_of_short` is the everyday case, and `readConfig_same` carries it to all eight calls.
-/
import QemuStudy.Lib.Imperative
import QemuStudy.Lib.Lines
import QemuStudy.Controller.Message

namespace QemuStudy.Controller

open QemuStudy QemuStudy.Lines

/-! ## C strings -/

/-- Where a call of `get_config_value` can end the program: `exit(-1)` without a file, a copy from
    `NULL + 1`, a copy past the end of `value`.  `spin` is the loop running out of fuel. -/
inductive ConfigFault
  | exited
  | nullPointer
  | overflow
  | spin
  deriving DecidableEq, Repr

def MAX_LINE_LENGTH : Nat := 255
def IP_LEN : Nat := 64
def PORT_LEN : Nat := 20

def newline : UInt8 := 10
def equals : UInt8 := 61

/-- `char value[n]`. -/
structure CharArray (n : Nat) where
  bytes : Buff
  size : bytes.length = n

/-- `strchr(line, c) + 1`: what follows the first `c`, if there is one. -/
def strchrNext (line : List UInt8) (c : UInt8) : Option (List UInt8) :=
  match line.dropWhile (· ≠ c) with
  | [] => none
  | _ :: rest => some rest

/-- `strcspn(s, "c")`. -/
def strcspn (s : List UInt8) (c : UInt8) : Nat := (s.takeWhile (· ≠ c)).length

theorem store_length {chunk : List UInt8} {data : Buff} (h : chunk.length ≤ data.length) :
    (store chunk data).length = data.length := by
  rw [store, List.length_append, List.length_drop]
  omega

theorem CharArray.strcpy_size {n : Nat} (value : CharArray n) {src : List UInt8}
    (h : src.length < n) : (store (src ++ [0]) value.bytes).length = n := by
  have hlen : (src ++ [0]).length ≤ value.bytes.length := by
    rw [List.length_append, List.length_singleton, value.size]
    exact h
  rw [store_length hlen, value.size]

/-- `strcpy(value, src)`, with the terminating NUL. -/
def CharArray.strcpy {n : Nat} (value : CharArray n) (src : List UInt8) :
    Except ConfigFault (CharArray n) :=
  if h : src.length < n then .ok ⟨store (src ++ [0]) value.bytes, value.strcpy_size h⟩
  else .error .overflow

theorem CharArray.set_size {n : Nat} (value : CharArray n) (i : Nat) (b : UInt8) :
    (value.bytes.set i b).length = n := by rw [List.length_set, value.size]

/-- `value[strcspn(value, "\n")] = 0`. -/
def CharArray.removeNewline {n : Nat} (value : CharArray n) : CharArray n :=
  ⟨value.bytes.set (strcspn (cstr value.bytes) newline) 0, value.set_size _ _⟩

/-! ## `get_config_value` -/

/-- What is done with the line that matches (lines 54–56). -/
def storeValue {n : Nat} (line : List UInt8) (value : CharArray n) :
    Except ConfigFault (CharArray n) :=
  match strchrNext line equals with
  | none => .error .nullPointer
  | some src => do
    let value ← value.strcpy src
    return value.removeNewline

/-- `while (fgets(line, MAX_LINE_LENGTH, file))`.  A NUL in the file ends the C string in `line`;
    `strncmp(line, key, strlen(key)) == 0` holds if `line` begins with `key`. -/
def readLines {n : Nat} (key : List UInt8) : Nat → List UInt8 → CharArray n →
    Except ConfigFault (CharArray n)
  | 0, _, _ => .error .spin
  | fuel + 1, file, value =>
    match fgets newline (MAX_LINE_LENGTH - 1) file with
    | none => .ok value
    | some (chunk, rest) =>
      if key.isPrefixOf (cstr chunk) then storeValue (cstr chunk) value
      else readLines key fuel rest value

/-- `get_config_value(key, value)`, on the bytes of `./config.txt` if there is one.  Every `fgets`
    takes at least one byte. -/
def getConfigValue {n : Nat} (file : Option (List UInt8)) (key : List UInt8)
    (value : CharArray n) : Except ConfigFault (CharArray n) :=
  match file with
  | none => .error .exited
  | some file => readLines key (file.length + 1) file value

/-- The keys `main` asks for. -/
inductive Key
  | srcIp
  | dstIp
  | backupIp
  | vmIp
  | migrationPort
  | srcControlPort
  | dstControlPort
  | backupControlPort
  deriving DecidableEq, Repr

def Key.text : Key → String
  | .srcIp => "SRC_IP"
  | .dstIp => "DST_IP"
  | .backupIp => "BACKUP_IP"
  | .vmIp => "VM_IP"
  | .migrationPort => "MIGRATION_PORT"
  | .srcControlPort => "SRC_CONTROL_PORT"
  | .dstControlPort => "DST_CONTROL_PORT"
  | .backupControlPort => "BACKUP_CONTROL_PORT"

/-- The bytes of an ASCII text. -/
def ascii (text : String) : List UInt8 := text.toList.map fun c => c.toNat.toUInt8

def Key.name (K : Key) : List UInt8 := ascii K.text

/-- The size of the global that `main` passes along with the key. -/
def Key.len : Key → Nat
  | .srcIp | .dstIp | .backupIp | .vmIp => IP_LEN
  | .migrationPort | .srcControlPort | .dstControlPort | .backupControlPort => PORT_LEN

/-- The keys in the order of the calls. -/
def Key.all : List Key :=
  [.srcIp, .dstIp, .backupIp, .vmIp, .migrationPort, .srcControlPort, .dstControlPort,
    .backupControlPort]

/-- The globals that hold the configuration. -/
abbrev Settings := (K : Key) → CharArray K.len

theorem zeros_size (n : Nat) : (List.replicate n (0 : UInt8)).length = n := List.length_replicate

/-- Globals are zero before `main`. -/
def Settings.zero : Settings := fun K => ⟨List.replicate K.len 0, zeros_size K.len⟩

/-- Lines 582–589 of `main`. -/
def readConfig (file : Option (List UInt8)) : Except ConfigFault Settings :=
  Key.all.foldlM (fun settings K => do
    let value ← getConfigValue file K.name (settings K)
    return Function.update settings K value) Settings.zero

/-! ## Configuration files -/

/-- A letter, a digit or an underscore. -/
def isNameByte (b : UInt8) : Bool :=
  (65 ≤ b && b ≤ 90) || (97 ≤ b && b ≤ 122) || (48 ≤ b && b ≤ 57) || b = 95

/-- Neither whitespace nor a quote nor `$` nor `=`. -/
def isValueByte (b : UInt8) : Bool :=
  !(b = 32 || (9 ≤ b && b ≤ 13) || b = 34 || b = 39 || b = 36 || b = 61)

/-- A line `NAME=VALUE`, with or without a newline at its end. -/
structure Assignment where
  name : List UInt8
  value : List UInt8
  terminated : Bool
  name_ok : name.all isNameByte = true
  value_ok : value.all isValueByte = true

def Assignment.eol (e : Assignment) : List UInt8 := if e.terminated then [newline] else []

/-- The bytes of the line. -/
def Assignment.bytes (e : Assignment) : List UInt8 := e.name ++ equals :: (e.value ++ e.eol)

/-- A configuration file: lines with different names.  Only the last one may lack its newline. -/
structure Config where
  lines : List Assignment
  distinct : (lines.map Assignment.name).Nodup
  ended : ∀ e ∈ lines.dropLast, e.terminated = true

def Config.text (cfg : Config) : List UInt8 := cfg.lines.flatMap Assignment.bytes

/-- The VALUE of the line whose NAME is `key`. -/
def Config.valueOf (cfg : Config) (key : List UInt8) : Option (List UInt8) :=
  (cfg.lines.find? fun e => e.name = key).map Assignment.value

/-- **The VALUE of its line.**  Whatever `value` held before, `get_config_value` leaves in it the
    VALUE of the line whose NAME is `K`, as a C string, and leaves it alone if there is none. -/
def StoresValue (cfg : Config) (K : Key) : Prop :=
  ∀ value : CharArray K.len, match cfg.valueOf K.name with
    | some v => ∃ value', getConfigValue (some cfg.text) K.name value = .ok value' ∧
        cstr value'.bytes = v
    | none => getConfigValue (some cfg.text) K.name value = .ok value

/-! ## `source config.txt` -/

/-- The variables of a shell. -/
abbrev ShellVars := List UInt8 → Option (List UInt8)

/-- The bytes `"` `$` `&` `'` `(` `)` `;` `<` `>` `\`, the backquote, `|` and `~`, which quote,
    start an expansion or a command, or end a word. -/
def shellSpecial : List UInt8 := [34, 36, 38, 39, 40, 41, 59, 60, 62, 92, 96, 124, 126]

/-- A byte that the shell takes as it stands in the word it assigns. -/
def isPlainByte (b : UInt8) : Bool := 33 ≤ b && b ≤ 126 && !shellSpecial.contains b

/-- The variables that bash does not let anybody assign to. -/
def readonlyNames : List (List UInt8) :=
  ["BASHOPTS", "BASH_VERSINFO", "EUID", "PPID", "SHELLOPTS", "UID"].map ascii

/-- A NAME that can be assigned to.  With a digit in front the line would be a command. -/
def isVariable (name : List UInt8) : Bool :=
  name.all isNameByte && name.head?.any (fun b => !(48 ≤ b && b ≤ 57)) &&
    !readonlyNames.contains name

/-- A line that assigns a plain word to a variable, `none` for every other line. -/
def sourceLine (line : List UInt8) : Option (List UInt8 × List UInt8) :=
  match strchrNext line equals with
  | none => none
  | some value =>
    if isVariable (line.takeWhile (· ≠ equals)) && value.all isPlainByte then
      some (line.takeWhile (· ≠ equals), value)
    else none

/-- `NAME=VALUE` in a shell. -/
def assign (vars : ShellVars) (x : List UInt8 × List UInt8) : ShellVars :=
  Function.update vars x.1 (some x.2)

/-- `source` on the bytes of a file, for lines whose NAME is a variable and whose VALUE is printable
    ASCII without `shellSpecial`: the assignments are executed one after the other.  `none` if there
    is another line; it may be an expansion, a command or a syntax error, with any effect on the
    rest. -/
def sourceFile (file : List UInt8) : Option ShellVars :=
  (lines newline file).foldlM (fun vars line => (sourceLine line).map (assign vars)) fun _ => none

/-- The lines are such that `source` is modelled. -/
def Config.Plain (cfg : Config) : Prop :=
  ∀ e ∈ cfg.lines, isVariable e.name = true ∧ e.value.all isPlainByte = true

instance (cfg : Config) : Decidable cfg.Plain := inferInstanceAs (Decidable (∀ e ∈ _, _))

theorem cstr_append_of_notMem {s : List UInt8} (hs : 0 ∉ s) (t : List UInt8) :
    cstr (s ++ t) = s ++ cstr t :=
  List.takeWhile_append_of_pos (forall_ne_of_notMem hs)

theorem cstr_zero (t : List UInt8) : cstr (0 :: t) = [] := rfl

theorem notMem_cstr (s : List UInt8) : 0 ∉ cstr s := by
  intro h
  have := List.mem_takeWhile_imp h
  simp at this

/-- **The copy.**  A C string that fits is in `value` afterwards, up to its newline; the NUL behind
    it shows that something was written. -/
theorem storeValue_of_fits {n : Nat} {line src : List UInt8}
    (hsrc : strchrNext line equals = some src) (h0 : 0 ∉ src) (hfits : src.length < n)
    (value : CharArray n) :
    ∃ value', storeValue line value = .ok value' ∧
      cstr value'.bytes = src.takeWhile (· ≠ newline) ∧ 0 ∈ value'.bytes := by
  have hstored : cstr (store (src ++ [0]) value.bytes) = src := by
    rw [store, List.append_assoc, cstr_append_of_notMem h0, List.singleton_append, cstr_zero,
      List.append_nil]
  -- the byte that is overwritten is the newline or the NUL
  obtain ⟨x, rest, hx⟩ : ∃ x rest, store (src ++ [0]) value.bytes
      = src.takeWhile (· ≠ newline) ++ x :: rest := by
    have hsplit : store (src ++ [0]) value.bytes = src.takeWhile (· ≠ newline) ++
        (src.dropWhile (· ≠ newline) ++ 0 :: value.bytes.drop (src ++ [0]).length) := by
      rw [← List.append_assoc, List.takeWhile_append_dropWhile, store, List.append_assoc,
        List.singleton_append]
    cases hdrop : src.dropWhile (· ≠ newline) with
    | nil => exact ⟨_, _, by rw [hsplit, hdrop, List.nil_append]⟩
    | cons y ys => exact ⟨_, _, by rw [hsplit, hdrop, List.cons_append]⟩
  have hcut : (store (src ++ [0]) value.bytes).set
      (strcspn (cstr (store (src ++ [0]) value.bytes)) newline) 0
        = src.takeWhile (· ≠ newline) ++ 0 :: rest := by
    rw [hstored, strcspn, hx, List.set_append_right _ _ (Nat.le_refl _), Nat.sub_self,
      List.set_cons_zero]
  have hok : storeValue line value
      = .ok (CharArray.removeNewline ⟨_, value.strcpy_size hfits⟩) := by
    rw [storeValue, hsrc]
    dsimp only
    rw [CharArray.strcpy, dif_pos hfits]
    rfl
  refine ⟨_, hok, ?_, ?_⟩
  · show cstr ((store (src ++ [0]) value.bytes).set _ 0) = _
    have hhead : (0 : UInt8) ∉ src.takeWhile (· ≠ newline) := fun h =>
      h0 ((List.takeWhile_subset _) h)
    rw [hcut, cstr_append_of_notMem hhead, cstr_zero, List.append_nil]
  · show 0 ∈ (store (src ++ [0]) value.bytes).set _ 0
    rw [hcut]
    exact List.mem_append_right _ List.mem_cons_self

theorem strchrNext_of_notMem {line : List UInt8} {c : UInt8} (h : c ∉ line) :
    strchrNext line c = none := by
  rw [strchrNext, List.dropWhile_eq_nil_iff.mpr (forall_ne_of_notMem h)]

theorem strchrNext_append {line rest : List UInt8} {c : UInt8} (h : c ∉ line) :
    strchrNext (line ++ c :: rest) c = some rest := by
  rw [strchrNext, List.dropWhile_append_of_pos (forall_ne_of_notMem h),
    List.dropWhile_cons_of_neg (by simp)]

/-! ## The loop, line by line -/

/-- What `strncmp` needs of a key: no NUL in it, and it fits into a piece. -/
structure Findable (key : List UInt8) : Prop where
  no_nul : 0 ∉ key
  short : key.length ≤ 254

/-- A piece begins with the key if the text does where the piece begins. -/
theorem Findable.piece_iff {key : List UInt8} (h : Findable key) (l : List UInt8) :
    key.isPrefixOf (cstr (l.take 254)) = true ↔ key <+: l := by
  rw [List.isPrefixOf_iff_prefix]
  constructor
  · intro hkey
    have hcstr : cstr (l.take 254) <+: l.take 254 := List.takeWhile_prefix _
    have htake : l.take 254 <+: l := List.take_prefix _ _
    exact (hkey.trans hcstr).trans htake
  · rintro ⟨t, rfl⟩
    rw [List.take_append, List.take_of_length_le h.short, cstr_append_of_notMem h.no_nul]
    exact List.prefix_append _ _

theorem readLines_succ {n : Nat} {key l s : List UInt8} (hl : IsLine newline l s) (hne : l ≠ [])
    (fuel : Nat) (value : CharArray n) : readLines key (fuel + 1) (l ++ s) value
      = if key.isPrefixOf (cstr (l.take 254)) then
          storeValue (cstr (l.take 254)) value
        else readLines key fuel (l.drop 254 ++ s) value := by
  have hpiece : MAX_LINE_LENGTH - 1 = 254 := rfl
  rw [readLines, hpiece, fgets_line hl hne]

/-- A piece that does not begin with the key is passed over. -/
theorem readLines_next {n : Nat} {key l s : List UInt8} (hkey : Findable key)
    (hl : IsLine newline l s) (hne : l ≠ []) (hno : ¬ key <+: l) {fuel : Nat}
    (hfuel : (l ++ s).length < fuel) (value : CharArray n) : ∃ fuel',
      (l.drop 254 ++ s).length < fuel' ∧
      readLines key fuel (l ++ s) value = readLines key fuel' (l.drop 254 ++ s) value := by
  have hpos : 0 < l.length := List.length_pos_iff.mpr hne
  rw [List.length_append] at hfuel
  obtain ⟨fuel, rfl⟩ : ∃ f, fuel = f + 1 := ⟨fuel - 1, by omega⟩
  refine ⟨fuel, ?_, ?_⟩
  · rw [List.length_append, List.length_drop]
    omega
  · rw [readLines_succ hl hne, if_neg]
    rw [hkey.piece_iff]
    exact hno

theorem drop_piece (l : List UInt8) (i : Nat) :
    (l.drop 254).drop (254 * i) = l.drop (254 * (i + 1)) := by
  rw [List.drop_drop, show 254 + 254 * i = 254 * (i + 1) by omega]

/-- **A line without a hit** is passed over. -/
theorem readLines_pass {n : Nat} {key : List UInt8} (hkey : Findable key) {s : List UInt8}
    (value : CharArray n) : ∀ (k : Nat) {l : List UInt8}, l.length ≤ k → IsLine newline l s →
    (∀ j, ¬ key <+: l.drop (254 * j)) → ∀ {fuel : Nat}, (l ++ s).length < fuel →
    ∃ fuel', s.length < fuel' ∧
      readLines key fuel (l ++ s) value = readLines key fuel' s value := by
  intro k
  induction k with
  | zero =>
    intro l hk _ _ fuel hfuel
    obtain rfl : l = [] := List.length_eq_zero_iff.mp (by omega)
    exact ⟨fuel, hfuel, rfl⟩
  | succ k ih =>
    intro l hk hl hno fuel hfuel
    by_cases hne : l = []
    · subst hne
      exact ⟨fuel, hfuel, rfl⟩
    obtain ⟨fuel₁, hfuel₁, hrun₁⟩ := readLines_next hkey hl hne (hno 0) hfuel value
    by_cases hlong : 254 < l.length
    · have hshorter : (l.drop 254).length ≤ k := by rw [List.length_drop]; omega
      obtain ⟨fuel₂, hfuel₂, hrun₂⟩ := ih hshorter (hl.drop hlong)
        (fun j => by rw [drop_piece]; exact hno (j + 1)) hfuel₁
      exact ⟨fuel₂, hfuel₂, hrun₁.trans hrun₂⟩
    · rw [List.drop_eq_nil_of_le (by omega), List.nil_append] at hfuel₁ hrun₁
      exact ⟨fuel₁, hfuel₁, hrun₁⟩

/-- **A line with a hit**: its first piece that begins with the key decides. -/
theorem readLines_hit {n : Nat} {key : List UInt8} (hkey : Findable key) (hpos : key ≠ [])
    {s : List UInt8} (value : CharArray n) : ∀ (j : Nat) {l : List UInt8}, IsLine newline l s →
    key <+: l.drop (254 * j) → (∀ i, i < j → ¬ key <+: l.drop (254 * i)) → ∀ {fuel : Nat},
    (l ++ s).length < fuel → readLines key fuel (l ++ s) value
      = storeValue (cstr ((l.drop (254 * j)).take 254)) value := by
  have hlen : ∀ {j : Nat} {l : List UInt8}, key <+: l.drop (254 * j) → 254 * j < l.length := by
    intro j l h
    by_contra hno
    rw [List.drop_eq_nil_of_le (by omega)] at h
    exact hpos (List.prefix_nil.mp h)
  intro j
  induction j with
  | zero =>
    intro l hl hhit _ fuel hfuel
    have hne : l ≠ [] := List.length_pos_iff.mp (by have := hlen hhit; omega)
    obtain ⟨fuel, rfl⟩ : ∃ f, fuel = f + 1 := ⟨fuel - 1, by omega⟩
    rw [readLines_succ hl hne, if_pos ((hkey.piece_iff l).mpr hhit), Nat.mul_zero, List.drop_zero]
  | succ j ih =>
    intro l hl hhit hbefore fuel hfuel
    have hj := hlen hhit
    have hne : l ≠ [] := List.length_pos_iff.mp (by omega)
    obtain ⟨fuel', hfuel', hrun⟩ :=
      readLines_next hkey hl hne (hbefore 0 (by omega)) hfuel value
    rw [hrun, ← drop_piece]
    refine ih (hl.drop (by omega)) (by rw [drop_piece]; exact hhit) (fun i hi => ?_) hfuel'
    rw [drop_piece]
    exact hbefore (i + 1) (by omega)

/-! ## The pieces of an assignment -/

theorem notMem_of_all {p : UInt8 → Bool} {l : List UInt8} (h : l.all p = true) {b : UInt8}
    (hb : p b = false) : b ∉ l := by
  intro hmem
  rw [List.all_eq_true.mp h b hmem] at hb
  cases hb

theorem Assignment.notMem_name (e : Assignment) {b : UInt8} (hb : isNameByte b = false) :
    b ∉ e.name := notMem_of_all e.name_ok hb

theorem Assignment.notMem_value (e : Assignment) {b : UInt8} (hb : isValueByte b = false) :
    b ∉ e.value := notMem_of_all e.value_ok hb

theorem Assignment.eol_eq (e : Assignment) : e.eol = [newline] ∨ e.eol = [] := by
  rw [Assignment.eol]
  cases e.terminated with
  | true => exact Or.inl rfl
  | false => exact Or.inr rfl

theorem Assignment.notMem_value_eol (e : Assignment) {b : UInt8} (hv : b ∉ e.value)
    (hb : b ≠ newline) : b ∉ e.value ++ e.eol := by
  rw [List.mem_append, not_or]
  refine ⟨hv, ?_⟩
  rcases e.eol_eq with heol | heol
  · rw [heol, List.mem_singleton]
    exact hb
  · rw [heol]
    exact List.not_mem_nil

theorem Assignment.equals_notMem (e : Assignment) : equals ∉ e.value ++ e.eol :=
  e.notMem_value_eol (e.notMem_value (by decide)) (by decide)

/-- There is no newline before the end of the line. -/
theorem Assignment.newline_notMem (e : Assignment) : newline ∉ e.name ++ equals :: e.value := by
  rw [List.mem_append, List.mem_cons, not_or, not_or]
  exact ⟨e.notMem_name (by decide), by decide, e.notMem_value (by decide)⟩

/-- The key stands in the line where a piece begins. -/
def Assignment.At (e : Assignment) (key : List UInt8) (j : Nat) : Prop :=
  key <+: e.bytes.drop (254 * j)

/-- What is left of the line behind its `=` in the piece that begins at byte `254 * j`, as a C
    string. -/
def Assignment.copied (e : Assignment) (j : Nat) : List UInt8 :=
  cstr ((e.value ++ e.eol).take (254 * j + 253 - e.name.length))

/-- The piece in which the name ends, and with it the only one with a `=` in it. -/
theorem Assignment.strchrNext_piece (e : Assignment) (j : Nat) :
    strchrNext (cstr ((e.bytes.drop (254 * j)).take 254)) equals
      = if 254 * j ≤ e.name.length ∧ e.name.length < 254 * j + 254 then some (e.copied j)
        else none := by
  have hname : equals ∉ e.name := e.notMem_name (by decide)
  have hcstr : ∀ {s : List UInt8}, equals ∉ s → strchrNext (cstr s) equals = none := fun hs =>
    strchrNext_of_notMem fun h => hs (List.takeWhile_subset _ h)
  rw [Assignment.bytes]
  by_cases hj : 254 * j ≤ e.name.length
  · rw [List.drop_append_of_le_length hj]
    by_cases hend : e.name.length < 254 * j + 254
    · -- the name ends in this piece
      have hlen : (e.name.drop (254 * j)).length ≤ 254 := by rw [List.length_drop]; omega
      have hrest : 254 - (e.name.drop (254 * j)).length = 254 * j + 253 - e.name.length + 1 := by
        rw [List.length_drop]
        omega
      have hnul : (0 : UInt8) ∉ e.name.drop (254 * j) := fun h =>
        e.notMem_name (b := 0) (by decide) (List.mem_of_mem_drop h)
      have hcut : cstr (equals :: (e.value ++ e.eol).take (254 * j + 253 - e.name.length))
          = equals :: e.copied j := List.takeWhile_cons_of_pos (by decide)
      rw [if_pos ⟨hj, hend⟩, List.take_append, List.take_of_length_le hlen, hrest,
        List.take_succ_cons, cstr_append_of_notMem hnul, hcut]
      exact strchrNext_append fun h => hname (List.mem_of_mem_drop h)
    · -- the piece is inside the name
      have hlen : 254 ≤ (e.name.drop (254 * j)).length := by rw [List.length_drop]; omega
      rw [if_neg fun h => hend h.2, List.take_append_of_le_length hlen]
      exact hcstr fun h => hname (List.mem_of_mem_drop (List.mem_of_mem_take h))
  · -- the piece is behind the `=`
    obtain ⟨k, hk⟩ : ∃ k, 254 * j = e.name.length + (k + 1) :=
      ⟨254 * j - e.name.length - 1, by omega⟩
    rw [if_neg fun h => hj h.1, hk, List.drop_append, List.drop_eq_nil_of_le (by omega),
      List.nil_append, Nat.add_sub_cancel_left, List.drop_succ_cons]
    exact hcstr fun h => e.equals_notMem (List.mem_of_mem_drop (List.mem_of_mem_take h))

/-! ## The first hit -/

/-- The first line, and in it the first multiple of 254, at which the text goes on with the key. -/
structure FirstHit (lines : List Assignment) (key : List UInt8) (e : Assignment) (j : Nat) :
    Prop where
  line : ∃ before after, lines = before ++ e :: after ∧ ∀ b ∈ before, ∀ i, ¬ b.At key i
  here : e.At key j
  first : ∀ i, i < j → ¬ e.At key i

theorem FirstHit.mem {lines : List Assignment} {key : List UInt8} {e : Assignment} {j : Nat}
    (h : FirstHit lines key e j) : e ∈ lines := by
  obtain ⟨before, after, rfl, -⟩ := h.line
  exact List.mem_append_right _ List.mem_cons_self

theorem Assignment.isLine_of_terminated {e : Assignment} (h : e.terminated = true)
    (s : List UInt8) : IsLine newline e.bytes s := by
  refine Or.inl ⟨e.name ++ equals :: e.value, e.newline_notMem, ?_⟩
  rw [Assignment.bytes, Assignment.eol, if_pos h, List.append_assoc, List.cons_append]

theorem Assignment.isLine_last (e : Assignment) : IsLine newline e.bytes [] := by
  cases h : e.terminated with
  | true => exact e.isLine_of_terminated h []
  | false =>
    have hbytes : e.bytes = e.name ++ equals :: e.value := by
      rw [Assignment.bytes, Assignment.eol, h, if_neg Bool.false_ne_true, List.append_nil]
    exact Or.inr ⟨hbytes ▸ e.newline_notMem, rfl⟩

/-- **Lines without a hit**, by induction along the file. -/
theorem readLines_before {n : Nat} {key : List UInt8} (hkey : Findable key) {s : List UInt8}
    (value : CharArray n) : ∀ {before : List Assignment}, (∀ b ∈ before, b.terminated = true) →
    (∀ b ∈ before, ∀ i, ¬ b.At key i) → ∀ {fuel : Nat},
    (before.flatMap Assignment.bytes ++ s).length < fuel → ∃ fuel', s.length < fuel' ∧
      readLines key fuel (before.flatMap Assignment.bytes ++ s) value
        = readLines key fuel' s value := by
  intro before
  induction before with
  | nil => intro _ _ fuel hfuel; exact ⟨fuel, hfuel, rfl⟩
  | cons b before ih =>
    intro hterm hno fuel hfuel
    rw [List.flatMap_cons, List.append_assoc] at hfuel ⊢
    obtain ⟨fuel₁, hfuel₁, hrun₁⟩ := readLines_pass hkey value b.bytes.length (Nat.le_refl _)
      (b.isLine_of_terminated (hterm b List.mem_cons_self) _) (hno b List.mem_cons_self) hfuel
    obtain ⟨fuel₂, hfuel₂, hrun₂⟩ := ih (fun x hx => hterm x (List.mem_cons_of_mem b hx))
      (fun x hx => hno x (List.mem_cons_of_mem b hx)) hfuel₁
    exact ⟨fuel₂, hfuel₂, hrun₁.trans hrun₂⟩

/-- **A file without a hit** leaves `value` alone. -/
theorem getConfigValue_of_no_hit {n : Nat} {key : List UInt8} (hkey : Findable key) {cfg : Config}
    (hno : ∀ e ∈ cfg.lines, ∀ j, ¬ e.At key j) (value : CharArray n) :
    getConfigValue (some cfg.text) key value = .ok value := by
  have hend : ∀ {fuel : Nat}, 0 < fuel → readLines key fuel [] value = .ok value := by
    intro fuel hfuel
    obtain ⟨fuel, rfl⟩ : ∃ f, fuel = f + 1 := ⟨fuel - 1, by omega⟩
    rfl
  rw [getConfigValue, Config.text]
  rcases List.eq_nil_or_concat' cfg.lines with hnil | ⟨before, last, hlines⟩
  · rw [hnil]
    exact hend (Nat.succ_pos _)
  · have hterm := cfg.ended
    rw [hlines, List.dropLast_concat] at hterm
    rw [hlines] at hno ⊢
    have hsplit : (before ++ [last]).flatMap Assignment.bytes
        = before.flatMap Assignment.bytes ++ (last.bytes ++ []) := by
      rw [List.flatMap_append, List.flatMap_singleton, List.append_nil]
    obtain ⟨fuel₁, hfuel₁, hrun₁⟩ := readLines_before hkey value hterm
      (fun b hb => hno b (List.mem_append_left _ hb))
      (Nat.lt_succ_self (before.flatMap Assignment.bytes ++ (last.bytes ++ [])).length)
    obtain ⟨fuel₂, hfuel₂, hrun₂⟩ := readLines_pass hkey value last.bytes.length (Nat.le_refl _)
      last.isLine_last (hno last (List.mem_append_right _ (List.mem_singleton_self last))) hfuel₁
    rw [hsplit]
    exact (hrun₁.trans hrun₂).trans (hend hfuel₂)

/-- **A file with a hit**: the piece of the first one decides. -/
theorem getConfigValue_of_firstHit {n : Nat} {key : List UInt8} (hkey : Findable key)
    (hpos : key ≠ []) {cfg : Config} {e : Assignment} {j : Nat} (h : FirstHit cfg.lines key e j)
    (value : CharArray n) : getConfigValue (some cfg.text) key value
      = storeValue (cstr ((e.bytes.drop (254 * j)).take 254)) value := by
  obtain ⟨before, after, hlines, hbefore⟩ := h.line
  have hended := cfg.ended
  rw [hlines, List.dropLast_append_of_ne_nil (List.cons_ne_nil e after)] at hended
  have hterm : ∀ b ∈ before, b.terminated = true := fun b hb =>
    hended b (List.mem_append_left _ hb)
  have hline : IsLine newline e.bytes (after.flatMap Assignment.bytes) := by
    cases after with
    | nil => exact e.isLine_last
    | cons a after =>
      exact e.isLine_of_terminated (hended e (List.mem_append_right _ List.mem_cons_self)) _
  have hsplit : cfg.text = before.flatMap Assignment.bytes ++
      (e.bytes ++ after.flatMap Assignment.bytes) := by
    rw [Config.text, hlines, List.flatMap_append, List.flatMap_cons]
  rw [getConfigValue, hsplit]
  obtain ⟨fuel, hfuel, hrun⟩ := readLines_before hkey value hterm hbefore
    (Nat.lt_succ_self (before.flatMap Assignment.bytes ++
      (e.bytes ++ after.flatMap Assignment.bytes)).length)
  exact hrun.trans (readLines_hit hkey hpos value j hline h.here h.first hfuel)

/-- The piece that begins at byte `254 * j` of the line delivers `v` to a buffer of `n` bytes: the
    name ends in it, what follows the `=` is `v` up to the newline, and it fits with its NUL. -/
structure Assignment.Delivers (e : Assignment) (j n : Nat) (v : List UInt8) : Prop where
  begins : 254 * j ≤ e.name.length
  ends : e.name.length < 254 * j + 254
  value : (e.copied j).takeWhile (· ≠ newline) = v
  fits : (e.copied j).length < n

theorem Assignment.Delivers.stored {e : Assignment} {j n : Nat} {v : List UInt8}
    (h : e.Delivers j n v) (value : CharArray n) :
    ∃ value', storeValue (cstr ((e.bytes.drop (254 * j)).take 254)) value = .ok value' ∧
      cstr value'.bytes = v := by
  have hsrc := e.strchrNext_piece j
  rw [if_pos ⟨h.begins, h.ends⟩] at hsrc
  obtain ⟨value', hok, hv, -⟩ := storeValue_of_fits hsrc (notMem_cstr _) h.fits value
  exact ⟨value', hok, hv.trans h.value⟩

/-- No other line has the same NAME. -/
theorem Config.valueOf_eq_some_iff (cfg : Config) (key v : List UInt8) :
    cfg.valueOf key = some v ↔ ∃ e ∈ cfg.lines, e.name = key ∧ e.value = v := by
  rw [Config.valueOf, Option.map_eq_some_iff]
  constructor
  · rintro ⟨e, he, rfl⟩
    have hname := List.find?_some he
    exact ⟨e, List.mem_of_find?_eq_some he, of_decide_eq_true hname, rfl⟩
  · rintro ⟨e, he, rfl, rfl⟩
    obtain ⟨e', he'⟩ : ∃ e', cfg.lines.find? (fun x => x.name = e.name) = some e' :=
      Option.isSome_iff_exists.mp (List.find?_isSome.mpr ⟨e, he, decide_eq_true rfl⟩)
    have hname := List.find?_some he'
    have hsame : e' = e := List.inj_on_of_nodup_map cfg.distinct (List.mem_of_find?_eq_some he') he
      (of_decide_eq_true hname)
    exact ⟨e', he', by rw [hsame]⟩

/-- The line without its newline. -/
def Assignment.line (e : Assignment) : List UInt8 := e.name ++ equals :: e.value

theorem Assignment.bytes_eq (e : Assignment) : e.bytes = e.line ++ e.eol := by
  rw [Assignment.bytes, Assignment.line, List.append_assoc, List.cons_append]

/-- The shell sees the lines of the file. -/
theorem lines_flatMap_bytes : ∀ {es : List Assignment}, (∀ e ∈ es.dropLast, e.terminated = true) →
    lines newline (es.flatMap Assignment.bytes) = es.map Assignment.line := by
  intro es
  induction es with
  | nil => intro _; rfl
  | cons e es ih =>
    intro hended
    have hline : newline ∉ e.line := e.newline_notMem
    rw [List.flatMap_cons, List.map_cons, e.bytes_eq]
    cases hterm : e.terminated with
    | true =>
      have hrest : ∀ x ∈ es.dropLast, x.terminated = true := by
        intro x hx
        cases es with
        | nil => cases hx
        | cons y es => exact hended x (List.mem_cons_of_mem e hx)
      rw [Assignment.eol, if_pos hterm, List.append_assoc, List.singleton_append,
        lines_terminated hline, ih hrest]
    | false =>
      -- only the last line can lack its newline
      obtain rfl : es = [] := by
        cases es with
        | nil => rfl
        | cons y es =>
          have htrue := hended e List.mem_cons_self
          rw [hterm] at htrue
          cases htrue
      have hne : e.line ≠ [] := List.append_ne_nil_of_right_ne_nil _ (List.cons_ne_nil _ _)
      rw [Assignment.eol, if_neg (by rw [hterm]; exact Bool.false_ne_true), List.flatMap_nil,
        List.append_nil, List.append_nil, lines_rest hline, if_neg hne, List.map_nil]

/-- A plain line is an assignment to the shell, too. -/
theorem sourceLine_of_plain {e : Assignment} (hname : isVariable e.name = true)
    (hvalue : e.value.all isPlainByte = true) : sourceLine e.line = some (e.name, e.value) := by
  have heq : equals ∉ e.name := e.notMem_name (by decide)
  have htake : e.line.takeWhile (· ≠ equals) = e.name := by
    rw [Assignment.line, List.takeWhile_append_of_pos (forall_ne_of_notMem heq),
      List.takeWhile_cons_of_neg (by simp), List.append_nil]
  rw [sourceLine, Assignment.line, strchrNext_append heq, ← Assignment.line, htake]
  exact if_pos (by rw [hname, hvalue]; rfl)

/-- One assignment after the other; no later line assigns to the same name. -/
theorem foldlM_sourceLine : ∀ {es : List Assignment},
    (∀ e ∈ es, isVariable e.name = true ∧ e.value.all isPlainByte = true) →
    (es.map Assignment.name).Nodup → ∀ vars : ShellVars, ∃ vars',
      (es.map Assignment.line).foldlM (fun vars line => (sourceLine line).map (assign vars)) vars
        = some vars' ∧
      (∀ e ∈ es, vars' e.name = some e.value) ∧
      ∀ key, key ∉ es.map Assignment.name → vars' key = vars key := by
  intro es
  induction es with
  | nil =>
    intro _ _ vars
    exact ⟨vars, rfl, fun e he => absurd he List.not_mem_nil, fun key _ => rfl⟩
  | cons e es ih =>
    intro hplain hnd vars
    rw [List.map_cons, List.nodup_cons] at hnd
    obtain ⟨hname, hvalue⟩ := hplain e List.mem_cons_self
    obtain ⟨vars', hrun, hin, hout⟩ := ih (fun x hx => hplain x (List.mem_cons_of_mem e hx)) hnd.2
      (assign vars (e.name, e.value))
    refine ⟨vars', ?_, fun x hx => ?_, fun key hkey => ?_⟩
    · rw [List.map_cons, List.foldlM_cons, sourceLine_of_plain hname hvalue]
      exact hrun
    · rcases List.mem_cons.mp hx with rfl | hx
      · rw [hout x.name hnd.1, assign, Function.update_self]
      · exact hin x hx
    · rw [List.map_cons, List.mem_cons, not_or] at hkey
      rw [hout key hkey.2, assign, Function.update_of_ne hkey.1]

/-- **`source` gives the scripts the VALUEs of the lines**, if these are plain. -/
theorem Config.Plain.source {cfg : Config} (h : cfg.Plain) :
    ∃ vars, sourceFile cfg.text = some vars ∧ ∀ key, vars key = cfg.valueOf key := by
  obtain ⟨vars, hrun, hin, hout⟩ := foldlM_sourceLine h cfg.distinct fun _ => none
  refine ⟨vars, ?_, fun key => ?_⟩
  · rw [sourceFile, Config.text, lines_flatMap_bytes cfg.ended]
    exact hrun
  · by_cases hmem : key ∈ cfg.lines.map Assignment.name
    · obtain ⟨e, he, rfl⟩ := List.mem_map.mp hmem
      rw [hin e he]
      exact ((cfg.valueOf_eq_some_iff e.name e.value).mpr ⟨e, he, rfl, rfl⟩).symm
    · rw [hout key hmem]
      cases hv : cfg.valueOf key with
      | none => rfl
      | some v =>
        obtain ⟨e, he, rfl, -⟩ := (cfg.valueOf_eq_some_iff key v).mp hv
        exact absurd (List.mem_map_of_mem he) hmem

/-- Every key is a possible NAME. -/
theorem Key.name_ok (K : Key) : K.name.all isNameByte = true := by cases K <;> decide

theorem Key.findable (K : Key) : Findable K.name where
  no_nul := notMem_of_all K.name_ok (by decide)
  short := by cases K <;> decide

theorem Key.name_ne_nil (K : Key) : K.name ≠ [] := by cases K <;> decide

/-- The condition on the lines: if a line has the key for its NAME, then the piece of the first hit
    delivers the VALUE of that line; if no line has, then there is no hit at all. -/
def Config.Readable (cfg : Config) (K : Key) : Prop :=
  match cfg.valueOf K.name with
  | some v => ∃ e j, FirstHit cfg.lines K.name e j ∧ e.Delivers j K.len v
  | none => ∀ e ∈ cfg.lines, ∀ j, ¬ e.At K.name j

theorem Config.Readable.stores {cfg : Config} {K : Key} (h : cfg.Readable K) :
    StoresValue cfg K := by
  intro value
  rw [Config.Readable] at h
  cases hvalue : cfg.valueOf K.name with
  | some v =>
    rw [hvalue] at h
    obtain ⟨e, j, hhit, hdel⟩ := h
    obtain ⟨value', hok, hv⟩ := hdel.stored value
    exact ⟨value', by rw [getConfigValue_of_firstHit K.findable K.name_ne_nil hhit, hok], hv⟩
  | none =>
    rw [hvalue] at h
    exact getConfigValue_of_no_hit K.findable h value

/-- What a call leaves in a global: the VALUE of the key's line, or what was there. -/
def Agrees (cfg : Config) (K : Key) (before after : CharArray K.len) : Prop :=
  match cfg.valueOf K.name with
  | some v => cstr after.bytes = v
  | none => after = before

theorem StoresValue.agrees {cfg : Config} {K : Key} (h : StoresValue cfg K)
    (value : CharArray K.len) : ∃ value',
      getConfigValue (some cfg.text) K.name value = .ok value' ∧ Agrees cfg K value value' := by
  have hread := h value
  unfold Agrees
  cases hvalue : cfg.valueOf K.name with
  | some v =>
    rw [hvalue] at hread
    exact hread
  | none =>
    rw [hvalue] at hread
    exact ⟨value, hread, rfl⟩

/-- One call after the other: each global is written by its own call only. -/
theorem foldlM_getConfigValue {cfg : Config} (h : ∀ K, StoresValue cfg K) : ∀ keys : List Key,
    keys.Nodup → ∀ settings : Settings, ∃ settings',
      keys.foldlM (fun settings K => do
        let value ← getConfigValue (some cfg.text) K.name (settings K)
        return Function.update settings K value) settings = .ok settings' ∧
      (∀ K ∈ keys, Agrees cfg K (settings K) (settings' K)) ∧
      ∀ K, K ∉ keys → settings' K = settings K := by
  intro keys
  induction keys with
  | nil =>
    intro _ settings
    exact ⟨settings, rfl, fun K hK => absurd hK List.not_mem_nil, fun K _ => rfl⟩
  | cons K keys ih =>
    intro hnd settings
    rw [List.nodup_cons] at hnd
    obtain ⟨value, hok, hagrees⟩ := (h K).agrees (settings K)
    obtain ⟨settings', hrun, hin, hout⟩ := ih hnd.2 (Function.update settings K value)
    refine ⟨settings', ?_, fun L hL => ?_, fun L hL => ?_⟩
    · rw [List.foldlM_cons, hok]
      exact hrun
    · rcases List.mem_cons.mp hL with rfl | hL
      · rw [hout L hnd.1, Function.update_self]
        exact hagrees
      · have hne : L ≠ K := fun heq => hnd.1 (heq ▸ hL)
        have hL' := hin L hL
        rwa [Function.update_of_ne hne] at hL'
    · rw [List.mem_cons, not_or] at hL
      rw [hout L hL.2, Function.update_of_ne hL.1]

/-- **The controller starts with the scripts' configuration** if the lines are plain and every key
    can be read: after its eight calls each global holds the variable of the scripts. -/
theorem readConfig_same {cfg : Config} (hplain : cfg.Plain) (h : ∀ K, cfg.Readable K) :
    ∃ settings vars, readConfig (some cfg.text) = .ok settings ∧
      sourceFile cfg.text = some vars ∧ ∀ K, match vars (Key.name K) with
        | some v => cstr (settings K).bytes = v
        | none => settings K = Settings.zero K := by
  obtain ⟨vars, hsource, hvars⟩ := hplain.source
  obtain ⟨settings, hrun, hin, -⟩ :=
    foldlM_getConfigValue (fun K => (h K).stores) Key.all (by decide) Settings.zero
  refine ⟨settings, vars, hrun, hsource, fun K => ?_⟩
  rw [hvars]
  exact hin K (by cases K <;> decide)

end QemuStudy.Controller
