/-
  Reading the results back: `extrac_dirty_bandwidth.py` on the output files of `policy`.

  The script searches every line of every `.txt` file of a directory for `policy: NAME` and for the
  numbers of an iteration, collects `(prev_dirty, evict)` of one iteration under the policy named
  LAST, sorts what it collected for a policy, reverses it, and prints the two columns.

  1. `processLine` of a line that `policy` prints: an announcement sets the policy, the line of an
     iteration is read exactly, any other line is passed over (`processLine_announce`, `_data`,
     `_other`).  No line is taken for both, since the two patterns need letters the other kind of
     line does not have.

  2. `processFile_run`: a file adds the entry of iteration `k` under each policy; `policyData_eq`:
     the dictionary after all files, in whatever order, has LFU, LRU and MIN, in this order.

  3. The numbers stay TEXT: the list is sorted by the order of strings, in which `10` comes before
     `9`.  So the columns come out in numerical order exactly if, for any two runs, the numbers
     agree with their texts (`extraction_faithful_iff`); everything else that is asked of the
     columns holds in any case.
-/
import QemuStudy.Policy.Main
import QemuStudy.Policy.Loaders
import QemuStudy.Policy.Ties

namespace QemuStudy.Policy

open QemuStudy QemuStudy.Text QemuStudy.Lines

/-! ## The script -/

/-- `policy:\s*(\S+)` -/
def policyPattern : Pattern :=
  literals "policy:".toList ++ [.many 0 isSpace false, .many 1 (fun c => !isSpace c) true]

/-- A labelled number, `label\s*\d+`, captured or not. -/
def field (label : List Char) (captured : Bool) (re : Pattern) : Pattern :=
  literals label ++ .many 0 isSpace false :: .many 1 Char.isDigit captured :: re

/-- `iter:\s*(\d+)\s+dirty_set:\s*\d+\s+evict:\s*(\d+)\s+prev_dirty:\s*(\d+)` -/
def dataPattern : Pattern :=
  field "iter:".toList true (.many 1 isSpace false ::
    field "dirty_set:".toList false (.many 1 isSpace false ::
      field "evict:".toList true (.many 1 isSpace false ::
        field "prev_dirty:".toList true [])))

/-- `(prev_dirty, evict)`, two strings. -/
abbrev Entry := List Char × List Char

/-- `defaultdict(list)`: the keys in the order of their insertion. -/
abbrev PolicyData := List (Option (List Char) × List Entry)

/-- `policy_data[policy].append(entry)`. -/
def PolicyData.append (policy : Option (List Char)) (entry : Entry) : PolicyData → PolicyData
  | [] => [(policy, [entry])]
  | (key, entries) :: data =>
    if key = policy then (key, entries ++ [entry]) :: data
    else (key, entries) :: PolicyData.append policy entry data

/-- The variables that live through the loop over the files. -/
structure Script where
  currentPolicy : Option (List Char)
  policyData : PolicyData

/-- The body of `for line in file`. -/
def processLine (specificIter : Nat) (s : Script) (line : List Char) : Script :=
  let s := match search policyPattern line with
    | some (name :: _) => { s with currentPolicy := some name }
    | _ => s
  match search dataPattern line with
  | some [iter, evict, prevDirty] =>
    if numeral iter = specificIter then
      { s with policyData := PolicyData.append s.currentPolicy (prevDirty, evict) s.policyData }
    else s
  | _ => s

/-- One file, opened as text. -/
def processFile (specificIter : Nat) (s : Script) (text : List Char) : Script :=
  (keepLines '\n' (universalNewlines text)).foldl (processLine specificIter) s

/-- The loop over `os.listdir(directory)`, given the names and what the files hold. -/
def processDirectory (specificIter : Nat) (listdir : List (List Char × List Char)) : Script :=
  (listdir.filter fun f => ".txt".toList.isSuffixOf f.1).foldl
    (fun s f => processFile specificIter s f.2) ⟨none, []⟩

/-- `<=` on pairs of strings. -/
def entryLE (x y : Entry) : Prop := (if x.1 = y.1 then textLE x.2 y.2 else textLE x.1 y.1) = true

instance : DecidableRel entryLE := fun x y =>
  inferInstanceAs (Decidable ((if x.1 = y.1 then textLE x.2 y.2 else textLE x.1 y.1) = true))

/-- `data_list.sort()`, and the lists reversed. -/
def sortedEntries (dataList : List Entry) : List Entry := (dataList.insertionSort entryLE).reverse

/-- `"[" + ", ".join(..) + "]"` as `print` shows it. -/
def printList (words : List (List Char)) : List Char :=
  '[' :: (join [',', ' '] words ++ [']', '\n'])

/-- What is printed for one policy. -/
def printPolicy (policy : List Char) (prevDirty evict : List (List Char)) : List Char :=
  "\nPolicy: ".toList ++ policy ++ ['\n'] ++ printList prevDirty ++ printList evict

/-- A policy name in an f-string. -/
def policyText : Option (List Char) → List Char
  | none => "None".toList
  | some name => name

/-- `extrac_dirty_bandwidth.py <directory> <iter>`: what it prints. -/
def extract (specificIter : Nat) (listdir : List (List Char × List Char)) : List Char :=
  (processDirectory specificIter listdir).policyData.flatMap fun (policy, dataList) =>
    printPolicy (policyText policy) ((sortedEntries dataList).map Prod.fst)
      ((sortedEntries dataList).map Prod.snd)

/-! ## Single lines -/

theorem isSpace_of_isDigit {c : Char} (h : c.isDigit = true) : isSpace c = false := by
  have hc := digit_toNat h
  simp only [isSpace, Bool.or_eq_false_iff, Bool.and_eq_false_iff, decide_eq_false_iff_not]
  omega

theorem not_mem_decimal {c : Char} (h : c.isDigit = false) (n : Nat) : c ∉ decimal n := by
  intro hc
  rw [isDigit_of_mem_decimal hc] at h
  cases h

theorem isSpace_blank : ∀ c ∈ [' '], isSpace c = true := fun c hc => by
  rw [List.mem_singleton.mp hc]
  rfl

/-- A labelled number is read exactly, if no digit follows. -/
theorem matchAt_field (label : List Char) (v : Nat) (captured : Bool) {c : Char} {rest : List Char}
    {re : Pattern} {groups : List (List Char)} (hc : c.isDigit = false)
    (hre : matchAt re (c :: rest) = some groups) :
    matchAt (field label captured re) (label ++ (' ' :: (decimal v ++ c :: rest)))
      = some (if captured then decimal v :: groups else groups) := by
  have hstop : ∀ d ∈ (c :: rest).head?, d.isDigit = false := fun d hd => by cases hd; exact hc
  have hdigits := matchAt_many 1 Char.isDigit captured (decimal v)
    (fun d => isDigit_of_mem_decimal) hstop (List.length_pos_iff.mpr (decimal_ne_nil v)) hre
  have hfirst : ∀ d ∈ (decimal v ++ c :: rest).head?, isSpace d = false := by
    intro d hd
    rw [List.head?_append_of_ne_nil _ (decimal_ne_nil v)] at hd
    exact isSpace_of_isDigit (isDigit_of_mem_decimal (List.mem_of_mem_head? hd))
  rw [field, matchAt_literals]
  exact matchAt_many 0 isSpace false [' '] isSpace_blank hfirst (Nat.zero_le _) hdigits

/-- The blank in front of the next label. -/
theorem matchAt_blank {c : Char} {rest : List Char} {re : Pattern} {groups : List (List Char)}
    (hc : isSpace c = false) (hre : matchAt re (c :: rest) = some groups) :
    matchAt (.many 1 isSpace false :: re) (' ' :: c :: rest) = some groups :=
  matchAt_many 1 isSpace false [' '] isSpace_blank (fun d hd => by cases hd; exact hc)
    (Nat.le_refl _) hre

/-- **The format and the pattern.**  The line of an iteration is read exactly. -/
theorem search_dataPattern {l : Line} (he : 0 ≤ l.evict) (hp : 0 ≤ l.prevDirty) :
    search dataPattern (l.text ++ ['\n'])
      = some [decimal l.iter, decimal l.evict.toNat, decimal l.prevDirty.toNat] := by
  have hprev := matchAt_field "prev_dirty:".toList l.prevDirty.toNat true (c := '\n') rfl
    (show matchAt [] ['\n'] = some [] from rfl)
  have hevict := matchAt_field "evict:".toList l.evict.toNat true (c := ' ') rfl
    (matchAt_blank (c := 'p') rfl hprev)
  have hset := matchAt_field "dirty_set:".toList l.dirtySet false (c := ' ') rfl
    (matchAt_blank (c := 'e') rfl hevict)
  have hiter := matchAt_field "iter:".toList l.iter true (c := ' ') rfl
    (matchAt_blank (c := 'd') rfl hset)
  have htext : l.text ++ ['\n'] = "iter:".toList ++ (' ' :: (decimal l.iter ++ ' ' ::
      ("dirty_set:".toList ++ (' ' :: (decimal l.dirtySet ++ ' ' :: ("evict:".toList ++
        (' ' :: (decimal l.evict.toNat ++ ' ' :: ("prev_dirty:".toList ++
          (' ' :: (decimal l.prevDirty.toNat ++ ['\n']))))))))))) := by
    unfold Line.text
    rw [showInt_of_nonneg he, showInt_of_nonneg hp]
    simp
  rw [htext]
  exact search_of_matchAt hiter

theorem lit_mem_literals {c : Char} {text : List Char} (h : c ∈ text) :
    Item.lit c ∈ literals text :=
  List.mem_map_of_mem h

theorem search_policyPattern_eq_none {line : List Char} (h : 'o' ∉ line) :
    search policyPattern line = none :=
  search_eq_none (List.mem_append_left _ (lit_mem_literals (by decide))) h

theorem search_dataPattern_eq_none {line : List Char} (h : 't' ∉ line) :
    search dataPattern line = none :=
  search_eq_none (List.mem_append_left _ (lit_mem_literals (by decide))) h

/-- What a line of an iteration is made of: digits and its labels. -/
theorem Line.notMem_text {l : Line} (he : 0 ≤ l.evict) (hp : 0 ≤ l.prevDirty) {c : Char}
    (hc : c.isDigit = false) (h : c ∉ "iter: dirty_set: evict: prev_dirty: ".toList) :
    c ∉ l.text := by
  unfold Line.text
  rw [showInt_of_nonneg he, showInt_of_nonneg hp]
  simp only [String.reduceToList, List.mem_cons, not_or] at h
  simp [not_mem_decimal hc, h]

/-- The entry of a line. -/
def Line.entry (l : Line) : Entry := (showInt l.prevDirty, showInt l.evict)

/-- The line of an iteration adds its entry under the current policy, if it is the wanted one. -/
theorem processLine_data {l : Line} (he : 0 ≤ l.evict) (hp : 0 ≤ l.prevDirty) (k : Nat)
    (s : Script) : processLine k s (l.text ++ ['\n']) = if l.iter = k then
      ⟨s.currentPolicy, PolicyData.append s.currentPolicy l.entry s.policyData⟩ else s := by
  have ho : 'o' ∉ l.text ++ ['\n'] := by
    rw [List.mem_append, not_or]
    exact ⟨Line.notMem_text he hp rfl (by decide), by decide⟩
  rw [processLine, search_policyPattern_eq_none ho, search_dataPattern he hp, Line.entry,
    showInt_of_nonneg he, showInt_of_nonneg hp]
  dsimp only
  rw [numeral_decimal]

/-- An announcement sets the current policy. -/
theorem processLine_announce (p : PolicyName) (k : Nat) (s : Script) :
    processLine k s ("policy: ".toList ++ p.text ++ ['\n']) = ⟨some p.text, s.policyData⟩ := by
  cases p with
  | LFU => rfl
  | LRU => rfl
  | MIN => rfl

/-- Every other line is passed over. -/
theorem processLine_other {line : List Char} (ho : 'o' ∉ line) (ht : 't' ∉ line) (k : Nat)
    (s : Script) : processLine k s line = s := by
  rw [processLine, search_policyPattern_eq_none ho, search_dataPattern_eq_none ht]

theorem processLine_blank (k : Nat) (s : Script) : processLine k s ([] ++ ['\n']) = s :=
  processLine_other (by decide) (by decide) k s

/-! ## Whole files -/

/-- The lines of a policy add the entry of iteration `k`, once. -/
theorem foldl_data (k : Nat) : ∀ {out : List Line}, (out.map Line.iter).Nodup →
    (∀ l ∈ out, 0 ≤ l.evict ∧ 0 ≤ l.prevDirty) → ∀ s : Script,
    (out.map fun l => l.text ++ ['\n']).foldl (processLine k) s
      = match out.find? fun l => l.iter = k with
        | some l => ⟨s.currentPolicy, PolicyData.append s.currentPolicy l.entry s.policyData⟩
        | none => s := by
  intro out
  induction out with
  | nil => intro _ _ s; rfl
  | cons l out ih =>
    intro hnd hnonneg s
    rw [List.map_cons, List.nodup_cons] at hnd
    have hrest := ih hnd.2 fun x hx => hnonneg x (List.mem_cons_of_mem l hx)
    obtain ⟨he, hp⟩ := hnonneg l List.mem_cons_self
    rw [List.map_cons, List.foldl_cons, processLine_data he hp, hrest]
    by_cases hk : l.iter = k
    · have hnone : (out.find? fun l => l.iter = k) = none := by
        rw [List.find?_eq_none]
        intro x hx hxk
        exact hnd.1 (hk ▸ of_decide_eq_true hxk ▸ List.mem_map_of_mem hx)
      rw [hnone, List.find?_cons, decide_eq_true hk, if_pos hk]
    · rw [List.find?_cons, decide_eq_false hk, if_neg hk]

/-- What a run adds to the dictionary for one policy. -/
def Outcome.addEntry (o : Outcome) (k : Nat) (data : PolicyData) (p : PolicyName) : PolicyData :=
  match o.lineAt p k with
  | some l => PolicyData.append (some p.text) l.entry data
  | none => data

theorem foldl_section {o : Outcome} {p : PolicyName} (h : Numbered o.n (o.lines p)) (k : Nat)
    (s : Script) : ((o.sectionLines p).map (· ++ ['\n'])).foldl (processLine k) s
      = ⟨some p.text, o.addEntry k s.policyData p⟩ := by
  have hnd : ((o.lines p).map Line.iter).Nodup := by
    rw [h.iters]
    exact List.nodup_range.map fun a b hab => Nat.succ.inj hab
  rw [Outcome.sectionLines, List.map_append, List.foldl_append]
  simp only [List.map_cons, List.map_nil, List.foldl_cons, List.foldl_nil, processLine_blank]
  rw [processLine_announce, List.map_map]
  show ((o.lines p).map fun l => l.text ++ ['\n']).foldl (processLine k) _ = _
  rw [foldl_data k hnd h.nonneg, Outcome.addEntry, Outcome.lineAt]
  cases (o.lines p).find? fun l => l.iter = k with
  | none => rfl
  | some l => rfl

/-- No printed line has a line break inside. -/
theorem allLines_unbroken {o : Outcome} (h : ∀ p, Numbered o.n (o.lines p)) {c : Char}
    (hc : c = '\n' ∨ c = '\r') : ∀ line ∈ o.allLines, c ∉ line := by
  have hdigit : c.isDigit = false := by rcases hc with rfl | rfl <;> rfl
  have hsection : ∀ p, ∀ line ∈ o.sectionLines p, c ∉ line := by
    intro p line hline
    rcases List.mem_append.mp hline with hfixed | hdata
    · have hannounce : c ∉ "policy: ".toList ++ p.text := by
        rcases hc with rfl | rfl <;> cases p <;> decide
      simp only [List.mem_cons, List.not_mem_nil, or_false] at hfixed
      rcases hfixed with rfl | rfl | rfl | rfl
      · exact List.not_mem_nil
      · exact List.not_mem_nil
      · exact List.not_mem_nil
      · exact hannounce
    · obtain ⟨l, hl, rfl⟩ := List.mem_map.mp hdata
      obtain ⟨he, hp⟩ := (h p).nonneg l hl
      exact Line.notMem_text he hp hdigit (by rcases hc with rfl | rfl <;> decide)
  intro line hline
  simp only [Outcome.allLines, List.mem_cons, List.mem_append] at hline
  rcases hline with rfl | hline | rfl | hline | rfl | hline
  · have hblank : c ≠ ' ' := by rcases hc with rfl | rfl <;> decide
    simp [not_mem_decimal hdigit, hblank]
  · exact hsection _ line hline
  · exact List.not_mem_nil
  · exact hsection _ line hline
  · exact List.not_mem_nil
  · exact hsection _ line hline

/-- **One file.**  The output of a run adds the entries of iteration `k` under LFU, LRU and MIN,
    whatever policy the file before it left current. -/
theorem processFile_run {o : Outcome} (h : ∀ p, Numbered o.n (o.lines p)) (k : Nat) (s : Script) :
    processFile k s o.text
      = ⟨some PolicyName.MIN.text, PolicyName.all.foldl (o.addEntry k) s.policyData⟩ := by
  have hcr : '\r' ∉ o.text := by
    rw [Outcome.text_eq]
    intro hmem
    obtain ⟨line, hline, hin⟩ := List.mem_flatMap.mp hmem
    rcases List.mem_append.mp hin with hin | hin
    · exact allLines_unbroken h (Or.inr rfl) line hline hin
    · cases List.mem_singleton.mp hin
  have hlines : keepLines '\n' (universalNewlines o.text) = o.allLines.map (· ++ ['\n']) := by
    have huniv := universalNewlines_append hcr []
    rw [universalNewlines, List.append_nil] at huniv
    rw [huniv, Outcome.text_eq, keepLines_flatMap (allLines_unbroken h (Or.inl rfl))]
  have hsize : ∀ s, processLine k s (decimal o.n ++ ' ' :: decimal o.m ++ ['\n']) = s := fun s =>
    processLine_other (by simp [not_mem_decimal (c := 'o') rfl])
      (by simp [not_mem_decimal (c := 't') rfl]) k s
  rw [processFile, hlines, Outcome.allLines]
  simp only [List.map_cons, List.map_append, List.foldl_cons, List.foldl_append, hsize,
    processLine_blank, foldl_section (h _)]
  rfl

/-! ## Whole directories -/

/-- A file with the output of a run of `policy` that ended. -/
structure OutputFile where
  name : List Char
  trace : List UInt8
  resolution : Resolution
  cacheSize : Int32
  out : Outcome
  isTxt : ".txt".toList <:+ name
  ended : policyMain resolution (some trace) cacheSize = .ok out

theorem OutputFile.numbered (f : OutputFile) (p : PolicyName) : Numbered f.out.n (f.out.lines p) :=
  policyMain_numbered f.ended p

/-- How `os.listdir` and `open` show the file. -/
def OutputFile.listed (f : OutputFile) : List Char × List Char := (f.name, f.out.text)

/-- The entries of iteration `k` under a policy, one for each run that got that far. -/
def entries (p : PolicyName) (k : Nat) (files : List OutputFile) : List Entry :=
  files.filterMap fun f => (f.out.lineAt p k).map Line.entry

/-- The dictionary with these entries. -/
def table (data : PolicyName → List Entry) : PolicyData :=
  PolicyName.all.map fun p => (some p.text, data p)

/-- A run that has no iteration `k` adds nothing. -/
theorem addEntry_short {o : Outcome} {k : Nat} (hnone : ∀ p, o.lineAt p k = none)
    (data : PolicyData) : PolicyName.all.foldl (o.addEntry k) data = data := by
  have hadd : ∀ data p, o.addEntry k data p = data := fun data p => by
    rw [Outcome.addEntry, hnone p]
  rw [PolicyName.all]
  simp only [List.foldl_cons, List.foldl_nil, hadd]

/-- A run that has one adds an entry under each policy: to the table, or to nothing. -/
theorem addEntry_long {o : Outcome} {k : Nat} {l : PolicyName → Line}
    (hsome : ∀ p, o.lineAt p k = some (l p)) (data : PolicyName → List Entry) :
    PolicyName.all.foldl (o.addEntry k) (table data) = table (fun p => data p ++ [(l p).entry]) ∧
    PolicyName.all.foldl (o.addEntry k) [] = table (fun p => [(l p).entry]) := by
  have hadd : ∀ data p, o.addEntry k data p = PolicyData.append (some p.text) (l p).entry data :=
    fun data p => by rw [Outcome.addEntry, hsome p]
  rw [PolicyName.all]
  simp only [List.foldl_cons, List.foldl_nil, hadd]
  exact ⟨rfl, rfl⟩

/-- The dictionary after some of the files. -/
def collected (k : Nat) (files : List OutputFile) : PolicyData :=
  if files.any fun f => 1 ≤ k ∧ k ≤ f.out.n then table fun p => entries p k files else []

theorem OutputFile.lineAt_eq_none {f : OutputFile} {k : Nat} (h : ¬ (1 ≤ k ∧ k ≤ f.out.n))
    (p : PolicyName) : f.out.lineAt p k = none := by
  rw [← Option.not_isSome_iff_eq_none, lineAt_isSome_iff (f.numbered p)]
  exact h

theorem entries_concat (p : PolicyName) (k : Nat) (files : List OutputFile) (f : OutputFile) :
    entries p k (files ++ [f])
      = entries p k files ++ ((f.out.lineAt p k).map Line.entry).toList := by
  rw [entries, List.filterMap_append, List.filterMap_cons, List.filterMap_nil, entries]
  cases (f.out.lineAt p k).map Line.entry with
  | none => rfl
  | some e => rfl

theorem entries_eq_nil {k : Nat} {files : List OutputFile}
    (h : ¬ (files.any fun f => 1 ≤ k ∧ k ≤ f.out.n) = true) (p : PolicyName) :
    entries p k files = [] := by
  refine List.filterMap_eq_nil_iff.mpr fun f hf => ?_
  have hshort : ¬ (1 ≤ k ∧ k ≤ f.out.n) := fun hk =>
    h (List.any_eq_true.mpr ⟨f, hf, decide_eq_true hk⟩)
  rw [OutputFile.lineAt_eq_none hshort]
  rfl

/-- **One more file.** -/
theorem collected_concat (k : Nat) (files : List OutputFile) (f : OutputFile) :
    PolicyName.all.foldl (f.out.addEntry k) (collected k files) = collected k (files ++ [f]) := by
  have hany : (files ++ [f]).any (fun f => 1 ≤ k ∧ k ≤ f.out.n)
      = (files.any (fun f => 1 ≤ k ∧ k ≤ f.out.n) || decide (1 ≤ k ∧ k ≤ f.out.n)) := by
    rw [List.any_append, List.any_cons, List.any_nil, Bool.or_false]
  by_cases hk : 1 ≤ k ∧ k ≤ f.out.n
  · have hlines : ∀ p, ∃ l, f.out.lineAt p k = some l := fun p =>
      Option.isSome_iff_exists.mp ((lineAt_isSome_iff (f.numbered p)).mpr hk)
    choose l hl using hlines
    have hnew : ∀ p, entries p k (files ++ [f]) = entries p k files ++ [(l p).entry] := fun p => by
      rw [entries_concat, hl]
      rfl
    rw [collected, collected, hany, decide_eq_true hk, Bool.or_true, if_pos rfl, funext hnew]
    by_cases hsome : (files.any fun f => 1 ≤ k ∧ k ≤ f.out.n) = true
    · rw [if_pos hsome]
      exact (addEntry_long hl _).1
    · rw [if_neg hsome, (addEntry_long hl fun _ => []).2]
      simp only [entries_eq_nil hsome, List.nil_append]
  · have hnone := OutputFile.lineAt_eq_none hk
    have hnew : ∀ p, entries p k (files ++ [f]) = entries p k files := fun p => by
      rw [entries_concat, hnone]
      exact List.append_nil _
    rw [addEntry_short hnone, collected, collected, hany, decide_eq_false hk, Bool.or_false,
      funext hnew]

/-- **All files**, by induction along the listing. -/
theorem foldl_files (k : Nat) : ∀ (files done : List OutputFile) (current : Option (List Char)),
    (files.foldl (fun s f => processFile k s f.out.text) ⟨current, collected k done⟩).policyData
      = collected k (done ++ files) := by
  intro files
  induction files with
  | nil => intro done current; rw [List.append_nil]; rfl
  | cons f files ih =>
    intro done current
    rw [List.foldl_cons, processFile_run f.numbered, collected_concat, ih, List.append_assoc]
    rfl

/-- The dictionary at the end has the three policies, in the order in which they are printed. -/
theorem policyData_eq {k : Nat} {files : List OutputFile}
    (hk : ∃ f ∈ files, 1 ≤ k ∧ k ≤ f.out.n) :
    (processDirectory k (files.map OutputFile.listed)).policyData
      = table fun p => entries p k files := by
  have htxt : (files.map OutputFile.listed).filter (fun f => ".txt".toList.isSuffixOf f.1)
      = files.map OutputFile.listed := by
    refine List.filter_eq_self.mpr fun x hx => ?_
    obtain ⟨f, -, rfl⟩ := List.mem_map.mp hx
    exact List.isSuffixOf_iff_suffix.mpr f.isTxt
  have hany : (files.any fun f => 1 ≤ k ∧ k ≤ f.out.n) = true := by
    obtain ⟨f, hf, hfk⟩ := hk
    exact List.any_eq_true.mpr ⟨f, hf, decide_eq_true hfk⟩
  have hall : collected k files = table fun p => entries p k files := by
    rw [collected, if_pos hany]
  have hrun := foldl_files k files [] none
  rw [List.nil_append, hall] at hrun
  rw [processDirectory, htxt, List.foldl_map]
  exact hrun

/-! ## The order of the entries -/

theorem entryLE_of_eq {x y : Entry} (h : x.1 = y.1) : entryLE x y ↔ textLE x.2 y.2 = true := by
  rw [entryLE, if_pos h]

theorem entryLE_of_ne {x y : Entry} (h : x.1 ≠ y.1) : entryLE x y ↔ textLE x.1 y.1 = true := by
  rw [entryLE, if_neg h]

theorem entryLE_antisymm {x y : Entry} (hxy : entryLE x y) (hyx : entryLE y x) : x = y := by
  by_cases h : x.1 = y.1
  · rw [entryLE_of_eq h] at hxy
    rw [entryLE_of_eq h.symm] at hyx
    exact Prod.ext h (textLE_antisymm hxy hyx)
  · rw [entryLE_of_ne h] at hxy
    rw [entryLE_of_ne (Ne.symm h)] at hyx
    exact absurd (textLE_antisymm hxy hyx) h

instance : Std.Total entryLE where
  total x y := by
    by_cases h : x.1 = y.1
    · rw [entryLE_of_eq h, entryLE_of_eq h.symm]
      exact textLE_total x.2 y.2
    · rw [entryLE_of_ne h, entryLE_of_ne (Ne.symm h)]
      exact textLE_total x.1 y.1

instance : IsTrans Entry entryLE where
  trans x y z hxy hyz := by
    by_cases h : x.1 = y.1
    · by_cases h' : y.1 = z.1
      · rw [entryLE_of_eq h] at hxy
        rw [entryLE_of_eq h'] at hyz
        rw [entryLE_of_eq (h.trans h')]
        exact textLE_trans hxy hyz
      · rw [entryLE_of_ne h'] at hyz
        rw [entryLE_of_ne (h ▸ h'), h]
        exact hyz
    · rw [entryLE_of_ne h] at hxy
      by_cases h' : y.1 = z.1
      · rw [entryLE_of_ne (h' ▸ h), ← h']
        exact hxy
      · rw [entryLE_of_ne h'] at hyz
        have hne : x.1 ≠ z.1 := fun hxz => h (textLE_antisymm hxy (hxz ▸ hyz))
        rw [entryLE_of_ne hne]
        exact textLE_trans hxy hyz

/-- The first entry is numerically not smaller: the larger `prev_dirty`, and among equal ones not
    the smaller `evict`. -/
def notSmaller (x y : Entry) : Prop :=
  numeral y.1 < numeral x.1 ∨ (numeral y.1 = numeral x.1 ∧ numeral y.2 ≤ numeral x.2)

/-- `prev_dirty` and `evict` of a line. -/
def Line.point (l : Line) : Nat × Nat := (l.prevDirty.toNat, l.evict.toNat)

/-- Two points whose texts stand in the order of their numbers, if the first is the smaller one:
    where the numbers differ, the smaller is at most what the leading digits of the larger form. -/
def InTextOrder (x y : Nat × Nat) : Prop :=
  (x.1 < y.1 → x.1 ≤ leading x.1 y.1) ∧ (x.1 = y.1 → x.2 < y.2 → x.2 ≤ leading x.2 y.2)

instance (x y : Nat × Nat) : Decidable (InTextOrder x y) := inferInstanceAs (Decidable (_ ∧ _))

/-- The entry of a point. -/
def texts (x : Nat × Nat) : Entry := (decimal x.1, decimal x.2)

/-- **Text against number**, for two entries. -/
theorem inTextOrder_iff (x y : Nat × Nat) :
    (¬ notSmaller (texts x) (texts y) → entryLE (texts x) (texts y)) ↔ InTextOrder x y := by
  have hns : notSmaller (texts x) (texts y) ↔ y.1 < x.1 ∨ (y.1 = x.1 ∧ y.2 ≤ x.2) := by
    simp only [notSmaller, texts, numeral_decimal]
  rw [hns, InTextOrder]
  rcases Nat.lt_trichotomy x.1 y.1 with hlt | heq | hgt
  · have hne : (texts x).1 ≠ (texts y).1 := fun h => Nat.ne_of_lt hlt (decimal_injective h)
    rw [entryLE_of_ne hne, texts, texts,
      textLE_decimal_iff (decimal_length_mono (Nat.le_of_lt hlt))]
    constructor
    · intro h
      exact ⟨fun _ => h (by omega), fun heq => by omega⟩
    · intro h _
      exact h.1 hlt
  · have heq' : (texts x).1 = (texts y).1 := congrArg decimal heq
    rw [entryLE_of_eq heq', texts, texts]
    rcases Nat.lt_or_ge x.2 y.2 with hlt | hge
    · rw [textLE_decimal_iff (decimal_length_mono (Nat.le_of_lt hlt))]
      constructor
      · intro h
        exact ⟨fun hlt' => by omega, fun _ _ => h (by omega)⟩
      · intro h _
        exact h.2 heq hlt
    · constructor
      · intro _
        exact ⟨fun hlt' => by omega, fun _ hlt' => by omega⟩
      · intro _ hno
        exact absurd (Or.inr ⟨heq.symm, hge⟩) hno
  · constructor
    · intro _
      exact ⟨fun hlt => by omega, fun heq => by omega⟩
    · intro _ hno
      exact absurd (Or.inl hgt) hno

/-! ## The printed lists -/

theorem Line.entry_eq {l : Line} (he : 0 ≤ l.evict) (hp : 0 ≤ l.prevDirty) :
    l.entry = texts l.point := by
  rw [Line.entry, showInt_of_nonneg he, showInt_of_nonneg hp]
  rfl

theorem mem_entries {p : PolicyName} {k : Nat} {files : List OutputFile} {e : Entry} :
    e ∈ entries p k files ↔ ∃ f ∈ files, ∃ l ∈ f.out.lineAt p k, e = texts l.point := by
  have hentry : ∀ f : OutputFile, ∀ l ∈ f.out.lineAt p k, l.entry = texts l.point := by
    intro f l hl
    obtain ⟨he, hp⟩ := (f.numbered p).nonneg l (List.mem_of_find?_eq_some hl)
    exact Line.entry_eq he hp
  rw [entries, List.mem_filterMap]
  constructor
  · rintro ⟨f, hf, h⟩
    obtain ⟨l, hl, rfl⟩ := Option.map_eq_some_iff.mp h
    exact ⟨f, hf, l, hl, hentry f l hl⟩
  · rintro ⟨f, hf, l, hl, rfl⟩
    exact ⟨f, hf, Option.map_eq_some_iff.mpr ⟨l, hl, hentry f l hl⟩⟩

/-- Digits, and at least one. -/
def IsNumeral (w : List Char) : Prop := w ≠ [] ∧ ∀ c ∈ w, c.isDigit = true

theorem isNumeral_decimal (n : Nat) : IsNumeral (decimal n) :=
  ⟨decimal_ne_nil n, fun _ => isDigit_of_mem_decimal⟩

theorem IsNumeral.notMem {w : List Char} (h : IsNumeral w) {c : Char} (hc : c.isDigit = false) :
    c ∉ w := by
  intro hmem
  rw [h.2 c hmem] at hc
  cases hc

/-- A list of numerals can be read off its print. -/
theorem printList_injective {u v : List (List Char)} {r r' : List Char}
    (hu : ∀ w ∈ u, IsNumeral w) (hv : ∀ w ∈ v, IsNumeral w)
    (h : printList u ++ r = printList v ++ r') : u = v ∧ r = r' := by
  have hclose : ∀ {u : List (List Char)}, (∀ w ∈ u, IsNumeral w) →
      ']' ∉ join [',', ' '] u := by
    intro u hu hmem
    rcases mem_join hmem with hsep | ⟨w, hw, hin⟩
    · exact absurd hsep (by decide)
    · exact (hu w hw).notMem rfl hin
  have hwords : ∀ {u : List (List Char)}, (∀ w ∈ u, IsNumeral w) → ∀ w ∈ u, w ≠ [] ∧ ',' ∉ w :=
    fun hu w hw => ⟨(hu w hw).1, (hu w hw).notMem rfl⟩
  rw [printList, printList, List.cons_append, List.cons_append, List.append_assoc,
    List.append_assoc] at h
  obtain ⟨hjoin, hrest⟩ := append_cons_injective (hclose hu) (hclose hv) (List.cons.inj h).2
  exact ⟨join_injective (hwords hu) (hwords hv) hjoin, (List.cons.inj hrest).2⟩

theorem printPolicy_injective {policy : List Char} {u v u' v' : List (List Char)} {r r' : List Char}
    (hu : ∀ w ∈ u, IsNumeral w) (hv : ∀ w ∈ v, IsNumeral w) (hu' : ∀ w ∈ u', IsNumeral w)
    (hv' : ∀ w ∈ v', IsNumeral w)
    (h : printPolicy policy u v ++ r = printPolicy policy u' v' ++ r') :
    u = u' ∧ v = v' ∧ r = r' := by
  unfold printPolicy at h
  simp only [List.append_assoc] at h
  have hlists := List.append_cancel_left (List.append_cancel_left (List.append_cancel_left h))
  obtain ⟨hu₁, hsecond⟩ := printList_injective hu hu' hlists
  obtain ⟨hv₁, hrest⟩ := printList_injective hv hv' hsecond
  exact ⟨hu₁, hv₁, hrest⟩

/-- The print for all policies. -/
def printAll (prevDirty evict : PolicyName → List (List Char)) : List Char :=
  PolicyName.all.flatMap fun p => printPolicy p.text (prevDirty p) (evict p)

theorem printAll_injective {P E P' E' : PolicyName → List (List Char)}
    (hP : ∀ p, ∀ w ∈ P p, IsNumeral w) (hE : ∀ p, ∀ w ∈ E p, IsNumeral w)
    (hP' : ∀ p, ∀ w ∈ P' p, IsNumeral w) (hE' : ∀ p, ∀ w ∈ E' p, IsNumeral w)
    (h : printAll P E = printAll P' E') : P = P' ∧ E = E' := by
  simp only [printAll, PolicyName.all, List.flatMap_cons] at h
  obtain ⟨h₁, h₁', h⟩ := printPolicy_injective (hP _) (hE _) (hP' _) (hE' _) h
  obtain ⟨h₂, h₂', h⟩ := printPolicy_injective (hP _) (hE _) (hP' _) (hE' _) h
  obtain ⟨h₃, h₃', -⟩ := printPolicy_injective (hP _) (hE _) (hP' _) (hE' _) h
  constructor
  · funext p
    cases p with
    | LFU => exact h₁
    | LRU => exact h₂
    | MIN => exact h₃
  · funext p
    cases p with
    | LFU => exact h₁'
    | LRU => exact h₂'
    | MIN => exact h₃'

/-- What is asked of the two lists of a policy: the pairs at equal places are the wanted ones, each
    once, and they descend numerically. -/
structure Columns (wanted : List Entry) (prevDirty evict : List (List Char)) : Prop where
  length : prevDirty.length = evict.length
  runs : (prevDirty.zip evict).Perm wanted
  ordered : (prevDirty.zip evict).Pairwise notSmaller

/-- The printed text consists of such lists, for LFU, LRU and MIN. -/
def Faithful (k : Nat) (files : List OutputFile) (printed : List Char) : Prop :=
  ∃ prevDirty evict : PolicyName → List (List Char), printed = printAll prevDirty evict ∧
    ∀ p, Columns (entries p k files) (prevDirty p) (evict p)

theorem Columns.isNumeral {wanted : List Entry} {prevDirty evict : List (List Char)}
    (h : Columns wanted prevDirty evict) (hwanted : ∀ e ∈ wanted, IsNumeral e.1 ∧ IsNumeral e.2) :
    (∀ w ∈ prevDirty, IsNumeral w) ∧ ∀ w ∈ evict, IsNumeral w := by
  constructor
  · intro w hw
    rw [← List.map_fst_zip (Nat.le_of_eq h.length), List.mem_map] at hw
    obtain ⟨e, he, rfl⟩ := hw
    exact (hwanted e (h.runs.mem_iff.mp he)).1
  · intro w hw
    rw [← List.map_snd_zip (Nat.le_of_eq h.length.symm), List.mem_map] at hw
    obtain ⟨e, he, rfl⟩ := hw
    exact (hwanted e (h.runs.mem_iff.mp he)).2

theorem zip_columns (l : List Entry) : (l.map Prod.fst).zip (l.map Prod.snd) = l := by
  rw [← List.unzip_fst, ← List.unzip_snd, List.zip_unzip]

/-- The sorted and reversed entries are what is asked for, except perhaps for the order. -/
theorem columns_iff (dataList : List Entry) :
    Columns dataList ((sortedEntries dataList).map Prod.fst) ((sortedEntries dataList).map Prod.snd)
      ↔ ∀ x ∈ dataList, ∀ y ∈ dataList, ¬ notSmaller x y → entryLE x y := by
  have hsort := insertionSort_pairwise_iff (r := entryLE) (s := fun x y => notSmaller y x)
    entryLE_antisymm (fun x => Or.inr ⟨rfl, Nat.le_refl _⟩) dataList
  rw [← hsort, ← List.pairwise_reverse]
  constructor
  · intro h
    have hord := h.ordered
    rwa [zip_columns] at hord
  · intro h
    refine ⟨by rw [List.length_map, List.length_map], ?_, ?_⟩
    · rw [zip_columns]
      exact (List.reverse_perm _).trans (List.perm_insertionSort entryLE dataList)
    · rw [zip_columns]
      exact h

theorem extract_eq {k : Nat} {files : List OutputFile} (hk : ∃ f ∈ files, 1 ≤ k ∧ k ≤ f.out.n) :
    extract k (files.map OutputFile.listed)
      = printAll (fun p => (sortedEntries (entries p k files)).map Prod.fst)
          (fun p => (sortedEntries (entries p k files)).map Prod.snd) := by
  rw [extract, policyData_eq hk, table, List.flatMap_map]
  rfl

/-- The columns of a policy are in numerical order if and only if the texts of any two runs are. -/
theorem columns_entries_iff (p : PolicyName) (k : Nat) (files : List OutputFile) :
    Columns (entries p k files) ((sortedEntries (entries p k files)).map Prod.fst)
        ((sortedEntries (entries p k files)).map Prod.snd) ↔
      ∀ f ∈ files, ∀ g ∈ files, ∀ l ∈ f.out.lineAt p k, ∀ l' ∈ g.out.lineAt p k,
        InTextOrder l.point l'.point := by
  rw [columns_iff]
  constructor
  · intro h f hf g hg l hl l' hl'
    exact (inTextOrder_iff _ _).mp (h _ (mem_entries.mpr ⟨f, hf, l, hl, rfl⟩)
      _ (mem_entries.mpr ⟨g, hg, l', hl', rfl⟩))
  · intro h x hx y hy
    obtain ⟨f, hf, l, hl, rfl⟩ := mem_entries.mp hx
    obtain ⟨g, hg, l', hl', rfl⟩ := mem_entries.mp hy
    exact (inTextOrder_iff _ _).mpr (h f hf g hg l hl l' hl')

theorem isNumeral_of_mem_entries {p : PolicyName} {k : Nat} {files : List OutputFile} {e : Entry}
    (he : e ∈ entries p k files) : IsNumeral e.1 ∧ IsNumeral e.2 := by
  obtain ⟨f, -, l, -, rfl⟩ := mem_entries.mp he
  exact ⟨isNumeral_decimal _, isNumeral_decimal _⟩

/-- The print determines the lists, so if any lists are as asked for, the sorted ones are. -/
theorem Faithful.columns {k : Nat} {files : List OutputFile}
    (hk : ∃ f ∈ files, 1 ≤ k ∧ k ≤ f.out.n)
    (h : Faithful k files (extract k (files.map OutputFile.listed))) (p : PolicyName) :
    Columns (entries p k files) ((sortedEntries (entries p k files)).map Prod.fst)
      ((sortedEntries (entries p k files)).map Prod.snd) := by
  obtain ⟨P, E, hprint, hfaithful⟩ := h
  rw [extract_eq hk] at hprint
  have hsorted : ∀ p, ∀ e ∈ sortedEntries (entries p k files), IsNumeral e.1 ∧ IsNumeral e.2 :=
    fun p e he => isNumeral_of_mem_entries
      ((List.mem_insertionSort entryLE).mp (List.mem_reverse.mp he))
  have hasked := fun p => (hfaithful p).isNumeral fun e he => isNumeral_of_mem_entries he
  obtain ⟨hP, hE⟩ := printAll_injective
    (fun p w hw => by
      obtain ⟨e, he, rfl⟩ := List.mem_map.mp hw
      exact (hsorted p e he).1)
    (fun p w hw => by
      obtain ⟨e, he, rfl⟩ := List.mem_map.mp hw
      exact (hsorted p e he).2)
    (fun p => (hasked p).1) (fun p => (hasked p).2) hprint
  have hp := hfaithful p
  rwa [← hP, ← hE] at hp

/-- **When the extraction is faithful.**  For output files of any runs in any order, the script
    prints, for LFU, LRU and MIN, the pairs of iteration `k` of all runs, descending, exactly if the
    numbers of any two runs stand in the order of their texts. -/
theorem extraction_faithful_iff {k : Nat} {files : List OutputFile}
    (hk : ∃ f ∈ files, 1 ≤ k ∧ k ≤ f.out.n) :
    Faithful k files (extract k (files.map OutputFile.listed)) ↔
      ∀ p, ∀ f ∈ files, ∀ g ∈ files, ∀ l ∈ f.out.lineAt p k, ∀ l' ∈ g.out.lineAt p k,
        InTextOrder l.point l'.point := by
  rw [← forall_congr' fun p => columns_entries_iff p k files]
  constructor
  · intro h p
    exact h.columns hk p
  · intro h
    rw [extract_eq hk]
    exact ⟨_, _, rfl, h⟩

/-- `prev_dirty` and `evict` of iteration `k`, under LFU, LRU and MIN. -/
def Outcome.points (o : Outcome) (k : Nat) : List (Option (Nat × Nat)) :=
  [PolicyName.LFU, .LRU, .MIN].map fun p => (o.lineAt p k).map Line.point

/-- The file of a run, by what the run is known to have printed. -/
theorem exists_outputFile (R : Resolution) (trace : List UInt8) (cacheSize : Int32) (k n : Nat)
    (points : List (Option (Nat × Nat))) (name : List Char) (isTxt : ".txt".toList <:+ name)
    (h : (policyMain R (some trace) cacheSize).map (fun o => (o.n, o.points k))
      = .ok (n, points)) :
    ∃ f : OutputFile, f.name = name ∧ f.trace = trace ∧ f.cacheSize = cacheSize ∧ f.out.n = n ∧
      f.out.points k = points := by
  cases hrun : policyMain R (some trace) cacheSize with
  | error e =>
    rw [hrun] at h
    cases h
  | ok o =>
    rw [hrun] at h
    obtain ⟨hn, hpoints⟩ := Prod.mk.inj (Except.ok.inj h)
    exact ⟨⟨name, trace, R, cacheSize, o, isTxt, hrun⟩, rfl, rfl, rfl, hn, hpoints⟩

/-- The points of a file with the same point under all policies. -/
theorem point_of_points {o : Outcome} {k : Nat} {x : Nat × Nat} {p : PolicyName} {l : Line}
    (h : o.points k = List.replicate 3 (some x)) (hl : l ∈ o.lineAt p k) : l.point = x := by
  have hmem : some l.point ∈ o.points k := by
    refine List.mem_map.mpr ⟨p, by cases p <;> decide, ?_⟩
    rw [Option.mem_def.mp hl, Option.map_some]
  rw [h] at hmem
  exact Option.some.inj (List.eq_of_mem_replicate hmem)

/-- Nine pages in the first iteration, another one in the second. -/
def nineThenOne : List UInt8 := utf8 "1111111110\r\n0000000001\r\n".toList

/-- With targets 0 and 9 the second iteration starts from 1 and from 10 dirty pages.  The texts
    stand in the order of the numbers, and the two runs are extracted faithfully. -/
theorem extraction_faithful_pair : ∃ f g : OutputFile,
    (f.out.points 2 = List.replicate 3 (some (1, 1)) ∧
      g.out.points 2 = List.replicate 3 (some (10, 1))) ∧
    (∃ x ∈ [f, g], 1 ≤ 2 ∧ 2 ≤ x.out.n) ∧
    Faithful 2 [f, g] (extract 2 ([f, g].map OutputFile.listed)) := by
  obtain ⟨f, -, -, -, hn, hf⟩ := exists_outputFile (Resolution.preferring fun _ => ∅) nineThenOne
    0 2 2 (List.replicate 3 (some (1, 1))) "t_target_0.txt".toList (by decide) (by decide +kernel)
  obtain ⟨g, -, -, -, -, hg⟩ := exists_outputFile (Resolution.preferring fun _ => ∅) nineThenOne
    9 2 2 (List.replicate 3 (some (10, 1))) "t_target_9.txt".toList (by decide) (by decide +kernel)
  have hk : ∃ x ∈ [f, g], 1 ≤ 2 ∧ 2 ≤ x.out.n :=
    ⟨f, List.mem_cons_self, by decide, Nat.le_of_eq hn.symm⟩
  refine ⟨f, g, ⟨hf, hg⟩, hk, (extraction_faithful_iff hk).mpr fun p a ha b hb l hl l' hl' => ?_⟩
  simp only [List.mem_cons, List.not_mem_nil, or_false] at ha hb
  rcases ha with rfl | rfl <;> rcases hb with rfl | rfl
  · rw [point_of_points hf hl, point_of_points hf hl']
    decide
  · rw [point_of_points hf hl, point_of_points hg hl']
    decide
  · rw [point_of_points hg hl, point_of_points hf hl']
    decide
  · rw [point_of_points hg hl, point_of_points hg hl']
    decide

/-- One page in the first iteration, nine others in the second. -/
def oneThenNine : List UInt8 := utf8 "0000000001\r\n1111111110\r\n".toList

/-- With targets 0 and 1 the second iteration starts from 9 and from 10 dirty pages.  The 9 is
    printed first, so these files are not extracted faithfully. -/
theorem nine_before_ten :
    (do
      let o₀ ← policyMain (Resolution.preferring fun _ => ∅) (some oneThenNine) 0
      let o₁ ← policyMain (Resolution.preferring fun _ => ∅) (some oneThenNine) 1
      return extract 2 [("t_target_0.txt".toList, o₀.text), ("t_target_1.txt".toList, o₁.text)])
    = (.ok ("\nPolicy: LFU\n[9, 10]\n[9, 9]\n\nPolicy: LRU\n[9, 10]\n[9, 9]\n".toList ++
        "\nPolicy: MIN\n[9, 10]\n[9, 9]\n".toList) : Except Fault (List Char)) ∧
    ∃ f g : OutputFile,
      (f.name = "t_target_0.txt".toList ∧ f.trace = oneThenNine ∧ f.cacheSize = 0) ∧
      (g.name = "t_target_1.txt".toList ∧ g.trace = oneThenNine ∧ g.cacheSize = 1) ∧
      ¬ Faithful 2 [f, g] (extract 2 ([f, g].map OutputFile.listed)) := by
  refine ⟨by decide +kernel, ?_⟩
  obtain ⟨f, hname, htrace, hsize, hn, hf⟩ := exists_outputFile
    (Resolution.preferring fun _ => ∅) oneThenNine 0 2 2 (List.replicate 3 (some (9, 9)))
    "t_target_0.txt".toList (by decide) (by decide +kernel)
  obtain ⟨g, hname', htrace', hsize', hn', hg⟩ := exists_outputFile
    (Resolution.preferring fun _ => ∅) oneThenNine 1 2 2 (List.replicate 3 (some (10, 9)))
    "t_target_1.txt".toList (by decide) (by decide +kernel)
  refine ⟨f, g, ⟨hname, htrace, hsize⟩, ⟨hname', htrace', hsize'⟩, fun h => ?_⟩
  have hk : ∃ x ∈ [f, g], 1 ≤ 2 ∧ 2 ≤ x.out.n :=
    ⟨f, List.mem_cons_self, by decide, Nat.le_of_eq hn.symm⟩
  obtain ⟨l, hl⟩ : ∃ l, l ∈ f.out.lineAt .LFU 2 :=
    Option.isSome_iff_exists.mp ((lineAt_isSome_iff (f.numbered .LFU)).mpr ⟨by decide, by omega⟩)
  obtain ⟨l', hl'⟩ : ∃ l', l' ∈ g.out.lineAt .LFU 2 :=
    Option.isSome_iff_exists.mp ((lineAt_isSome_iff (g.numbered .LFU)).mpr ⟨by decide, by omega⟩)
  have horder := (columns_entries_iff .LFU 2 [f, g]).mp (h.columns hk .LFU) f List.mem_cons_self g
    (List.mem_cons_of_mem f List.mem_cons_self) l hl l' hl'
  rw [point_of_points hf hl, point_of_points hg hl'] at horder
  exact absurd horder (by decide)

end QemuStudy.Policy
