/-
  A message that a party has matched was sent by the party at the other end, and that party runs the
  same family of mode.

  Messages have neither a length nor a terminator on the wire (`Controller.Message`), reads are cut
  anywhere, handlers run any number of times, and the three processes are started by hand, with a
  mode and with addresses each.  What makes the comparison trustworthy all the same:

  1. when `strcmp` is reached, the buffer holds exactly the bytes of the last `read`
     (`buff_at_strcmp`), so a match means that one `read` returned the whole message
     (`read_of_matched`);
  2. these bytes are a stretch of what the other side of the connection has sent (`Flow`);
  3. whatever the peer can have sent without the message (`foreign`) never contains two neighbouring
     bytes of it, not even across a seam (`separable`, a check of the finite table of messages);
  4. if the addresses lead to the wrong party, nothing that it can send does (`crossed_separable`):
     a match also says that the connection is the right one.

  One message is a beginning of another: `shm_migrate` of `shm_migrate_switchover`.  There the order
  of the backup's handler decides: it sends the short one first (`foreign` stops at it).
-/
import QemuStudy.Deployment.Wiring
import QemuStudy.Lib.Text

namespace QemuStudy.Deployment

open QemuStudy.Controller (Role Signal Fd Msg End otherEnd Buff store cstr cstr_store_memset
  eq_bytes_of_cstr)
open QemuStudy.Threads
open QemuStudy.Runs

section Runs

variable {mode : Role → Mode} {st : Role → Settings} {allowed : Net → Choice → Prop} {σ : Net}

/-! ## The buffer -/

def Instr.touchesBuff : Instr → Bool
  | .memset _ | .read _ _ => true
  | _ => false

/-- The thread that uses `buff`. -/
def reader : Role → Option Signal
  | .backup => some .usr1
  | .src | .dst => none

theorem reader_of_touchesBuff {md : Mode} {r : Role} {o : Option Signal} {i : Instr}
    (hi : i ∈ code md r o) (ht : i.touchesBuff = true) : o = reader r := by
  have hall : o ≠ reader r → ∀ j ∈ code md r o, j.touchesBuff = false := by
    cases md <;> cases r <;> rcases o with _ | _ | _ <;> decide
  by_contra hne
  rw [hall hne i hi] at ht
  cases ht

/-- What an instruction leaves in the buffer. -/
def Instr.onBuff : Instr → Data → Buff → Buff
  | .memset m, _, b => QemuStudy.Controller.memset (m.sizeof + 1) b
  | .read _ _, d, b => store d.bytes b
  | _, _, b => b

theorem Effect.buff {s : Settings} {r : Role} {i : Instr} {v v' : Vars} {l l' : Locals}
    {w w' : World} {d : Data} (h : Effect s r v l w i v' l' w' d) :
    v'.buff = if i.touchesBuff = true then i.onBuff d v.buff else v.buff := by
  cases h with
  | plain hi =>
    cases i with
    | memset | read => cases hi
    | _ => rfl
  | _ => rfl

/-- If instruction `n` is a comparison, the last two things done to the buffer before it are the
    `memset` and the `read` of `read_from_file`. -/
def readsFirst (prog : List Instr) (n : Nat) : Bool :=
  match prog[n]? with
  | some (.assertStrcmp m) => [Fd.connfd, .srcfd, .dstfd].any fun fd =>
      [.memset m, .read fd m].isSuffixOf ((prog.take n).filter Instr.touchesBuff)
  | _ => true

theorem code_readsFirst (md : Mode) (r : Role) (o : Option Signal) :
    (List.range (code md r o).length).all (readsFirst (code md r o)) = true := by
  cases md <;> cases r <;> rcases o with _ | _ | _ <;> decide

theorem read_before_strcmp {md : Mode} {r : Role} {o : Option Signal} {u t : List Instr} {m : Msg}
    (h : code md r o = u ++ .assertStrcmp m :: t) :
    ∃ fd, [.memset m, .read fd m] <:+ u.filter Instr.touchesBuff := by
  have hlt : u.length < (code md r o).length := by
    rw [h, List.length_append, List.length_cons]
    omega
  have hn := List.all_eq_true.mp (code_readsFirst md r o) u.length (List.mem_range.mpr hlt)
  rw [h, readsFirst, List.getElem?_append_right le_rfl, Nat.sub_self, List.getElem?_cons_zero,
    List.take_left] at hn
  obtain ⟨fd, -, hfd⟩ := List.any_eq_true.mp hn
  exact ⟨fd, List.isSuffixOf_iff_suffix.mp hfd⟩

/-- **A comparison looks at one `read`**, and at zeros after it. -/
theorem buff_at_strcmp (h : Reach (machine mode st).step allowed (start mode st) σ) {r : Role}
    {o : Option Signal} {m : Msg} {t : List Instr} (hlive : (σ.proc r).alive = true)
    (htop : (σ.proc r).todoOf o = .assertStrcmp m :: t) :
    ∃ fd d, (⟨r, o, .did (.read fd m) d⟩ : Entry) ∈ σ.log ∧
      cstr (σ.proc r).vars.buff = d.bytes.takeWhile (· ≠ 0) := by
  obtain ⟨k, u, hcode, hdid⟩ := Reach.position h hlive (by rw [htop]; exact List.cons_ne_nil _ _)
  replace hcode : code (mode r) r o = u ++ .assertStrcmp m :: t := htop ▸ hcode
  obtain ⟨fd, hfd⟩ := read_before_strcmp hcode
  -- only thread `o` uses the buffer
  have honly : ∀ o' i d, (⟨r, o', .did i d⟩ : Entry) ∈ σ.log → i.touchesBuff = true → o' = o := by
    intro o' i d hx hi
    have hread : Instr.read fd m ∈ code (mode r) r o := by
      have hmem := hfd.subset (List.mem_cons_of_mem _ (List.mem_singleton.mpr rfl))
      rw [hcode]
      exact List.mem_append_left _ (List.mem_filter.mp hmem).1
    rw [reader_of_touchesBuff (mem_code h hx) hi, reader_of_touchesBuff hread rfl]
  have hsuffix : [.memset m, .read fd m] <:+ (ops Instr.touchesBuff r σ.log).map Prod.fst := by
    rw [ops_map_fst honly, hdid, List.filter_append]
    exact hfd.trans (List.suffix_append _ _)
  -- so the last two things done to it are the `memset` and the `read`
  obtain ⟨before, hbefore⟩ := hsuffix
  obtain ⟨l₁, l₂, hops, -, htwo⟩ := List.map_eq_append_iff.mp hbefore.symm
  obtain ⟨⟨i₁, d₁⟩, l₃, rfl, hi₁, hthree⟩ := List.map_eq_cons_iff.mp htwo
  obtain ⟨⟨i₂, d₂⟩, l₄, rfl, hi₂, hfour⟩ := List.map_eq_cons_iff.mp hthree
  obtain rfl := List.map_eq_nil_iff.mp hfour
  obtain rfl : i₁ = .memset m := hi₁
  obtain rfl : i₂ = .read fd m := hi₂
  have hbuff := Reach.view_eq (fun _ _ _ _ _ _ _ _ _ _ he => (machine_effect he).buff) h r hlive
  rw [hops, List.foldl_append] at hbuff
  have hmem : (Instr.read fd m, d₂) ∈ ops Instr.touchesBuff r σ.log := by
    rw [hops]
    exact List.mem_append_right _ (List.mem_cons_of_mem _ (List.mem_singleton.mpr rfl))
  obtain ⟨-, o', hentry⟩ := mem_ops.mp hmem
  obtain rfl := honly o' _ _ hentry rfl
  obtain ⟨-, hlen⟩ := bytes_of_read h hentry
  have hfits : d₂.bytes.length < m.sizeof + 1 := by
    rw [Msg.sizeof]
    omega
  refine ⟨fd, d₂, hentry, ?_⟩
  rw [hbuff]
  exact cstr_store_memset hfits _

/-- So a comparison that succeeds has found the message in one piece. -/
theorem read_of_matched (h : Reach (machine mode st).step allowed (start mode st) σ) {r : Role}
    {o : Option Signal} {m : Msg} {t : List Instr} (hlive : (σ.proc r).alive = true)
    (htop : (σ.proc r).todoOf o = .assertStrcmp m :: t)
    (hmatch : cstr (σ.proc r).vars.buff = m.bytes) :
    ∃ fd d, (⟨r, o, .did (.read fd m) d⟩ : Entry) ∈ σ.log ∧ d.bytes = m.bytes := by
  obtain ⟨fd, d, hentry, hstr⟩ := buff_at_strcmp h hlive htop
  rw [hmatch] at hstr
  obtain ⟨-, hlen⟩ := bytes_of_read h hentry
  refine ⟨fd, d, hentry, eq_bytes_of_cstr (le_antisymm hlen ?_) hstr.symm⟩
  have hle := (List.takeWhile_prefix (fun b : UInt8 => decide (b ≠ 0)) (l := d.bytes)).length_le
  rw [← hstr] at hle
  exact hle

/-! ## What the peer can send -/

/-- The literals that an instruction sends on `fd`. -/
def Instr.texts (fd : Fd) : Instr → List Msg
  | .write fd' (.text m) => if fd' = fd then [m] else []
  | _ => []

/-- The message an instruction asks for on `fd`. -/
def Instr.asks (fd : Fd) : Instr → List Msg
  | .read fd' m => if fd' = fd then [m] else []
  | _ => []

/-- The two literals that `choose` picks from. -/
def Instr.choices : Instr → List Msg
  | .choose clear set => [clear, set]
  | _ => []

/-- What a thread can have sent on `fd` without having sent `m`: literals before it, and what it
    chooses. -/
def foreignOf (fd : Fd) (m : Msg) (prog : List Instr) : List Msg :=
  ((prog.takeWhile (· ≠ .write fd (.text m))).flatMap (Instr.texts fd) ++
    if .write fd .chosen ∈ prog then Locals.fresh.arg :: prog.flatMap Instr.choices else []).filter
      (· ≠ m)

/-- What a party can have sent on `fd` without having sent `m`. -/
def foreign (md : Mode) (r : Role) (fd : Fd) (m : Msg) : List Msg :=
  [none, some Signal.usr1, some .usr2].flatMap fun o => foreignOf fd m (code md r o)

/-- Party `r` has sent message `m` on `fd`. -/
def Sent (r : Role) (fd : Fd) (m : Msg) (log : List Entry) : Prop :=
  ∃ o i d, (⟨r, o, .did i d⟩ : Entry) ∈ log ∧ i.sendsOn fd = true ∧ d.bytes = m.bytes

/-- The messages that a party may send on `fd`. -/
def vocabulary (md : Mode) (r : Role) (fd : Fd) : List Msg :=
  [none, some Signal.usr1, some .usr2].flatMap fun o =>
    (code md r o).flatMap (Instr.texts fd) ++
      if .write fd .chosen ∈ code md r o then
        Locals.fresh.arg :: (code md r o).flatMap Instr.choices
      else []

/-- Two neighbouring bytes of `m` that none of the messages `ms` has, nor any two in a row. -/
def Separable (m : Msg) (ms : List Msg) : Prop :=
  ∃ x ∈ m.bytes.zip m.bytes.tail, Text.Apart x.1 x.2 (ms.map Msg.bytes)

instance (m : Msg) (ms : List Msg) : Decidable (Separable m ms) :=
  inferInstanceAs (Decidable (∃ x ∈ _, _))

/-- What `r` reads can be told from everything else its peer can have sent, and from everything that
    the other of its two possible peers can send. -/
def Instr.readsSeparable (md : Mode) (r : Role) : Instr → Bool
  | .read fd m =>
    Separable m (foreign md (otherEnd (r, fd)).1 (otherEnd (r, fd)).2 m) &&
      Separable m (vocabulary md (crossedEnd (r, fd)).1 (crossedEnd (r, fd)).2)
  | _ => true

/-- Whatever the modes of the parties. -/
theorem readsSeparable {md : Mode} {r : Role} {o : Option Signal} {fd : Fd} {m : Msg}
    (h : .read fd m ∈ code md r o) (md' : Mode) :
    (Instr.read fd m).readsSeparable md' r = true := by
  have hall : (code md r o).all (Instr.readsSeparable md' r) = true := by
    cases md <;> cases md' <;> cases r <;> rcases o with _ | _ | _ <;> decide +kernel
  exact List.all_eq_true.mp hall _ h

theorem separable {md : Mode} {r : Role} {o : Option Signal} {fd : Fd} {m : Msg}
    (h : .read fd m ∈ code md r o) (md' : Mode) :
    Separable m (foreign md' (otherEnd (r, fd)).1 (otherEnd (r, fd)).2 m) :=
  of_decide_eq_true (Bool.and_eq_true_iff.mp (readsSeparable h md')).1

theorem crossed_separable {md : Mode} {r : Role} {o : Option Signal} {fd : Fd} {m : Msg}
    (h : .read fd m ∈ code md r o) (md' : Mode) :
    Separable m (vocabulary md' (crossedEnd (r, fd)).1 (crossedEnd (r, fd)).2) :=
  of_decide_eq_true (Bool.and_eq_true_iff.mp (readsSeparable h md')).2

/-! ## What has been sent -/

theorem Effect.arg {s : Settings} {r : Role} {i : Instr} {v v' : Vars} {l l' : Locals}
    {w w' : World} {d : Data} (h : Effect s r v l w i v' l' w' d) :
    l'.arg = l.arg ∨ l'.arg ∈ i.choices := by
  cases h with
  | choose clear set =>
    right
    cases hc : v.count <;> simp [Instr.choices]
  | _ => exact Or.inl rfl

/-- The argument a thread holds was chosen by its own code. -/
theorem arg_of_reach (h : Reach (machine mode st).step allowed (start mode st) σ) :
    ∀ r, (σ.proc r).alive = true → ∀ o, (σ.proc r).todoOf o ≠ [] →
      ((machine mode st).locOf (σ.proc r) o).arg
        ∈ Locals.fresh.arg :: (code (mode r) r o).flatMap Instr.choices := by
  refine Reach.locals (Q := fun r o l =>
    l.arg ∈ Locals.fresh.arg :: (code (mode r) r o).flatMap Instr.choices)
    (fun r o => List.mem_cons_self) (fun r c o i v l w v' l' w' d hi hl hexec => ?_) h
  rcases (machine_effect hexec).arg with hsame | hchosen
  · rw [hsame]
    exact hl
  · exact List.mem_cons_of_mem _ (List.mem_flatMap.mpr ⟨i, hi, hchosen⟩)

/-- The backup writes in its handler only, to one of its peers. -/
theorem write_backup {md : Mode} {o : Option Signal} {fd : Fd} {arg : Arg}
    (h : .write fd arg ∈ code md .backup o) : o = some .usr1 ∧ fd ≠ .connfd := by
  have hnone : o ≠ some .usr1 ∨ fd = .connfd →
      ∀ i ∈ code md .backup o, i.sendsOn fd = false := by
    cases md <;> rcases o with _ | _ | _ <;> cases fd <;> decide
  have hsends : Instr.sendsOn fd (.write fd arg) = true := by simp [Instr.sendsOn]
  by_contra hcon
  rw [hnone (by tauto) _ h] at hsends
  cases hsends

theorem dial_assigns (fd : Fd) : (dial fd).assigns fd = true := by cases fd <;> rfl

/-- It installs the handler after both connections. -/
theorem connect_before_signal {md : Mode} {o : Option Signal} {fd : Fd} (hfd : fd ≠ .connfd)
    (h : .signal .usr1 ∈ code md .backup o) :
    dial fd ∈ (code md .backup o).takeWhile (· ≠ .signal .usr1) := by
  revert h hfd
  cases md <;> rcases o with _ | _ | _ <;> cases fd <;> decide

/-- So a write of the backup reaches its peer. -/
theorem backup_sends (h : Reach (machine mode st).step allowed (start mode st) σ)
    {o : Option Signal} {fd : Fd} {arg : Arg} {d : Data}
    (hi : (⟨.backup, o, .did (.write fd arg) d⟩ : Entry) ∈ σ.log) : d.bytes ≠ [] := by
  obtain ⟨rfl, hfd⟩ := write_backup (mem_code h hi)
  obtain ⟨l₁, l₂, hlog⟩ := List.append_of_mem hi
  have hinstalled := installed_before h hlog
  obtain ⟨σ₁, c, t, v, l, w, hr, -, hl, hlive, -, hexec⟩ := at_did h hlog
  rw [← hl] at hinstalled
  have hassigned := fds_of_did hr hlive fd (i := dial fd) (dial_assigns fd)
    (hinstalled.before hr fun o' ho' => connect_before_signal hfd ho')
  cases machine_effect hexec with
  | plain hp => cases hp
  | write _ _ _ => exact (Arg.eval _ arg).bytes_ne_nil
  | writeNowhere _ _ hno =>
    rw [hassigned] at hno
    cases hno

theorem write_of_sendsOn {fd : Fd} {i : Instr} (h : i.sendsOn fd = true) :
    ∃ arg, i = .write fd arg := by
  cases i with
  | write fd' arg =>
    obtain rfl : fd' = fd := of_decide_eq_true h
    exact ⟨arg, rfl⟩
  | _ => cases h

/-- The messages that instruction `i` of a thread with code `prog` may send on `fd`. -/
def Says (fd : Fd) (prog : List Instr) (i : Instr) (m : Msg) : Prop :=
  i = .write fd (.text m) ∨
    i = .write fd .chosen ∧ m ∈ Locals.fresh.arg :: prog.flatMap Instr.choices

/-- **What is written**: a whole message, or nothing while there is no connection. -/
theorem bytes_of_sends (h : Reach (machine mode st).step allowed (start mode st) σ) {r : Role}
    {o : Option Signal} {fd : Fd} {i : Instr} {d : Data}
    (hx : (⟨r, o, .did i d⟩ : Entry) ∈ σ.log) (hi : i.sendsOn fd = true) :
    d.bytes = [] ∨ ∃ m, Says fd (code (mode r) r o) i m ∧ d.bytes = m.bytes := by
  obtain ⟨arg, rfl⟩ := write_of_sendsOn hi
  obtain ⟨l₁, l₂, hlog⟩ := List.append_of_mem hx
  obtain ⟨σ₁, c, t, v, l, w, hr, -, -, hlive, htop, hexec⟩ := at_did h hlog
  cases machine_effect hexec with
  | plain hp => cases hp
  | writeNowhere _ _ _ => exact Or.inl rfl
  | write _ _ _ =>
    refine Or.inr ⟨_, ?_, rfl⟩
    cases arg with
    | text m => exact Or.inl rfl
    | chosen =>
      exact Or.inr ⟨rfl, arg_of_reach hr r hlive o (by rw [htop]; exact List.cons_ne_nil _ _)⟩

/-- The other parties write once per handler. -/
theorem write_once {md : Mode} {r : Role} (hr : r ≠ .backup) {o : Option Signal} {fd : Fd}
    {i j : Instr} (hi : i ∈ code md r o) (hj : j ∈ code md r o) (hi' : i.sendsOn fd = true)
    (hj' : j.sendsOn fd = true) : j = i := by
  have hlen : ((code md r o).filter (Instr.sendsOn fd)).length ≤ 1 := by
    revert hr
    cases md <;> cases r <;> rcases o with _ | _ | _ <;> cases fd <;> decide
  have hi := List.mem_filter.mpr ⟨hi, hi'⟩
  have hj := List.mem_filter.mpr ⟨hj, hj'⟩
  match hl : (code md r o).filter (Instr.sendsOn fd) with
  | [] => rw [hl] at hi; cases hi
  | [k] =>
    rw [hl] at hi hj
    exact (List.mem_singleton.mp hj).trans (List.mem_singleton.mp hi).symm
  | k :: k' :: ks =>
    rw [hl] at hlen
    simp at hlen

/-- If `m` has not been sent, a literal that has been written stands before it in its thread. -/
theorem before_text (h : Reach (machine mode st).step allowed (start mode st) σ) {r : Role}
    {o : Option Signal} {fd : Fd} {m m' : Msg} {d : Data}
    (hx : (⟨r, o, .did (.write fd (.text m')) d⟩ : Entry) ∈ σ.log) (hne : m' ≠ m)
    (hm : ¬ Sent r fd m σ.log) :
    .write fd (.text m') ∈ (code (mode r) r o).takeWhile (· ≠ .write fd (.text m)) := by
  have hcode : .write fd (.text m') ∈ code (mode r) r o := mem_code h hx
  have hne' : Instr.write fd (.text m') ≠ .write fd (.text m) := by
    rintro heq
    cases heq
    exact hne rfl
  rcases Threads.mem_takeWhile_ne hcode hne' with hbefore | hafter
  · exact hbefore
  · -- then `m` was written first
    obtain ⟨l₁, l₂, hlog⟩ := List.append_of_mem hx
    obtain ⟨d', hd'⟩ := mem_before_did h hlog hafter
    have hmem : (⟨r, o, .did (.write fd (.text m)) d'⟩ : Entry) ∈ σ.log := by
      rw [hlog]
      exact List.mem_append_left _ hd'
    have hsends : ∀ m'', Instr.sendsOn fd (.write fd (.text m'')) = true := fun m'' => by
      simp [Instr.sendsOn]
    by_cases hr : r = .backup
    · subst hr
      rcases bytes_of_sends h hmem (hsends m) with hnil | ⟨m'', hsays | ⟨hchosen, -⟩, hbytes⟩
      · exact absurd hnil (backup_sends h hmem)
      · cases hsays
        exact absurd ⟨o, _, d', hmem, hsends m, hbytes⟩ hm
      · cases hchosen
    · have := write_once hr hcode (mem_code h hmem) (hsends m') (hsends m)
      exact absurd this.symm hne'

/-- **What is on its way without `m`.** -/
theorem foreign_of_sent (h : Reach (machine mode st).step allowed (start mode st) σ) {r : Role}
    {o : Option Signal} {fd : Fd} {i : Instr} {d : Data} {m : Msg}
    (hx : (⟨r, o, .did i d⟩ : Entry) ∈ σ.log) (hi : i.sendsOn fd = true)
    (hm : ¬ Sent r fd m σ.log) :
    d.bytes = [] ∨ d.bytes ∈ (foreign (mode r) r fd m).map Msg.bytes := by
  rcases bytes_of_sends h hx hi with hnil | ⟨m', hsays, hbytes⟩
  · exact Or.inl hnil
  · have hne : m' ≠ m := by
      rintro rfl
      exact hm ⟨o, i, d, hx, hi, hbytes⟩
    right
    rw [hbytes]
    refine List.mem_map_of_mem (List.mem_flatMap.mpr ⟨o, ?_, List.mem_filter.mpr
      ⟨?_, decide_eq_true hne⟩⟩)
    · rcases o with _ | _ | _ <;> decide
    · rcases hsays with rfl | ⟨rfl, hchosen⟩
      · refine List.mem_append_left _ (List.mem_flatMap.mpr ⟨_, before_text h hx hne hm, ?_⟩)
        simp [Instr.texts]
      · refine List.mem_append_right _ ?_
        rw [if_pos (mem_code h hx)]
        exact hchosen

theorem mem_vocabulary {md : Mode} {r : Role} {o : Option Signal} {fd : Fd} {i : Instr} {m : Msg}
    (hi : i ∈ code md r o) (h : Says fd (code md r o) i m) : m ∈ vocabulary md r fd := by
  refine List.mem_flatMap.mpr ⟨o, by rcases o with _ | _ | _ <;> decide, ?_⟩
  rcases h with rfl | ⟨rfl, hchosen⟩
  · exact List.mem_append_left _ (List.mem_flatMap.mpr ⟨_, hi, by simp [Instr.texts]⟩)
  · refine List.mem_append_right _ ?_
    rw [if_pos hi]
    exact hchosen

/-- Whatever a party sends is in its vocabulary. -/
theorem vocabulary_of_sent (h : Reach (machine mode st).step allowed (start mode st) σ) {r : Role}
    {o : Option Signal} {fd : Fd} {i : Instr} {d : Data} (hx : (⟨r, o, .did i d⟩ : Entry) ∈ σ.log)
    (hi : i.sendsOn fd = true) :
    d.bytes = [] ∨ d.bytes ∈ (vocabulary (mode r) r fd).map Msg.bytes := by
  rcases bytes_of_sends h hx hi with hnil | ⟨m, hsays, hbytes⟩
  · exact Or.inl hnil
  · right
    rw [hbytes]
    exact List.mem_map_of_mem (mem_vocabulary (mem_code h hx) hsays)

/-- A message that can be told from all that was sent is nowhere in the stream. -/
theorem Separable.not_contained {m : Msg} {ms : List Msg} (hsep : Separable m ms) {e : End}
    {log : List Entry}
    (hall : ∀ o i d, (⟨e.1, o, .did i d⟩ : Entry) ∈ log → i.sendsOn e.2 = true →
      d.bytes = [] ∨ d.bytes ∈ ms.map Msg.bytes) : ¬ m.bytes <:+: sentAt e log := by
  obtain ⟨⟨x, y⟩, hxy, hapart⟩ := hsep
  intro hstretch
  have hwords : ∀ w ∈ (ops (Instr.sendsOn e.2) e.1 log).map fun x => x.2.bytes,
      w = [] ∨ w ∈ ms.map Msg.bytes := by
    intro w hw
    obtain ⟨⟨i, d⟩, hmem, rfl⟩ := List.mem_map.mp hw
    obtain ⟨hsends, o, hentry⟩ := mem_ops.mp hmem
    exact hall o i d hentry hsends
  refine hapart.not_infix hwords ?_
  rw [← List.flatMap_def]
  exact (Text.mem_zip_tail_iff_infix.mp hxy).trans hstretch

/-! ## Matched messages -/

/-- **A match is never an accident**: what was read was sent as this message, by the party that the
    code has at the other end. -/
theorem sent_of_matched (h : Reach (machine mode st).step allowed (start mode st) σ) {r : Role}
    {o : Option Signal} {m : Msg} {t : List Instr} (hlive : (σ.proc r).alive = true)
    (htop : (σ.proc r).todoOf o = .assertStrcmp m :: t)
    (hmatch : cstr (σ.proc r).vars.buff = m.bytes) :
    ∃ fd, .read fd m ∈ code (mode r) r o ∧
      Sent (otherEnd (r, fd)).1 (otherEnd (r, fd)).2 m σ.log := by
  obtain ⟨fd, d, hx, hbytes⟩ := read_of_matched h hlive htop hmatch
  have hcode : .read fd m ∈ code (mode r) r o := mem_code h hx
  refine ⟨fd, hcode, ?_⟩
  by_contra hm
  have htaken : m.bytes <:+: takenAt (r, fd) σ.log := by
    rw [← hbytes]
    exact bytes_infix (p := Instr.readsOn fd) hx (by simp [Instr.readsOn])
  have hflow := Flow.of_reach h
  cases ho : σ.world.other (r, fd) with
  | none =>
    rw [(hflow.apart ho).1, List.infix_nil] at htaken
    exact m.bytes_ne_nil htaken
  | some e =>
    -- the message is a stretch of what the other side has sent
    have hstretch : m.bytes <:+: sentAt e σ.log := by
      rw [hflow.linked ho]
      exact htaken.trans (List.prefix_append _ _).isInfix
    rcases straight_or_crossed h ho with rfl | rfl
    · exact (separable hcode (mode (otherEnd (r, fd)).1)).not_contained
        (fun o' i d' hx' hi => foreign_of_sent h hx' hi hm) hstretch
    · exact (crossed_separable hcode (mode (crossedEnd (r, fd)).1)).not_contained
        (fun o' i d' hx' hi => vocabulary_of_sent h hx' hi) hstretch

/-- What `r` waits for is not in the vocabulary of a peer in mode `md`. -/
def Instr.unheardOf (md : Mode) (r : Role) : Instr → Bool
  | .read fd m => m ∉ vocabulary md (otherEnd (r, fd)).1 (otherEnd (r, fd)).2
  | _ => true

/-- The two families have no message in common. -/
theorem family_of_vocabulary {md md' : Mode} {r : Role} {o : Option Signal} {fd : Fd} {m : Msg}
    (h : .read fd m ∈ code md r o)
    (hm : m ∈ vocabulary md' (otherEnd (r, fd)).1 (otherEnd (r, fd)).2) :
    md'.isShm = md.isShm := by
  have hall : md'.isShm ≠ md.isShm → (code md r o).all (Instr.unheardOf md' r) = true := by
    cases md <;> cases md' <;> cases r <;> rcases o with _ | _ | _ <;> decide
  by_contra hne
  exact of_decide_eq_true (List.all_eq_true.mp (hall hne) _ h) hm

/-- So whoever has sent it runs the reader's family. -/
theorem family_of_sent (h : Reach (machine mode st).step allowed (start mode st) σ) {r : Role}
    {o : Option Signal} {fd : Fd} {m : Msg} (hread : .read fd m ∈ code (mode r) r o)
    (hsent : Sent (otherEnd (r, fd)).1 (otherEnd (r, fd)).2 m σ.log) :
    (mode (otherEnd (r, fd)).1).isShm = (mode r).isShm := by
  obtain ⟨o', i, d, hx, hi, hbytes⟩ := hsent
  rcases bytes_of_sends h hx hi with hnil | ⟨m', hsays, hm'⟩
  · exact absurd (hbytes.symm.trans hnil) m.bytes_ne_nil
  · obtain rfl := Msg.bytes_injective (hbytes.symm.trans hm')
    exact family_of_vocabulary hread (mem_vocabulary (mem_code h hx) hsays)

theorem cstr_of_assertStrcmp {r : Role} {c : Env} {m : Msg} {v v' : Vars} {l l' : Locals}
    {w w' : World} {d : Data}
    (h : (machine mode st).exec r c (.assertStrcmp m) v l w = .done v' l' w' d) :
    cstr v.buff = m.bytes := by
  by_contra hne
  have hstop : (machine mode st).exec r c (.assertStrcmp m) v l w = .stop := if_neg hne
  rw [hstop] at h
  cases h

/-- **Authenticity.**  Whatever the three processes were started with and whatever happens between
    them: a party that passes a comparison with `m` has this message from the party at the other
    end, which has written it before, in one piece, and runs the same family of mode. -/
theorem matched_message_was_sent
    (h : Reach (machine mode st).step allowed (start mode st) σ) {l₁ l₂ : List Entry} {r : Role}
    {o : Option Signal} {m : Msg} {d : Data}
    (hlog : σ.log = l₁ ++ ⟨r, o, .did (.assertStrcmp m) d⟩ :: l₂) :
    ∃ fd, .read fd m ∈ code (mode r) r o ∧
      Sent (otherEnd (r, fd)).1 (otherEnd (r, fd)).2 m l₁ ∧
      (mode (otherEnd (r, fd)).1).isShm = (mode r).isShm := by
  obtain ⟨σ₁, c, t, v, l, w, hr, -, rfl, hlive, htop, hexec⟩ := at_did h hlog
  obtain ⟨fd, hread, hsent⟩ := sent_of_matched hr hlive htop (cstr_of_assertStrcmp hexec)
  exact ⟨fd, hread, hsent, family_of_sent hr hread hsent⟩

end Runs

/-- Until the source has accepted `shm_migrate`. -/
def untilShmMigrate : List Choice :=
  turns 16 .src ++ turns 11 .dst ++ turns 12 .backup ++ [.signal .backup .usr1] ++
    turns 4 .backup ++ turns 5 .src

theorem matched_message_was_sent_shmMigrate :
    ∃ fd, .read fd .shmMigrate ∈ code .shm .src none ∧
      Sent (otherEnd (.src, fd)).1 (otherEnd (.src, fd)).2 .shmMigrate
        (played .shm untilShmMigrate).log.dropLast ∧ Mode.shm.isShm = Mode.shm.isShm :=
  matched_message_was_sent (reach_played .shm untilShmMigrate)
    (d := ⟨0, [], true⟩) (List.dropLast_append_getLast? _ (by decide +kernel)).symm

/-! ## The start of a migration -/

section Runs

variable {mode : Role → Mode} {st : Role → Settings} {allowed : Net → Choice → Prop} {σ : Net}

end Runs

/-- The shipped `config.txt` with one control port for source and destination. -/
def Settings.onePort : Settings := fun f =>
  match f with
  | .dstControlPort => Settings.shipped .srcControlPort
  | f => Settings.shipped f

/-- Source and backup without a destination, until `shm_migrate`. -/
def withoutDst : List Choice :=
  turns 16 .src ++ turns 12 .backup ++ [.signal .backup .usr1] ++ turns 4 .backup ++ turns 6 .src

/-- The condition on the addresses is needed: with one port both connections of the backup reach
    the source, which starts a migration although nobody has started a destination. -/
theorem migration_without_destination :
    (Settings.onePort.addr .srcIp .srcControlPort).answers
      (Settings.onePort.addr .dstIp .dstControlPort) = true ∧
    ∃ d, (withoutDst.foldl (machine (fun _ => .shm) fun _ => Settings.onePort).step
        (start (fun _ => .shm) fun _ => Settings.onePort)).log.getLast?
      = some ⟨.src, none, .did (.system .shmMigrate) d⟩ ∧
    ¬ Did .dst .listen (withoutDst.foldl (machine (fun _ => .shm) fun _ => Settings.onePort).step
        (start (fun _ => .shm) fun _ => Settings.onePort)).log :=
  ⟨by decide +kernel, ⟨0, [], true⟩, by decide +kernel, by decide +kernel⟩

end QemuStudy.Deployment
