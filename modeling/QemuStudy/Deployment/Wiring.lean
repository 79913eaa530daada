/-
  WHO IS CONNECTED TO WHOM, and what that means for the bytes.

  A connection goes where the address leads (`World.answering`), and a party that listens accepts
  only the first connection that reaches it.  So two descriptors of the backup may be connected to
  one party, or crosswise, and a connection may have nobody at its other side.

  1. A descriptor is assigned once, because the code of `main` runs once and assigns it in one place
     (`not_did_assigns`).  So a descriptor that is being connected is new to every party
     (`fresh_of_connect`), and the relation between the two sides of a connection is symmetric.
  2. `Flow`: the bytes sent at one side of a connection are the bytes taken at the other, in order,
     followed by those that are on their way; a descriptor without another side has nothing to read.
     This holds for any addresses whatsoever (`Flow.of_reach`).
  3. `Proper` addresses, where the backup's two addresses lead to one party each, connect every
     party as the code means it (`other_of_proper`), and the two directions of a connection are
     accounted for also before it exists (`flow_of_proper`).
-/
import QemuStudy.Deployment.Causality
import QemuStudy.Lib.Progress

namespace QemuStudy.Deployment

open QemuStudy.Controller (Role Signal Fd Msg End otherEnd readSome readSome_append_drop
  readSome_nil)
open QemuStudy.Threads
open QemuStudy.Runs

/-! ## The other side -/

theorem other_congr {w w' : World} (h : ∀ r, (w'.calls r).head? = (w.calls r).head?) :
    w'.other = w.other := by
  funext ⟨r, fd⟩
  cases r <;> cases fd <;> simp only [World.other, h]

/-- The first connection to a party joins two ends that had no other side. -/
theorem other_link {w : World} {r : Role} {fd : Fd} (hr : r ≠ .backup) (hnil : w.calls r = [])
    (hfresh : ∀ r', fd ∉ w.calls r') {w' : World}
    (hcalls : w'.calls = Function.update w.calls r (w.calls r ++ [fd])) :
    w'.other = Function.update (Function.update w.other (.backup, fd) (some (r, .connfd)))
      (r, .connfd) (some (.backup, fd)) := by
  have hself : (w'.calls r).head? = some fd := by
    rw [hcalls, Function.update_self, hnil]
    rfl
  have hothers : ∀ r', r' ≠ r → w'.calls r' = w.calls r' := fun r' hne => by
    rw [hcalls, Function.update_of_ne hne]
  have hhead : ∀ r', (w.calls r').head? ≠ some fd := fun r' h =>
    hfresh r' (List.mem_of_mem_head? h)
  have hold : (w.calls r).head? = none := by rw [hnil]; rfl
  funext ⟨r', fd'⟩
  cases r with
  | backup => exact absurd rfl hr
  | src =>
    have hdst := hothers .dst (by decide)
    cases r' with
    | backup =>
      rw [Function.update_of_ne (by simp)]
      by_cases heq : fd' = fd
      · subst heq
        rw [Function.update_self, World.other, if_pos hself]
      · rw [Function.update_of_ne (by simpa using heq)]
        simp [World.other, hself, hdst, hold, Ne.symm heq]
    | src => cases fd' <;> simp [World.other, hself]
    | dst => cases fd' <;> simp [World.other, hdst]
  | dst =>
    have hsrc := hothers .src (by decide)
    cases r' with
    | backup =>
      rw [Function.update_of_ne (by simp)]
      by_cases heq : fd' = fd
      · subst heq
        rw [Function.update_self, World.other, hsrc, if_neg (hhead .src), if_pos hself]
      · rw [Function.update_of_ne (by simpa using heq)]
        simp [World.other, hself, hsrc, hold, Ne.symm heq]
    | src => cases fd' <;> simp [World.other, hsrc]
    | dst => cases fd' <;> simp [World.other, hself]

/-- A connection has the backup at one side and a party that listens at the other. -/
theorem other_cases {w : World} {e e' : End} (h : w.other e = some e') :
    ∃ r fd, r ≠ .backup ∧ fd ∈ w.calls r ∧
      (e = (.backup, fd) ∧ e' = (r, .connfd) ∨ e = (r, .connfd) ∧ e' = (.backup, fd)) := by
  obtain ⟨r, fd⟩ := e
  cases r with
  | backup =>
    rw [World.other] at h
    split at h
    · rename_i hhead
      cases h
      exact ⟨.src, fd, by decide, List.mem_of_mem_head? hhead, Or.inl ⟨rfl, rfl⟩⟩
    · split at h
      · rename_i hhead
        cases h
        exact ⟨.dst, fd, by decide, List.mem_of_mem_head? hhead, Or.inl ⟨rfl, rfl⟩⟩
      · cases h
  | src | dst =>
    cases fd with
    | connfd =>
      obtain ⟨fd', hhead, rfl⟩ := Option.map_eq_some_iff.mp h
      exact ⟨_, fd', by decide, List.mem_of_mem_head? hhead, Or.inr ⟨rfl, rfl⟩⟩
    | _ => cases h

theorem other_eq_none {w : World} {fd : Fd} (hfresh : ∀ r, fd ∉ w.calls r) :
    w.other (.backup, fd) = none := by
  have hhead : ∀ r, (w.calls r).head? ≠ some fd := fun r h => hfresh r (List.mem_of_mem_head? h)
  rw [World.other, if_neg (hhead .src), if_neg (hhead .dst)]

theorem other_connfd {w : World} {r : Role} (hr : r ≠ .backup) :
    w.other (r, .connfd) = (w.calls r).head?.map (.backup, ·) := by
  cases r with
  | backup => exact absurd rfl hr
  | src | dst => rfl

theorem other_of_calls_nil {w : World} {r : Role} (hr : r ≠ .backup) (hnil : w.calls r = []) :
    w.other (r, .connfd) = none := by
  rw [other_connfd hr, hnil]
  rfl

/-! ## What a step does to the bytes -/

section Exec

variable {st : Settings} {r : Role} {i : Instr} {v v' : Vars} {l l' : Locals} {w w' : World}
  {d : Data}

/-- The bytes that an instruction of `r` sends at `e`. -/
def bytesTo (r : Role) (i : Instr) (d : Data) (e : End) : List UInt8 :=
  if r = e.1 ∧ i.sendsOn e.2 = true then d.bytes else []

/-- The bytes that an instruction of `r` takes at `e`. -/
def bytesFrom (r : Role) (i : Instr) (d : Data) (e : End) : List UInt8 :=
  if r = e.1 ∧ i.readsOn e.2 = true then d.bytes else []

/-- **Bytes are neither lost nor invented**: what was on its way to `e` and what its other side
    sends is what `e` takes and what is on its way then. -/
theorem Effect.inbox (h : Effect st r v l w i v' l' w' d)
    (hsymm : ∀ {e e'}, w.other e = some e' → w.other e' = some e) (e : End) :
    bytesFrom r i d e ++ w'.inbox e
      = w.inbox e ++ ((w.other e).map (bytesTo r i d)).getD [] := by
  have hsilent : (∀ fd, i.sendsOn fd = false) →
      ((w.other e).map (bytesTo r i d)).getD [] = [] := by
    intro hnone
    cases w.other e with
    | none => rfl
    | some e' => simp [bytesTo, hnone]
  cases h with
  | read fd m k hne =>
    obtain ⟨r', fd'⟩ := e
    rw [hsilent fun _ => rfl, List.append_nil, bytesFrom]
    show _ ++ Function.update w.inbox (r, fd) _ (r', fd') = _
    by_cases he : r = r' ∧ fd = fd'
    · obtain ⟨rfl, rfl⟩ := he
      rw [if_pos ⟨rfl, decide_eq_true rfl⟩, Function.update_self]
      exact readSome_append_drop _ _ _
    · have hne : (r', fd') ≠ (r, fd) := fun heq => he ⟨(congrArg Prod.fst heq).symm,
        (congrArg Prod.snd heq).symm⟩
      rw [if_neg (by simpa [Instr.readsOn] using he), Function.update_of_ne hne, List.nil_append]
  | write fd arg hfd =>
    have hfrom : ∀ d, bytesFrom r (.write fd arg) d e = [] := fun d => by
      simp [bytesFrom, Instr.readsOn]
    rw [hfrom, List.nil_append, World.send]
    cases hother : w.other (r, fd) with
    | none =>
      -- nobody has this end for its other side
      cases hback : w.other e with
      | none => exact (List.append_nil _).symm
      | some e' =>
        have hne : ¬ (r = e'.1 ∧ fd = e'.2) := by
          rintro ⟨rfl, rfl⟩
          rw [Prod.mk.eta, hsymm hback] at hother
          cases hother
        simp [bytesTo, Instr.sendsOn, hne]
    | some e' =>
      dsimp only
      by_cases he : e = e'
      · subst he
        rw [Function.update_self, hsymm hother]
        simp [bytesTo, Instr.sendsOn]
      · rw [Function.update_of_ne he]
        cases hback : w.other e with
        | none => exact (List.append_nil _).symm
        | some e'' =>
          have hne : ¬ (r = e''.1 ∧ fd = e''.2) := by
            rintro ⟨rfl, rfl⟩
            rw [Prod.mk.eta, hsymm hback] at hother
            exact he (Option.some.inj hother)
          simp [bytesTo, Instr.sendsOn, hne]
  | plain hi =>
    have hquiet : ∀ fd, i.sendsOn fd = false := fun fd => by
      cases i with
      | write => cases hi
      | _ => rfl
    rw [hsilent hquiet]
    simp [bytesFrom]
  | writeNowhere fd arg _ =>
    cases w.other e with
    | none => simp [bytesFrom, Instr.readsOn]
    | some e' => simp [bytesFrom, bytesTo, Instr.readsOn, World.note]
  | _ =>
    rw [hsilent fun _ => rfl]
    simp [bytesFrom, World.print, Instr.readsOn]

end Exec

/-- The bytes sent at a side of a connection arrive at the other, in order; an end without another
    side has nothing to read. -/
structure Flow (w : World) (log : List Entry) : Prop where
  symm : ∀ {e e'}, w.other e = some e' → w.other e' = some e
  linked : ∀ {e e'}, w.other e = some e' → sentAt e' log = takenAt e log ++ w.inbox e
  apart : ∀ {e}, w.other e = none → takenAt e log = [] ∧ w.inbox e = []

theorem sentAt_did (e : End) (log : List Entry) (r : Role) (o : Option Signal) (i : Instr)
    (d : Data) : sentAt e (log ++ [⟨r, o, .did i d⟩]) = sentAt e log ++ bytesTo r i d e := by
  rw [sentAt, bytesOf_append, bytesOf_did]
  rfl

theorem takenAt_did (e : End) (log : List Entry) (r : Role) (o : Option Signal) (i : Instr)
    (d : Data) : takenAt e (log ++ [⟨r, o, .did i d⟩]) = takenAt e log ++ bytesFrom r i d e := by
  rw [takenAt, bytesOf_append, bytesOf_did]
  rfl

/-- A step that records something other than an instruction. -/
theorem Flow.of_entry {w : World} {log : List Entry} (h : Flow w log) {x : Entry}
    (hx : x.event.instr? = none) : Flow w (log ++ [x]) := by
  have hbytes : ∀ p r, bytesOf p r (log ++ [x]) = bytesOf p r log := fun p r => by
    rw [bytesOf_append, bytesOf_of_not_did p r x.role x.thread hx, List.append_nil]
  refine ⟨h.symm, fun ho => ?_, fun ho => ?_⟩
  · rw [sentAt, takenAt, hbytes, hbytes]
    exact h.linked ho
  · rw [takenAt, hbytes]
    exact h.apart ho

section Runs

variable {mode : Role → Mode} {st : Role → Settings} {allowed : Net → Choice → Prop} {σ : Net}

/-- A step that leaves the connections as they are. -/
theorem Flow.of_effect {w w' : World} {log : List Entry} (h : Flow w log) {s : Settings} {r : Role}
    {o : Option Signal} {i : Instr} {v v' : Vars} {l l' : Locals} {d : Data}
    (he : Effect s r v l w i v' l' w' d) (hother : w'.other = w.other) :
    Flow w' (log ++ [⟨r, o, .did i d⟩]) := by
  refine ⟨fun ho => ?_, fun {e e'} ho => ?_, fun {e} ho => ?_⟩
  · rw [hother] at ho ⊢
    exact h.symm ho
  · rw [hother] at ho
    have hbytes := he.inbox h.symm e
    rw [ho, Option.map_some, Option.getD_some] at hbytes
    rw [sentAt_did, takenAt_did, h.linked ho, List.append_assoc, List.append_assoc, hbytes]
  · rw [hother] at ho
    have hbytes := he.inbox h.symm e
    rw [ho, (h.apart ho).2] at hbytes
    obtain ⟨hfrom, hinbox⟩ := List.append_eq_nil_iff.mp hbytes
    rw [takenAt_did, (h.apart ho).1, hfrom]
    exact ⟨rfl, hinbox⟩

/-- A step that joins two ends, of which neither has sent anything. -/
theorem Flow.of_link {w w' : World} {log : List Entry} (h : Flow w log) {a b : End} (hab : a ≠ b)
    (ha : w.other a = none) (hb : w.other b = none)
    (hother : w'.other = Function.update (Function.update w.other a (some b)) b (some a))
    (hinbox : w'.inbox = w.inbox) (hsa : sentAt a log = []) (hsb : sentAt b log = []) {r : Role}
    {o : Option Signal} {i : Instr} {d : Data} (hd : d.bytes = []) :
    Flow w' (log ++ [⟨r, o, .did i d⟩]) := by
  have hto : ∀ e, bytesTo r i d e = [] := fun e => by rw [bytesTo, hd, ite_self]
  have hfrom : ∀ e, bytesFrom r i d e = [] := fun e => by rw [bytesFrom, hd, ite_self]
  have hoa : w'.other a = some b := by
    rw [hother, Function.update_of_ne hab, Function.update_self]
  have hob : w'.other b = some a := by rw [hother, Function.update_self]
  have hold : ∀ e, e ≠ a → e ≠ b → w'.other e = w.other e := fun e hea heb => by
    rw [hother, Function.update_of_ne heb, Function.update_of_ne hea]
  -- the new pair is nobody else's other side
  have hnew : ∀ {e e'}, w.other e = some e' → e' ≠ a ∧ e' ≠ b := by
    intro e e' ho
    constructor
    · rintro rfl
      rw [h.symm ho] at ha
      cases ha
    · rintro rfl
      rw [h.symm ho] at hb
      cases hb
  refine ⟨fun {e e'} ho => ?_, fun {e e'} ho => ?_, fun {e} ho => ?_⟩
  · by_cases hea : e = a
    · subst hea
      obtain rfl := Option.some.inj (hoa.symm.trans ho)
      exact hob
    · by_cases heb : e = b
      · subst heb
        obtain rfl := Option.some.inj (hob.symm.trans ho)
        exact hoa
      · rw [hold e hea heb] at ho
        rw [hold e' (hnew ho).1 (hnew ho).2]
        exact h.symm ho
  · rw [sentAt_did, takenAt_did, hto, hfrom, List.append_nil, List.append_nil, hinbox]
    by_cases hea : e = a
    · subst hea
      obtain rfl := Option.some.inj (hoa.symm.trans ho)
      rw [hsb, (h.apart ha).1, (h.apart ha).2]
      rfl
    · by_cases heb : e = b
      · subst heb
        obtain rfl := Option.some.inj (hob.symm.trans ho)
        rw [hsa, (h.apart hb).1, (h.apart hb).2]
        rfl
      · rw [hold e hea heb] at ho
        exact h.linked ho
  · have hea : e ≠ a := by
      rintro rfl
      rw [hoa] at ho
      cases ho
    have heb : e ≠ b := by
      rintro rfl
      rw [hob] at ho
      cases ho
    rw [hold e hea heb] at ho
    rw [takenAt_did, hfrom, List.append_nil, hinbox]
    exact h.apart ho

/-! ## One assignment for each descriptor -/

/-- A descriptor is assigned by `main`, in one place. -/
theorem assigns_first {md : Mode} {r : Role} {o : Option Signal} {fd : Fd} {i : Instr}
    (hi : i ∈ code md r o) (ha : i.assigns fd = true) :
    o = none ∧ (code md r o).count i ≤ 1 ∧
      ∀ j ∈ (code md r o).takeWhile (· ≠ i), j.assigns fd = false := by
  have hall : ∀ i ∈ code md r o, i.assigns fd = true → o = none ∧ (code md r o).count i ≤ 1 ∧
      ∀ j ∈ (code md r o).takeWhile (· ≠ i), j.assigns fd = false := by
    cases md <;> cases r <;> rcases o with _ | _ | _ <;> cases fd <;> decide
  exact hall i hi ha

/-- **Not twice**: who is about to assign a descriptor has not assigned it before. -/
theorem not_did_assigns (h : Reach (machine mode st).step allowed (start mode st) σ) {r : Role}
    {o : Option Signal} {fd : Fd} {i : Instr} {t : List Instr}
    (hlive : (σ.proc r).alive = true) (htop : (σ.proc r).todoOf o = i :: t)
    (hi : i.assigns fd = true) {j : Instr} (hj : j.assigns fd = true) : ¬ Did r j σ.log := by
  obtain ⟨rfl, hcount, hfirst⟩ := assigns_first (next_mem_code h hlive htop) hi
  have hdid := Reach.didOf_at h hlive (le_refl 1) htop hcount
  rintro ⟨o', d, hx⟩
  obtain ⟨rfl, -, -⟩ := assigns_first (mem_code h hx) hj
  have hmem := mem_didOf.mpr ⟨d, hx⟩
  rw [hdid] at hmem
  rw [hfirst j hmem] at hj
  cases hj

/-- The descriptor that an instruction connects. -/
def Instr.connects : Instr → Option Fd
  | .connect fd _ _ => some fd
  | _ => none

/-- Only the backup connects, and it has an address for each of its two descriptors. -/
theorem connect_code {md : Mode} {r : Role} {o : Option Signal} {fd : Fd} {ip port : Field}
    (h : .connect fd ip port ∈ code md r o) :
    r = .backup ∧ fd ≠ .connfd ∧ .connect fd ip port = dial fd := by
  have hall : ∀ i ∈ code md r o, ∀ fd ∈ i.connects, r = .backup ∧ fd ≠ .connfd ∧ i = dial fd := by
    cases md <;> cases r <;> rcases o with _ | _ | _ <;> decide
  exact hall _ h fd rfl

theorem dial_injective {fd fd' : Fd} (h : dial fd = dial fd') : fd = fd' := by
  cases fd <;> cases fd' <;> first | rfl | cases h

/-- The address that a party's socket is bound to. -/
def Settings.listensAt (st : Settings) : Role → Addr
  | .dst => st.addr .dstIp .dstControlPort
  | _ => st.addr .srcIp .srcControlPort

/-- The address that the backup connects a descriptor to. -/
def Settings.dials (st : Settings) : Fd → Addr
  | .dstfd => st.addr .dstIp .dstControlPort
  | _ => st.addr .srcIp .srcControlPort

theorem dials_of_dial (st : Settings) {fd : Fd} {ip port : Field} (hfd : fd ≠ .connfd)
    (h : .connect fd ip port = dial fd) : st.dials fd = st.addr ip port := by
  cases fd with
  | connfd => exact absurd rfl hfd
  | srcfd | dstfd =>
    cases h
    rfl

/-- The fields of the address that an instruction binds a socket to. -/
def Instr.binds : Instr → Option (Field × Field)
  | .bind ip port => some (ip, port)
  | _ => none

theorem bind_code {md : Mode} {r : Role} {o : Option Signal} {ip port : Field}
    (h : .bind ip port ∈ code md r o) (st : Settings) : st.addr ip port = st.listensAt r := by
  have hall : ∀ i ∈ code md r o, ∀ x ∈ i.binds,
      r = .src ∧ x = (.srcIp, .srcControlPort) ∨ r = .dst ∧ x = (.dstIp, .dstControlPort) := by
    cases md <;> cases r <;> rcases o with _ | _ | _ <;> decide
  rcases hall _ h (ip, port) rfl with ⟨rfl, heq⟩ | ⟨rfl, heq⟩
  · cases heq
    rfl
  · cases heq
    rfl

/-- A party binds its socket before it listens. -/
theorem bind_before_listen {md : Mode} {r : Role} {o : Option Signal}
    (h : .listen ∈ code md r o) :
    ∃ ip port, .bind ip port ∈ (code md r o).takeWhile (· ≠ .listen) := by
  have hall : .listen ∈ code md r o → ∃ j ∈ (code md r o).takeWhile (· ≠ .listen),
      j.binds.isSome = true := by
    cases md <;> cases r <;> rcases o with _ | _ | _ <;> decide
  obtain ⟨j, hj, hbinds⟩ := hall h
  cases j with
  | bind ip port => exact ⟨ip, port, hj⟩
  | _ => cases hbinds

/-- A socket is bound to the address that the party was given. -/
theorem bound_of_reach (h : Reach (machine mode st).step allowed (start mode st) σ) {r : Role}
    {a : Addr} (ha : σ.world.bound r = some a) : a = (st r).listensAt r := by
  obtain ⟨ip, port, ⟨o, d, hx⟩, rfl⟩ := (Grounded.of_reach h).bound ha
  exact bind_code (mem_code h hx) (st r)

/-- A socket that listens is bound. -/
theorem bound_of_listening (h : Reach (machine mode st).step allowed (start mode st) σ) {r : Role}
    (hl : σ.world.listening r = true) : σ.world.bound r = some ((st r).listensAt r) := by
  obtain ⟨o, d, hx⟩ := (Grounded.of_reach h).listening.mp hl
  obtain ⟨ip, port, hbind⟩ := bind_before_listen (mem_code h hx)
  obtain ⟨l₁, l₂, hlog⟩ := List.append_of_mem hx
  obtain ⟨d', hd'⟩ := mem_before_did h hlog hbind
  have hdid : Did r (.bind ip port) σ.log := ⟨o, d', hlog ▸ List.mem_append_left _ hd'⟩
  obtain ⟨a, ha⟩ := (Grounded.of_reach h).binds hdid
  rw [ha, bound_of_reach h ha]

/-- **A connection that has reached a party's socket**: the backup made it, to an address that the
    socket answers. -/
theorem called_of_reach (h : Reach (machine mode st).step allowed (start mode st) σ) {r : Role}
    {fd : Fd} (hfd : fd ∈ σ.world.calls r) :
    r ≠ .backup ∧ fd ≠ .connfd ∧ Did .backup (dial fd) σ.log ∧ Did r .listen σ.log ∧
      ((st r).listensAt r).answers ((st .backup).dials fd) = true := by
  obtain ⟨hr, hlisten, r', ip, port, ip', port', hconnect, hbind, hanswers⟩ :=
    (Grounded.of_reach h).called hfd
  obtain ⟨o, d, hx⟩ := hconnect
  obtain ⟨o', d', hx'⟩ := hbind
  obtain ⟨rfl, hne, hdial⟩ := connect_code (mem_code h hx)
  rw [bind_code (mem_code h hx')] at hanswers
  rw [← dials_of_dial (st .backup) hne hdial] at hanswers
  exact ⟨hr, hne, ⟨o, d, hdial ▸ hx⟩, hlisten, hanswers⟩

/-- Whoever connects a descriptor has not connected it before. -/
theorem fresh_of_connect (h : Reach (machine mode st).step allowed (start mode st) σ) {r : Role}
    {o : Option Signal} {fd : Fd} {ip port : Field} {t : List Instr}
    (hlive : (σ.proc r).alive = true)
    (htop : (σ.proc r).todoOf o = .connect fd ip port :: t) (r' : Role) :
    fd ∉ σ.world.calls r' := by
  intro hfd
  obtain ⟨rfl, hne, hdial⟩ := connect_code (next_mem_code h hlive htop)
  obtain ⟨-, -, hdid, -⟩ := called_of_reach h hfd
  rw [← hdial] at hdid
  have hassigns : (Instr.connect fd ip port).assigns fd = true := decide_eq_true rfl
  exact not_did_assigns h hlive htop hassigns hassigns hdid

/-- Whoever has sent anything has assigned the descriptor. -/
theorem assigned_of_sent (h : Reach (machine mode st).step allowed (start mode st) σ) {e : End}
    (hne : sentAt e σ.log ≠ []) : ∃ i, i.assigns e.2 = true ∧ Did e.1 i σ.log := by
  obtain ⟨o, i, d, hx, hi, hbytes⟩ := exists_of_bytesOf_ne_nil hne
  obtain ⟨l₁, l₂, hlog⟩ := List.append_of_mem hx
  obtain ⟨σ₁, c, t, v, l, w, hr, -, hl, hlive, -, hexec⟩ := at_did h hlog
  cases i with
  | write fd arg =>
    obtain rfl : fd = e.2 := of_decide_eq_true hi
    cases machine_effect hexec with
    | plain hp => cases hp
    | write _ _ hfd =>
      obtain ⟨j, hj, hdid⟩ := (SetUp.of_reach hr e.1 hlive).fds e.2 hfd
      refine ⟨j, hj, hdid.mono ?_⟩
      rw [hl, hlog]
      exact List.subset_append_left _ _
    | writeNowhere _ _ _ => exact absurd rfl hbytes
  | _ => cases hi

/-- A party sends nothing as long as nobody has connected to it. -/
theorem sent_nil_of_calls_nil (h : Reach (machine mode st).step allowed (start mode st) σ)
    {r : Role} (hnil : σ.world.calls r = []) : sentAt (r, .connfd) σ.log = [] := by
  by_contra hsent
  obtain ⟨i, hi, hdid⟩ := assigned_of_sent h hsent
  cases i with
  | connect fd ip port =>
    obtain ⟨o, d, hx⟩ := hdid
    exact (connect_code (mem_code h hx)).2.1 (of_decide_eq_true hi)
  | accept => exact (Grounded.of_reach h).accepted hdid hnil
  | _ => cases hi

/-- **The bytes of every connection are accounted for**, wherever the addresses lead. -/
theorem Flow.of_reach (h : Reach (machine mode st).step allowed (start mode st) σ) :
    Flow σ.world σ.log := by
  refine Reach.recorded Flow ⟨fun {e e'} ho => ?_, fun {e e'} ho => ?_, fun _ => ⟨rfl, rfl⟩⟩
    (fun hf => ⟨hf.symm, hf.linked, hf.apart⟩) (fun he hf => hf.of_entry he)
    (fun {σ r c o i t v l w d} hr hf hlive htop hexec => ?_) h
  · obtain ⟨r, fd, -, hfd, -⟩ := other_cases ho
    cases hfd
  · obtain ⟨r, fd, -, hfd, -⟩ := other_cases ho
    cases hfd
  · have he := machine_effect hexec
    rcases he.calls with hsame | ⟨fd, ip, port, r', rfl, hrole, -, hcalls, hinbox, hbytes⟩
    · exact hf.of_effect he (other_congr fun r => by rw [hsame])
    · have hfresh := fresh_of_connect hr hlive htop
      by_cases hnil : σ.world.calls r' = []
      · have hab : (Role.backup, fd) ≠ (r', .connfd) := fun heq => hrole (Prod.mk.inj heq).1.symm
        exact hf.of_link hab (other_eq_none hfresh) (other_of_calls_nil hrole hnil)
          (other_link hrole hnil hfresh hcalls) hinbox
          (by
            by_contra hsent
            obtain ⟨j, hj, hdid⟩ := assigned_of_sent hr hsent
            obtain ⟨rfl, -, -⟩ := connect_code (next_mem_code hr hlive htop)
            exact not_did_assigns hr hlive htop (decide_eq_true rfl) hj hdid)
          (sent_nil_of_calls_nil hr hnil) hbytes
      · refine hf.of_effect he (other_congr fun r'' => ?_)
        rw [hcalls]
        by_cases hr'' : r'' = r'
        · subst hr''
          rw [Function.update_self, List.head?_append_of_ne_nil _ hnil]
        · rw [Function.update_of_ne hr'']

/-- The other side of an end if the backup's two connections are interchanged. -/
def crossedEnd : End → End
  | (.backup, .srcfd) => (.dst, .connfd)
  | (.backup, .dstfd) => (.src, .connfd)
  | (.src, .connfd) => (.backup, .dstfd)
  | (.dst, .connfd) => (.backup, .srcfd)
  | e => e

/-- There are two ways to be connected. -/
theorem straight_or_crossed (h : Reach (machine mode st).step allowed (start mode st) σ)
    {e e' : End} (ho : σ.world.other e = some e') : e' = otherEnd e ∨ e' = crossedEnd e := by
  obtain ⟨r, fd, hr, hfd, hends⟩ := other_cases ho
  have hne := (called_of_reach h hfd).2.1
  rcases hends with ⟨rfl, rfl⟩ | ⟨rfl, rfl⟩
  all_goals
    cases r with
    | backup => exact absurd rfl hr
    | src | dst =>
      cases fd with
      | connfd => exact absurd rfl hne
      | srcfd | dstfd => first | exact Or.inl rfl | exact Or.inr rfl

/-! ## Proper addresses -/

/-- Each of the backup's two addresses leads to the party it means, and only there. -/
structure Proper (st : Role → Settings) : Prop where
  src : ((st .src).listensAt .src).answers ((st .backup).dials .srcfd) = true
  dst : ((st .dst).listensAt .dst).answers ((st .backup).dials .dstfd) = true
  src_not_dst : ((st .src).listensAt .src).answers ((st .backup).dials .dstfd) = false
  dst_not_src : ((st .dst).listensAt .dst).answers ((st .backup).dials .srcfd) = false

/-- The addresses of the repository are proper. -/
theorem proper_shipped : Proper fun _ => Settings.shipped :=
  ⟨by decide +kernel, by decide +kernel, by decide +kernel, by decide +kernel⟩

theorem otherEnd_otherEnd (e : End) : otherEnd (otherEnd e) = e := by
  obtain ⟨r, fd⟩ := e
  cases r <;> cases fd <;> rfl

section Proper

variable (hst : Proper st) (h : Reach (machine mode st).step allowed (start mode st) σ)

include hst h

/-- Every connection has reached the party it was made for. -/
theorem otherEnd_of_called {r : Role} {fd : Fd} (hfd : fd ∈ σ.world.calls r) :
    otherEnd (.backup, fd) = (r, .connfd) := by
  obtain ⟨hr, hne, -, -, hanswers⟩ := called_of_reach h hfd
  cases r with
  | backup => exact absurd rfl hr
  | src =>
    cases fd with
    | connfd => exact absurd rfl hne
    | srcfd => rfl
    | dstfd =>
      rw [hst.src_not_dst] at hanswers
      cases hanswers
  | dst =>
    cases fd with
    | connfd => exact absurd rfl hne
    | srcfd =>
      rw [hst.dst_not_src] at hanswers
      cases hanswers
    | dstfd => rfl

/-- **Connected as meant.** -/
theorem other_of_proper {e e' : End} (ho : σ.world.other e = some e') : e' = otherEnd e := by
  obtain ⟨r, fd, -, hfd, ⟨rfl, rfl⟩ | ⟨rfl, rfl⟩⟩ := other_cases ho
  · exact (otherEnd_of_called hst h hfd).symm
  · rw [← otherEnd_of_called hst h hfd, otherEnd_otherEnd]

/-- A connection exists if either side is assigned. -/
theorem other_of_assigned {e : End} {i : Instr} (hi : i.assigns e.2 = true)
    (hdid : Did e.1 i σ.log) : σ.world.other e = some (otherEnd e) := by
  have hlink : ∀ {r fd}, fd ∈ σ.world.calls r →
      σ.world.other (r, .connfd) = some (.backup, fd) := by
    intro r fd hfd
    obtain ⟨fd', hhead⟩ := Option.isSome_iff_exists.mp
      (List.isSome_head?.mpr (List.ne_nil_of_mem hfd))
    have heq := (otherEnd_of_called hst h hfd).trans
      (otherEnd_of_called hst h (List.mem_of_mem_head? hhead)).symm
    have hfd' : (Role.backup, fd) = (.backup, fd') := by
      rw [← otherEnd_otherEnd (.backup, fd), heq, otherEnd_otherEnd]
    rw [other_connfd (called_of_reach h hfd).1, hhead, Option.map_some, hfd']
  have hflow := Flow.of_reach h
  obtain ⟨r, fd⟩ := e
  cases i with
  | connect fd' ip port =>
    obtain rfl : fd' = fd := of_decide_eq_true hi
    obtain ⟨r', hr'⟩ := (Grounded.of_reach h).connected hdid
    obtain ⟨o, d, hx⟩ := hdid
    obtain rfl := (connect_code (mem_code h hx)).1
    rw [hflow.symm (hlink hr'), otherEnd_of_called hst h hr']
  | accept =>
    obtain rfl : fd = .connfd := of_decide_eq_true hi
    obtain ⟨fd, hfd⟩ := List.exists_mem_of_ne_nil _ ((Grounded.of_reach h).accepted hdid)
    rw [hlink hfd, ← otherEnd_of_called hst h hfd, otherEnd_otherEnd]
  | _ => cases hi

/-- **The streams between the parties**: what was sent at the other end is what was taken and what
    is on its way. -/
theorem flow_of_proper (e : End) :
    sentAt (otherEnd e) σ.log = takenAt e σ.log ++ σ.world.inbox e := by
  have hflow := Flow.of_reach h
  cases ho : σ.world.other e with
  | some e' =>
    obtain rfl := other_of_proper hst h ho
    exact hflow.linked ho
  | none =>
    rw [(hflow.apart ho).1, (hflow.apart ho).2]
    by_contra hsent
    obtain ⟨i, hi, hdid⟩ := assigned_of_sent h hsent
    have hback := hflow.symm (other_of_assigned hst h hi hdid)
    rw [otherEnd_otherEnd, ho] at hback
    cases hback

/-- A party has been connected to once the backup has connected the descriptor for it. -/
theorem calls_of_dial {fd : Fd} (hdid : Did .backup (dial fd) σ.log) :
    σ.world.calls (otherEnd (.backup, fd)).1 ≠ [] := by
  have hconnected : ∃ r', fd ∈ σ.world.calls r' := by
    cases fd <;> exact (Grounded.of_reach h).connected hdid
  obtain ⟨r, hr⟩ := hconnected
  rw [otherEnd_of_called hst h hr]
  exact List.ne_nil_of_mem hr

/-- A connection reaches the party it is made for, as soon as this one listens. -/
theorem answering_of_proper {fd : Fd} (hfd : fd ≠ .connfd)
    (hl : σ.world.listening (otherEnd (.backup, fd)).1 = true) (k : Nat) :
    σ.world.answering k ((st .backup).dials fd) = some (otherEnd (.backup, fd)).1 := by
  have hyes : ∀ {r fd}, σ.world.listening r = true →
      ((st r).listensAt r).answers ((st .backup).dials fd) = true →
      σ.world.listensAt ((st .backup).dials fd) r = true := fun hl hanswers =>
    listensAt_iff.mpr ⟨hl, _, bound_of_listening h hl, hanswers⟩
  have hno : ∀ {r fd}, ((st r).listensAt r).answers ((st .backup).dials fd) = false →
      σ.world.listensAt ((st .backup).dials fd) r = false := by
    intro r fd hanswers
    rw [Bool.eq_false_iff]
    intro hlistens
    obtain ⟨-, a, ha, ha'⟩ := listensAt_iff.mp hlistens
    rw [bound_of_reach h ha, hanswers] at ha'
    cases ha'
  cases fd with
  | connfd => exact absurd rfl hfd
  | srcfd =>
    have hsrc : σ.world.listensAt ((st .backup).dials .srcfd) .src = true := hyes hl hst.src
    have hfound : [Role.src, .dst].filter (σ.world.listensAt ((st .backup).dials .srcfd))
        = [.src] := by
      simp [hsrc, hno hst.dst_not_src]
    simp only [World.answering, hfound, List.length_singleton, Nat.mod_one]
    rfl
  | dstfd =>
    have hdst : σ.world.listensAt ((st .backup).dials .dstfd) .dst = true := hyes hl hst.dst
    have hfound : [Role.src, .dst].filter (σ.world.listensAt ((st .backup).dials .dstfd))
        = [.dst] := by
      simp [hdst, hno hst.src_not_dst]
    simp only [World.answering, hfound, List.length_singleton, Nat.mod_one]
    rfl

end Proper

end Runs

end QemuStudy.Deployment
