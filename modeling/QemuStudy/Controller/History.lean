/-
  How the history of the three parties is read, and what a single statement does to it.

  * `hist` — what one thread has recorded, as far as its code determines it; `sublist_of_hist` and
             `split_of_hist` go back from it to the common history;
  * `wroteAt`, `matchedAt` — the messages written and accepted at an end;
  * `Shaped` — a thread's remaining code is a suffix of its program, possibly behind what is left of
             a call, and only one thread per party uses the buffer;
  * `Held`   — which bytes a `read` has put into the buffer that are not accepted yet
             (`exec_held`).

  The invariants that are made of these are in `Controller.Invariants`.
-/
import QemuStudy.Controller.Net

namespace QemuStudy.Controller

open QemuStudy.Runs

/-! ## Reading a history -/

/-- What thread `o` of party `r` has recorded, as far as its code determines it. -/
def hist (r : Role) (o : Option Signal) (log : List Entry) : List Action :=
  (log.filter fun x => decide (x.role = r ∧ x.origin = o) && traced x.action).map Entry.action

/-- The messages that the actions of `r` concern, in order. -/
def seenAt (π : Action → List Msg) (r : Role) (log : List Entry) : List Msg :=
  log.flatMap fun x => if x.role = r then π x.action else []

/-- The messages written at an end. -/
def wroteAt (e : End) (log : List Entry) : List Msg := seenAt (Action.wroteOn e.2) e.1 log

/-- The messages accepted at an end. -/
def matchedAt (e : End) (log : List Entry) : List Msg := seenAt (Action.matchedOn e.2) e.1 log

/-- How often a thread was started: main once, a handler once per delivery. -/
def starts (r : Role) : Option Signal → List Entry → Nat
  | none, _ => 1
  | some s, log => log.count ⟨r, some s, .delivered⟩

theorem hist_append (r : Role) (o : Option Signal) (l l' : List Entry) :
    hist r o (l ++ l') = hist r o l ++ hist r o l' := by simp [hist]

theorem seenAt_append (π : Action → List Msg) (r : Role) (l l' : List Entry) :
    seenAt π r (l ++ l') = seenAt π r l ++ seenAt π r l' := by simp [seenAt]

theorem hist_single (r : Role) (o : Option Signal) (a : Action) :
    hist r o [⟨r, o, a⟩] = [a].filter traced := by
  cases h : traced a <;> simp [hist, h]

theorem hist_single_of_ne {r r' : Role} {o o' : Option Signal} (h : ¬ (r' = r ∧ o' = o))
    (a : Action) : hist r o [⟨r', o', a⟩] = [] := by
  simp [hist, h]

theorem hist_single_untraced (r r' : Role) (o o' : Option Signal) {a : Action}
    (h : traced a = false) : hist r o [⟨r', o', a⟩] = [] := by
  simp [hist, h]

/-- A recorded action is a recorded entry, in the same order. -/
theorem sublist_of_hist {r : Role} {o : Option Signal} {log : List Entry} {l : List Action}
    (h : l.Sublist (hist r o log)) :
    (l.map fun a => (⟨r, o, a⟩ : Entry)).Sublist log := by
  have hmap := h.map fun a => (⟨r, o, a⟩ : Entry)
  apply hmap.trans
  rw [hist, List.map_map]
  have hid : (log.filter fun x => decide (x.role = r ∧ x.origin = o) && traced x.action).map
      ((fun a => (⟨r, o, a⟩ : Entry)) ∘ Entry.action)
      = log.filter fun x => decide (x.role = r ∧ x.origin = o) && traced x.action := by
    rw [List.map_congr_left (g := id), List.map_id]
    intro x hx
    obtain ⟨-, hx⟩ := List.mem_filter.mp hx
    simp only [Bool.and_eq_true, decide_eq_true_eq] at hx
    obtain ⟨⟨rfl, rfl⟩, -⟩ := hx
    rfl
  rw [hid]
  exact List.filter_sublist

/-- A traced action of the log is in the history of its thread. -/
theorem mem_hist {x : Entry} {log : List Entry} (hx : x ∈ log) (ht : traced x.action = true) :
    x.action ∈ hist x.role x.origin log :=
  List.mem_map_of_mem (List.mem_filter.mpr ⟨hx, by simp [ht]⟩)

/-- The entry at which a thread's record reaches a given length. -/
theorem split_of_hist {r : Role} {o : Option Signal} : ∀ {log : List Entry} {l : List Action}
    {a : Action}, l ++ [a] <+: hist r o log →
    ∃ l₁ l₂, log = l₁ ++ ⟨r, o, a⟩ :: l₂ ∧ hist r o l₁ = l := by
  intro log
  induction log with
  | nil => intro l a h; simp [hist] at h
  | cons x log ih =>
    intro l a h
    obtain ⟨r', o', b⟩ := x
    have hcons : hist r o (⟨r', o', b⟩ :: log) = hist r o [⟨r', o', b⟩] ++ hist r o log :=
      hist_append r o [_] log
    by_cases hmine : (r' = r ∧ o' = o) ∧ traced b = true
    · obtain ⟨⟨rfl, rfl⟩, ht⟩ := hmine
      rw [hcons, hist_single, List.filter_cons_of_pos ht] at h
      cases l with
      | nil =>
        obtain ⟨rfl, -⟩ := List.cons_prefix_cons.mp h
        exact ⟨[], log, rfl, rfl⟩
      | cons c l =>
        obtain ⟨rfl, hrest⟩ := List.cons_prefix_cons.mp h
        obtain ⟨l₁, l₂, rfl, hl⟩ := ih hrest
        refine ⟨⟨r', o', c⟩ :: l₁, l₂, rfl, ?_⟩
        rw [show (⟨r', o', c⟩ : Entry) :: l₁ = [⟨r', o', c⟩] ++ l₁ from rfl, hist_append,
          hist_single, List.filter_cons_of_pos ht, hl]
        rfl
    · have hnil : hist r o [⟨r', o', b⟩] = [] := by
        by_cases hrole : r' = r ∧ o' = o
        · exact hist_single_untraced _ _ _ _ (by simpa [hrole] using hmine)
        · exact hist_single_of_ne hrole b
      rw [hcons, hnil] at h
      obtain ⟨l₁, l₂, rfl, hl⟩ := ih h
      refine ⟨⟨r', o', b⟩ :: l₁, l₂, rfl, ?_⟩
      rw [show (⟨r', o', b⟩ : Entry) :: l₁ = [⟨r', o', b⟩] ++ l₁ from rfl, hist_append, hnil, hl]
      rfl

/-- If one thread alone deals with the messages of a kind, its record holds them all. -/
theorem seenAt_eq_hist {π : Action → List Msg} {r : Role} {o : Option Signal} {log : List Entry}
    (hπ : ∀ a, π a ≠ [] → traced a = true)
    (honly : ∀ x ∈ log, x.role = r → π x.action ≠ [] → x.origin = o) :
    seenAt π r log = (hist r o log).flatMap π := by
  induction log with
  | nil => rfl
  | cons x log ih =>
    have ih := ih fun y hy => honly y (List.mem_cons_of_mem x hy)
    have hx := honly x List.mem_cons_self
    have hsplit : hist r o (x :: log) = hist r o [x] ++ hist r o log := hist_append r o [x] log
    have hone : (if x.role = r then π x.action else []) = (hist r o [x]).flatMap π := by
      by_cases hr : x.role = r
      · by_cases hnil : π x.action = []
        · rw [if_pos hr, hnil]
          simp only [hist, List.filter_cons, List.filter_nil]
          split <;> simp [hnil]
        · simp [hist, hr, hx hr hnil, hπ _ hnil]
      · simp [hist, hr]
    rw [seenAt, List.flatMap_cons, hone, hsplit, List.flatMap_append, ← ih, seenAt]

/-! ## The shape of a thread's code -/

/-- The thread of each party that reads from its sockets. -/
def readerOf : Role → Option Signal
  | .backup => some .usr1
  | .src => none
  | .dst => none

/-- A thread's remaining code: a suffix of its program, possibly behind the rest of a call. -/
def Shaped (r : Role) (o : Option Signal) (todo : List Stmt) : Prop :=
  ∃ t, t <:+ (shm r).code o ∧ (todo = t ∨ ∃ s, todo = s :: t ∧ s.plain = true ∧
    s.source = false ∧ (s.reads = true → o = readerOf r))

/-- All code is plain, as in the source, and one thread of a party reads. -/
theorem shm_code (r : Role) (o : Option Signal) : ∀ s ∈ (shm r).code o,
    s.plain = true ∧ s.source = true ∧ (s.reads = true → o = readerOf r) := by
  rcases o with _ | o
  · cases r <;> decide
  · cases r <;> cases o <;> decide

/-- What the next statement of a shaped thread can be. -/
theorem Shaped.cons {r : Role} {o : Option Signal} {s : Stmt} {t : List Stmt}
    (h : Shaped r o (s :: t)) : t <:+ (shm r).code o ∧ s.plain = true ∧
      (s.reads = true → o = readerOf r) ∧ (s.source = true → s :: t <:+ (shm r).code o) := by
  obtain ⟨t₀, hsuf, rfl | ⟨s₀, heq, hplain, hsrc, hreads⟩⟩ := h
  · obtain ⟨h1, -, h3⟩ := shm_code r o s (hsuf.subset List.mem_cons_self)
    exact ⟨(List.suffix_cons s t).trans hsuf, h1, h3, fun _ => hsuf⟩
  · obtain ⟨rfl, rfl⟩ := List.cons.inj heq
    exact ⟨hsuf, hplain, hreads, fun hs => by rw [hsrc] at hs; cases hs⟩

theorem Shaped.source_tail {r : Role} {o : Option Signal} {s : Stmt} {t : List Stmt}
    (h : Shaped r o (s :: t)) : ∀ x ∈ t, x.source = true := fun x hx =>
  (shm_code r o x (h.cons.1.subset hx)).2.1

/-- Executing it keeps the shape. -/
theorem Shaped.exec {r : Role} {o : Option Signal} {env : Env} {v v' : Vars} {s : Stmt}
    {t t' : List Stmt} {a : Option Action} (h : Shaped r o (s :: t))
    (hex : exec env v t s = some (v', t', a)) : Shaped r o t' := by
  obtain ⟨hsuf, hplain, hreads, -⟩ := h.cons
  rcases exec_todo hplain hex with rfl | rfl | ⟨s', rfl, hp, hs, hr⟩
  · exact ⟨t', hsuf, Or.inl rfl⟩
  · exact h
  · exact ⟨t, hsuf, Or.inr ⟨s', rfl, hp, hs, fun hr' => hreads (hr ▸ hr')⟩⟩

/-! ## The chunk in the buffer -/

/-- The bytes of `fd` that a `read` has put into the buffer and that are not accepted yet, as far
    as the remaining code of the reading thread tells. -/
def Held (fd : Fd) (buff : Buff) (cur : List UInt8) : List Stmt → Prop
  | .read _ m :: _ => cur = [] ∧ ∃ b, buff = memset (m.sizeof + 1) b
  | .assertLen n fd' _ :: _ =>
    if fd' = fd then n = cur.length ∧ cstr buff = cur.takeWhile (· ≠ 0) else cur = []
  | .assertStrcmp fd' m :: _ =>
    if fd' = fd then cur.length = m.bytes.length ∧ cstr buff = cur.takeWhile (· ≠ 0) else cur = []
  | _ => cur = []

theorem held_of_not_reads {fd : Fd} {buff : Buff} {cur : List UInt8} {s : Stmt} {t : List Stmt}
    (h : s.reads = false) : Held fd buff cur (s :: t) ↔ cur = [] := by
  cases s <;> first | rfl | cases h

/-- Between two calls nothing is held. -/
theorem held_of_source {fd : Fd} {buff : Buff} {t : List Stmt}
    (h : ∀ s ∈ t, s.source = true) : Held fd buff [] t := by
  cases t with
  | nil => rfl
  | cons s t => cases s <;> first | rfl | cases h _ List.mem_cons_self

theorem exec_not_reads {env : Env} {v v' : Vars} {s : Stmt} {t t' : List Stmt} {a : Option Action}
    (hs : s.reads = false) (h : exec env v t s = some (v', t', a)) :
    v'.buff = v.buff ∧ (∀ fd, a.toList.flatMap (Action.matchedOn fd) = []) ∧
      ∀ fd, a.elim 0 (Action.takenOn fd) = 0 := by
  cases s with
  | assertCount =>
    simp only [exec] at h
    split at h <;> cases h
    exact ⟨rfl, fun _ => rfl, fun _ => rfl⟩
  | _ => first | (cases h; exact ⟨rfl, fun _ => rfl, fun _ => rfl⟩) | cases hs

/-- **One step of the reading thread**: bytes go from the inbox into the buffer, and from there
    into an accepted message; none is lost. -/
theorem exec_held {env : Env} {v v' : Vars} {s : Stmt} {t t' : List Stmt} {a : Option Action}
    {fd : Fd} {cur : List UInt8} (hplain : s.plain = true) (ht : ∀ x ∈ t, x.source = true)
    (h : exec env v t s = some (v', t', a)) (hheld : Held fd v.buff cur (s :: t)) :
    ∃ cur', Held fd v'.buff cur' t' ∧
      wire (a.toList.flatMap (Action.matchedOn fd)) ++ cur' ++
        (env.input fd).drop (a.elim 0 (Action.takenOn fd)) = cur ++ env.input fd := by
  cases s with
  | receive fd' m =>
    cases h
    have hnil : cur = [] := hheld
    exact ⟨[], ⟨rfl, v.buff, rfl⟩, by simp [hnil]⟩
  | read fd' m =>
    obtain ⟨hnil, b, hb⟩ : cur = [] ∧ ∃ b, v.buff = memset (m.sizeof + 1) b := hheld
    simp only [exec] at h
    split at h
    · cases h
      exact ⟨[], ⟨rfl, b, hb⟩, by simp [hnil]⟩
    · cases h
      have hlen := readSome_length_le (k := env.k) (Nat.le_of_lt m.one_lt_length) (env.input fd')
      by_cases hfd : fd' = fd
      · subst hfd
        refine ⟨readSome env.k (m.sizeof - 1) (env.input fd'), ?_, ?_⟩
        · rw [Held, if_pos rfl, hb]
          refine ⟨rfl, cstr_store_memset ?_ b⟩
          rw [show m.sizeof - 1 = m.bytes.length from rfl, Msg.sizeof]
          omega
        · simp only [Option.toList_some, List.flatMap_cons, Action.matchedOn, Option.elim_some,
            Action.takenOn, if_true, hnil, List.flatMap_nil, wire_nil, List.append_nil,
            List.nil_append]
          exact readSome_append_drop _ _ _
      · refine ⟨[], ?_, ?_⟩
        · rw [Held, if_neg hfd]
        · simp [Action.matchedOn, Action.takenOn, hfd, hnil]
  | assertLen n fd' m =>
    simp only [exec] at h
    split at h
    · rename_i hn
      cases h
      refine ⟨cur, ?_, by simp⟩
      by_cases hfd : fd' = fd
      · simp only [Held, if_pos hfd] at hheld ⊢
        exact ⟨hheld.1.symm.trans hn, hheld.2⟩
      · simp only [Held, if_neg hfd] at hheld ⊢
        exact hheld
    · cases h
  | assertStrcmp fd' m =>
    simp only [exec] at h
    split at h
    · rename_i hstr
      cases h
      refine ⟨[], held_of_source ht, ?_⟩
      by_cases hfd : fd' = fd
      · simp only [Held, if_pos hfd] at hheld
        have hcur : cur = m.bytes := eq_bytes_of_cstr hheld.1 (hheld.2 ▸ hstr)
        simp [Action.matchedOn, Action.takenOn, hfd, hcur]
      · simp only [Held, if_neg hfd] at hheld
        simp [Action.matchedOn, Action.takenOn, hfd, hheld]
    · cases h
  | _ =>
    obtain ⟨-, hm, htk⟩ := exec_not_reads rfl h
    have hnil : cur = [] := (held_of_not_reads rfl).mp hheld
    refine ⟨[], ?_, by simp [hm, htk, hnil]⟩
    rcases exec_todo hplain h with rfl | rfl | ⟨s', rfl, -, -, hr⟩
    · exact held_of_source ht
    · exact (held_of_not_reads rfl).mpr rfl
    · exact (held_of_not_reads hr).mpr rfl

end QemuStudy.Controller
