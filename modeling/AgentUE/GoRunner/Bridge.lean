import AgentUE.Data.Machine
import AgentUE.GoRunner.Redis
import Mathlib.Data.List.Pairwise

/-!
# Go runner: what the bridge keeps

Any number of clients send requests to one Redis server; a request runs as a whole. The hash of a task
mirrors the last entry of its stream (`Mirrors`), every script keeps that, and the guarantees of the
bridge follow: entries are stored once and in order, and a terminal task no longer changes.
-/

namespace AgentUE.GoRunner

open Data

variable {κ ε : Type}

section Mirrors

variable [LinearOrder κ]

/-- A hash that mirrors the last entry of a stream whose sequence numbers and cursors increase. -/
structure Mirrors (hash : TaskHash κ ε) (events : List (Entry κ ε)) : Prop where
  last : events.getLast? = some ⟨hash.lastCursor, hash.lastEvent, hash.lastSeq⟩
  seqs : events.Pairwise fun a b => a.seq < b.seq
  cursors : events.Pairwise fun a b => a.cursor < b.cursor
  small : ∀ entry ∈ events, entry.seq < 2 ^ 53

/-- The keys of a task: both are there and agree, or none is there. -/
def Consistent (keys : Keys κ ε) : Prop :=
  match keys.state with
  | none => keys.events = []
  | some hash => Mirrors hash keys.events

/-- The entry that the fields of the hash describe. -/
theorem Mirrors.exists_last {hash : TaskHash κ ε} {events : List (Entry κ ε)} (h : Mirrors hash events) :
    ∃ earlier, events = earlier ++ [⟨hash.lastCursor, hash.lastEvent, hash.lastSeq⟩] :=
  List.getLast?_eq_some_iff.mp h.last

theorem Mirrors.seq_le_last {hash : TaskHash κ ε} {events : List (Entry κ ε)} (h : Mirrors hash events)
    {entry : Entry κ ε} (hentry : entry ∈ events) : entry.seq ≤ hash.lastSeq := by
  obtain ⟨earlier, rfl⟩ := h.exists_last
  rcases List.mem_append.mp hentry with hmem | hmem
  · have hlt := (List.pairwise_append.mp h.seqs).2.2 entry hmem
      ⟨hash.lastCursor, hash.lastEvent, hash.lastSeq⟩ (List.mem_singleton.mpr rfl)
    exact le_of_lt hlt
  · obtain rfl := List.mem_singleton.mp hmem
    exact le_rfl

theorem Mirrors.lastSeq_lt {hash : TaskHash κ ε} {events : List (Entry κ ε)} (h : Mirrors hash events) :
    hash.lastSeq < 2 ^ 53 := by
  obtain ⟨earlier, heq⟩ := h.exists_last
  exact h.small ⟨hash.lastCursor, hash.lastEvent, hash.lastSeq⟩ (by rw [heq]; simp)

/-- An entry with a larger number and cursor, and a hash that now describes it. -/
theorem Mirrors.concat {hash : TaskHash κ ε} {events : List (Entry κ ε)} (h : Mirrors hash events)
    (hash' : TaskHash κ ε)
    (hseq : hash.lastSeq < hash'.lastSeq) (hsmall : hash'.lastSeq < 2 ^ 53)
    (hfresh : ∀ entry ∈ events, entry.cursor < hash'.lastCursor) :
    Mirrors hash' (events ++ [⟨hash'.lastCursor, hash'.lastEvent, hash'.lastSeq⟩]) where
  last := by simp
  seqs := List.pairwise_append.mpr ⟨h.seqs, by simp, fun a ha b hb => by
    obtain rfl := List.mem_singleton.mp hb
    exact (h.seq_le_last ha).trans_lt hseq⟩
  cursors := List.pairwise_append.mpr ⟨h.cursors, by simp, fun a ha b hb => by
    obtain rfl := List.mem_singleton.mp hb
    exact hfresh a ha⟩
  small entry hentry := by
    rcases List.mem_append.mp hentry with hmem | hmem
    · exact h.small entry hmem
    · obtain rfl := List.mem_singleton.mp hmem
      exact hsmall

omit [LinearOrder κ] in
/-- Entries of one number are one entry. -/
theorem eq_of_seq_eq {events : List (Entry κ ε)} (h : events.Pairwise fun a b => a.seq < b.seq)
    {a b : Entry κ ε} (ha : a ∈ events) (hb : b ∈ events) (hseq : a.seq = b.seq) : a = b := by
  refine List.Pairwise.forall_of_forall_of_flip (R := fun a b : Entry κ ε => a.seq = b.seq → a = b)
    (fun _ _ _ => rfl) (h.imp fun hlt heq => ?_) (h.imp fun hlt heq => ?_) ha hb hseq
  · omega
  · omega

end Mirrors

/-! ## Calls -/

/-- A call of the bridge, or the expiry of a task. -/
inductive Call (ε : Type) where
  | initialize_ (initialModel startEvent : ε) (seq : ℕ)
  | publish (event : ε) (seq : ℕ)
  | markTerminal (status : Status)
  | delete
  | expire
deriving DecidableEq

/-- The call ends the task. -/
def Call.removes : Call ε → Bool
  | .delete | .expire => true
  | _ => false

/-- The sequence number that a call stores under. -/
def Call.seq? : Call ε → Option ℕ
  | .initialize_ _ _ seq | .publish _ seq => some seq
  | _ => none

variable [DecidableEq ε]

/-- The reply to a call and the keys it leaves; `fresh` is the cursor of `XADD '*'`. -/
def Call.run (fresh : κ) : Call ε → Keys κ ε → Reply κ × Keys κ ε
  | .initialize_ initialModel startEvent seq, keys => initializeScript fresh seq initialModel startEvent keys
  | .publish event seq, keys => publishScript fresh seq event keys
  | .markTerminal status, keys => GoRunner.markTerminal status keys
  | .delete, _ | .expire, _ => (.ok, GoRunner.delete)

/-- What a publish does to the keys of a task: nothing, or an entry with a larger number. -/
theorem publishScript_cases (fresh : κ) {seq : ℕ} (event : ε) {keys : Keys κ ε} {hash : TaskHash κ ε}
    (hstate : keys.state = some hash) (hseq : seq < 2 ^ 53) (hlast : hash.lastSeq < 2 ^ 53) :
    (publishScript fresh seq event keys = (.cursor hash.lastCursor, keys) ∧ hash.lastSeq = seq ∧
        hash.lastEvent = event) ∨
      publishScript fresh seq event keys = (.conflict, keys) ∨
      (publishScript fresh seq event keys =
        (.cursor fresh, ⟨some { hash with lastSeq := seq, lastEvent := event, lastCursor := fresh },
          keys.events ++ [⟨fresh, event, seq⟩]⟩) ∧ hash.status = .running ∧ hash.lastSeq < seq) := by
  unfold publishScript
  simp only [hstate, tonumber_of_lt hseq, tonumber_of_lt hlast]
  split_ifs with hretry hstatus hle
  · exact .inl ⟨rfl, hretry.1.symm, hretry.2⟩
  · exact .inr (.inl rfl)
  · exact .inr (.inl rfl)
  · exact .inr (.inr ⟨rfl, not_not.mp hstatus, not_le.mp hle⟩)

/-- Every call keeps the keys of its task consistent. -/
theorem consistent_run [LinearOrder κ] {fresh : κ} {call : Call ε} {keys : Keys κ ε} (h : Consistent keys)
    (hfresh : ∀ entry ∈ keys.events, entry.cursor < fresh) (hseq : ∀ seq, call.seq? = some seq → seq < 2 ^ 53) :
    Consistent (call.run fresh keys).2 := by
  unfold Consistent at h
  cases call with
  | initialize_ initialModel startEvent seq =>
    cases hstate : keys.state with
    | some hash => simpa [Call.run, initializeScript, Consistent, hstate] using h
    | none =>
      rw [hstate] at h
      simp only [Call.run, initializeScript, hstate, Consistent, show keys.events = [] from h, List.nil_append]
      exact ⟨rfl, by simp, by simp, by simpa using hseq seq rfl⟩
  | publish event seq =>
    cases hstate : keys.state with
    | none => simpa [Call.run, publishScript, Consistent, hstate] using h
    | some hash =>
      rw [hstate] at h
      have hseq' := hseq seq rfl
      have hkeys : Consistent keys := by simpa [Consistent, hstate] using h
      -- a retry, a conflict, or a new entry behind the last one
      rcases publishScript_cases fresh event hstate hseq' (Mirrors.lastSeq_lt h) with
        ⟨heq, -⟩ | heq | ⟨heq, -, hlt⟩
      · simpa [Call.run, heq] using hkeys
      · simpa [Call.run, heq] using hkeys
      · simp only [Call.run, heq, Consistent]
        exact Mirrors.concat h { hash with lastSeq := seq, lastEvent := event, lastCursor := fresh }
          hlt hseq' hfresh
  | markTerminal status =>
    have hkeys : Consistent keys := h
    simp only [Call.run, GoRunner.markTerminal]
    split_ifs with hterminal
    · exact hkeys
    · cases hstate : keys.state with
      | none => exact hkeys
      | some hash =>
        rw [hstate] at h
        dsimp only
        split_ifs with hconflict
        · exact hkeys
        · exact ⟨h.last, h.seqs, h.cursors, h.small⟩
  | delete => rfl
  | expire => rfl

/-- A call that ends in a conflict, or finds no task, changes nothing. -/
theorem run_of_refused {fresh : κ} {call : Call ε} {keys : Keys κ ε}
    (h : (call.run fresh keys).1 = .conflict ∨ (call.run fresh keys).1 = .notFound) :
    (call.run fresh keys).2 = keys := by
  cases call with
  | initialize_ initialModel startEvent seq =>
    cases hstate : keys.state <;> simp [Call.run, initializeScript, hstate] at h ⊢
  | publish event seq =>
    cases hstate : keys.state with
    | none => simp [Call.run, publishScript, hstate]
    | some hash =>
      simp only [Call.run, publishScript, hstate] at h ⊢
      split_ifs at h ⊢ <;> first | rfl | simp at h
  | markTerminal status =>
    simp only [Call.run, GoRunner.markTerminal] at h ⊢
    cases hstate : keys.state with
    | none => split_ifs <;> rfl
    | some hash =>
      simp only [hstate] at h ⊢
      split_ifs at h ⊢ <;> first | rfl | simp at h
  | delete => simp [Call.run] at h
  | expire => simp [Call.run] at h

/-- The cursor that a successful publish returns is that of an entry with the event. -/
theorem mem_of_publish [LinearOrder κ] {fresh c : κ} {event : ε} {seq : ℕ} {keys : Keys κ ε} (h : Consistent keys)
    (hseq : seq < 2 ^ 53) (hreply : ((Call.publish event seq).run fresh keys).1 = .cursor c) :
    ⟨c, event, seq⟩ ∈ ((Call.publish event seq).run fresh keys).2.events := by
  cases hstate : keys.state with
  | none => simp [Call.run, publishScript, hstate] at hreply
  | some hash =>
    have hmirrors : Mirrors hash keys.events := by simpa [Consistent, hstate] using h
    rcases publishScript_cases fresh event hstate hseq hmirrors.lastSeq_lt with
      ⟨heq, hlast, hevent⟩ | heq | ⟨heq, -⟩
    -- the retry is answered with the cursor of the last entry, which has the same number and event
    · simp only [Call.run, heq, Reply.cursor.injEq] at hreply ⊢
      obtain ⟨earlier, hevents⟩ := hmirrors.exists_last
      rw [hevents, ← hreply, ← hlast, ← hevent]
      simp
    · simp [Call.run, heq] at hreply
    · simp only [Call.run, heq, Reply.cursor.injEq] at hreply ⊢
      rw [← hreply]
      simp

/-- A terminal task keeps its status and its stream as long as it is not removed. -/
theorem run_of_terminal {fresh : κ} {call : Call ε} {keys : Keys κ ε} {hash : TaskHash κ ε}
    (hstate : keys.state = some hash) (hterminal : hash.status.terminal = true)
    (hremoves : call.removes = false) :
    (∃ hash', (call.run fresh keys).2.state = some hash' ∧ hash'.status = hash.status) ∧
      (call.run fresh keys).2.events = keys.events := by
  have hrunning : hash.status ≠ .running := by
    intro h
    simp [h, Status.terminal] at hterminal
  cases call with
  | initialize_ initialModel startEvent seq => simp [Call.run, initializeScript, hstate]
  | publish event seq =>
    simp only [Call.run, publishScript, hstate, ne_eq, hrunning, not_false_eq_true, if_true]
    split_ifs <;> exact ⟨⟨hash, hstate, rfl⟩, rfl⟩
  | markTerminal status =>
    simp only [Call.run, GoRunner.markTerminal, hstate]
    split_ifs with hinvalid hconflict
    · exact ⟨⟨hash, hstate, rfl⟩, rfl⟩
    · exact ⟨⟨hash, hstate, rfl⟩, rfl⟩
    · refine ⟨⟨_, rfl, ?_⟩, rfl⟩
      -- another status would have been a conflict
      by_contra hne
      exact hconflict ⟨hrunning, fun heq => hne heq.symm⟩
  | delete => simp [Call.removes] at hremoves
  | expire => simp [Call.removes] at hremoves

/-! ## The order of sequence numbers -/

/-- The keys of a running task. -/
def runningTask (initialModel lastEvent : ε) (lastSeq : ℕ) (lastCursor : κ) (events : List (Entry κ ε)) : Keys κ ε :=
  ⟨some ⟨.running, lastSeq, initialModel, lastEvent, lastCursor⟩, events⟩

/-- A publish after `d` under `m` decides by the order of the integers: a larger number is stored, the last number
with the last event returns the cursor that is there, and anything else is a conflict. -/
structure OrdersExactly (fresh : κ) (n : ℕ) (e initialModel d : ε) (m : ℕ) (cursor : κ)
    (events : List (Entry κ ε)) : Prop where
  stores : publishScript fresh n e (runningTask initialModel d m cursor events) =
    (.cursor fresh, runningTask initialModel e n fresh (events ++ [⟨fresh, e, n⟩])) ↔ m < n
  repeats : publishScript fresh n e (runningTask initialModel d m cursor events) =
    (.cursor cursor, runningTask initialModel d m cursor events) ↔ n = m ∧ e = d
  conflicts : publishScript fresh n e (runningTask initialModel d m cursor events) =
    (.conflict, runningTask initialModel d m cursor events) ↔ ¬ m < n ∧ ¬ (n = m ∧ e = d)

/-- `tonumber` never reverses an order. -/
theorem lt_of_tonumber_lt {m n : ℕ} (h : tonumber m < tonumber n) : m < n :=
  (Rounding.nearest_mono 52).reflect_lt h

/-- The script decides by the order of the rounded numbers. -/
theorem publishScript_runningTask (fresh cursor : κ) (m n : ℕ) (initialModel d e : ε) (events : List (Entry κ ε)) :
    publishScript fresh n e (runningTask initialModel d m cursor events) =
      if tonumber n = tonumber m ∧ d = e then (.cursor cursor, runningTask initialModel d m cursor events)
      else if tonumber n ≤ tonumber m then (.conflict, runningTask initialModel d m cursor events)
      else (.cursor fresh, runningTask initialModel e n fresh (events ++ [⟨fresh, e, n⟩])) := by
  simp [publishScript, runningTask]

omit [DecidableEq ε] in
theorem runningTask_append_ne (initialModel d e : ε) (m n : ℕ) (cursor fresh : κ) (events : List (Entry κ ε))
    (entry : Entry κ ε) :
    runningTask initialModel d m cursor events ≠ runningTask initialModel e n fresh (events ++ [entry]) := by
  simp [runningTask]

/-- A 64 bit number is ordered exactly against the last one, unless both round to the same float. Then they have to
be one number, or the number is smaller and comes with another event. -/
theorem ordersExactly_iff (fresh cursor : κ) (m n : UInt64) (initialModel d e : ε) (events : List (Entry κ ε)) :
    OrdersExactly fresh n.toNat e initialModel d m.toNat cursor events ↔
      (tonumber n.toNat = tonumber m.toNat → n = m ∨ (n < m ∧ e ≠ d)) := by
  rw [← UInt64.toNat_inj, UInt64.lt_iff_toNat_lt]
  generalize n.toNat = n, m.toNat = m
  have hscript := publishScript_runningTask fresh cursor m n initialModel d e events
  have hne := runningTask_append_ne initialModel d e m n cursor fresh events ⟨fresh, e, n⟩
  rcases lt_trichotomy (tonumber n) (tonumber m) with hlt | heq | hgt
  · have hnm : n < m := lt_of_tonumber_lt hlt
    rw [if_neg (fun h => hlt.ne h.1), if_pos hlt.le] at hscript
    refine iff_of_true ⟨?_, ?_, ?_⟩ (fun h => absurd h hlt.ne)
    · rw [hscript]
      exact iff_of_false (fun h => nomatch (Prod.mk.inj h).1) hnm.not_gt
    · rw [hscript]
      exact iff_of_false (fun h => nomatch (Prod.mk.inj h).1) (fun h => hnm.ne h.1)
    · rw [hscript]
      exact iff_of_true rfl ⟨hnm.not_gt, fun h => hnm.ne h.1⟩
  · by_cases hevent : d = e
    · -- the same event: the cursor of the last one is returned
      rw [if_pos ⟨heq, hevent⟩] at hscript
      constructor
      · exact fun h _ => .inl (h.repeats.mp hscript).1
      · intro h
        obtain rfl : n = m := (h heq).resolve_right fun h => h.2 hevent.symm
        refine ⟨?_, ?_, ?_⟩
        · rw [hscript]
          exact iff_of_false (fun h => hne (Prod.mk.inj h).2) (lt_irrefl n)
        · exact iff_of_true hscript ⟨rfl, hevent.symm⟩
        · rw [hscript]
          exact iff_of_false (fun h => nomatch (Prod.mk.inj h).1) (fun h => h.2 ⟨rfl, hevent.symm⟩)
    · -- another event: a conflict
      rw [if_neg (fun h => hevent h.2), if_pos heq.le] at hscript
      constructor
      · intro h _
        exact (Nat.le_of_not_lt (h.conflicts.mp hscript).1).eq_or_lt.imp id fun h => ⟨h, fun h => hevent h.symm⟩
      · intro h
        have hle : ¬ m < n := (h heq).elim (fun h => h ▸ lt_irrefl n) fun h => h.1.not_gt
        refine ⟨?_, ?_, ?_⟩
        · rw [hscript]
          exact iff_of_false (fun h => nomatch (Prod.mk.inj h).1) hle
        · rw [hscript]
          exact iff_of_false (fun h => nomatch (Prod.mk.inj h).1) (fun h => hevent h.2.symm)
        · exact iff_of_true hscript ⟨hle, fun h => hevent h.2.symm⟩
  · have hmn : m < n := lt_of_tonumber_lt hgt
    rw [if_neg (fun h => hgt.ne' h.1), if_neg hgt.not_ge] at hscript
    refine iff_of_true ⟨?_, ?_, ?_⟩ (fun h => absurd h hgt.ne')
    · exact iff_of_true hscript hmn
    · rw [hscript]
      exact iff_of_false (fun h => hne (Prod.mk.inj h).2.symm) (fun h => hmn.ne' h.1)
    · rw [hscript]
      exact iff_of_false (fun h => nomatch (Prod.mk.inj h).1) (fun h => h.1 hmn)

/-- 2^53 + 1 is no float and counts as the number before it: the next event is refused. -/
theorem next_event_is_refused :
    (publishScript 11 (9007199254740993 : UInt64).toNat "e"
        (runningTask "m" "d" (9007199254740992 : UInt64).toNat 10 [])).1 = .conflict ∧
      ¬ OrdersExactly 11 (9007199254740993 : UInt64).toNat "e" "m" "d" (9007199254740992 : UInt64).toNat 10 [] := by
  have hscript : publishScript 11 (9007199254740993 : UInt64).toNat "e"
      (runningTask "m" "d" (9007199254740992 : UInt64).toNat 10 []) =
        (.conflict, runningTask "m" "d" (9007199254740992 : UInt64).toNat 10 []) := by decide +kernel
  refine ⟨by rw [hscript], fun h => ?_⟩
  exact (h.conflicts.mp hscript).1 (by decide +kernel)

/-! ## Many clients on one server -/

/-- A request of a client, with the cursor that Redis would pick for it. -/
structure Request (κ ε : Type) where
  keyPrefix : String
  taskID : String
  call : Call ε
  fresh : κ

/-- The task of a request. -/
def Request.base (req : Request κ ε) : String := baseKey req.keyPrefix req.taskID

/-- A new cursor is behind all of its stream. -/
def Request.isFresh [LinearOrder κ] (r : Redis κ ε) (req : Request κ ε) : Bool :=
  (r.keys req.base).events.all fun entry => decide (entry.cursor < req.fresh)

/-- What is assumed of a request: its cursor is new, and a sequence number is below 2^53. -/
def Request.admissible [LinearOrder κ] (r : Redis κ ε) (req : Request κ ε) : Bool :=
  req.isFresh r && req.call.seq?.all fun seq => decide (seq < 2 ^ 53)

/-- The reply to a request. -/
def Request.reply (r : Redis κ ε) (req : Request κ ε) : Reply κ := (req.call.run req.fresh (r.keys req.base)).1

/-- The server takes an admissible request. -/
def serve [LinearOrder κ] (r : Redis κ ε) (req : Request κ ε) : Option (Redis κ ε) :=
  if req.admissible r then some (r.put req.base (req.call.run req.fresh (r.keys req.base)).2) else none

theorem serve_eq_some [LinearOrder κ] {r r' : Redis κ ε} {req : Request κ ε} (h : serve r req = some r') :
    (∀ entry ∈ (r.keys req.base).events, entry.cursor < req.fresh) ∧
      (∀ seq, req.call.seq? = some seq → seq < 2 ^ 53) ∧
      r'.keys req.base = (req.call.run req.fresh (r.keys req.base)).2 ∧
      ∀ base, base ≠ req.base → r'.keys base = r.keys base := by
  unfold serve at h
  split at h
  · rename_i hadm
    simp only [Request.admissible, Request.isFresh, Bool.and_eq_true, List.all_eq_true, decide_eq_true_eq,
      Option.all_eq_true] at hadm
    obtain rfl := Option.some.inj h
    exact ⟨hadm.1, fun seq hseq => hadm.2 seq hseq, keys_put_self _ _ _, fun base hne => keys_put_of_ne _ hne _⟩
  · simp at h

/-- The server keeps the keys of every task consistent. -/
theorem consistent_serve [LinearOrder κ] {r r' : Redis κ ε} {req : Request κ ε}
    (h : ∀ base, Consistent (r.keys base)) (hserve : serve r req = some r') :
    ∀ base, Consistent (r'.keys base) := by
  obtain ⟨hfresh, hseq, hself, hother⟩ := serve_eq_some hserve
  intro base
  by_cases hbase : base = req.base
  · rw [hbase, hself]
    exact consistent_run (h req.base) hfresh hseq
  · rw [hother base hbase]
    exact h base

/-- Every state that requests lead to is consistent. -/
theorem consistent_of_exec [LinearOrder κ] {reqs : List (Request κ ε)} {r : Redis κ ε}
    (h : Machine.exec serve Redis.empty reqs = some r) (base : String) : Consistent (r.keys base) := by
  have hempty : ∀ base, Consistent ((Redis.empty : Redis κ ε).keys base) := fun _ => rfl
  exact Machine.exec_invariant (p := fun r => ∀ base, Consistent (r.keys base))
    (fun _ _ _ hr hstep => consistent_serve hr hstep) hempty h base

/-- A terminal task is frozen over any further requests that do not remove it. -/
theorem frozen_of_exec [LinearOrder κ] {reqs : List (Request κ ε)} {r r' : Redis κ ε} {base : String}
    (h : Machine.exec serve r reqs = some r')
    (hkeep : ∀ req ∈ reqs, req.base = base → req.call.removes = false) {hash : TaskHash κ ε}
    (hstate : (r.keys base).state = some hash) (hterminal : hash.status.terminal = true) :
    (∃ hash', (r'.keys base).state = some hash' ∧ hash'.status = hash.status) ∧
      (r'.keys base).events = (r.keys base).events := by
  induction reqs generalizing r hash with
  | nil =>
    obtain rfl : r = r' := Option.some.inj h
    exact ⟨⟨hash, hstate, rfl⟩, rfl⟩
  | cons req reqs ih =>
    obtain ⟨t, ht, h⟩ := Option.bind_eq_some_iff.mp h
    obtain ⟨-, -, hself, hother⟩ := serve_eq_some ht
    have hstep : (∃ hash', (t.keys base).state = some hash' ∧ hash'.status = hash.status) ∧
        (t.keys base).events = (r.keys base).events := by
      by_cases hbase : base = req.base
      · subst hbase
        rw [hself]
        exact run_of_terminal hstate hterminal (hkeep req (by simp) rfl)
      · rw [hother base hbase]
        exact ⟨⟨hash, hstate, rfl⟩, rfl⟩
    obtain ⟨⟨hash', hstate', hstatus⟩, hevents⟩ := hstep
    obtain ⟨⟨hash'', hstate'', hstatus'⟩, hevents'⟩ :=
      ih h (fun req hreq => hkeep req (by simp [hreq])) hstate' (by rw [hstatus]; exact hterminal)
    exact ⟨⟨hash'', hstate'', hstatus'.trans hstatus⟩, hevents'.trans hevents⟩

/-- What the bridge promises its clients in a state of the server. -/
structure Guarantees [LinearOrder κ] (r : Redis κ ε) : Prop where
  /-- A task that exists has a stream, and its hash mirrors the last entry. -/
  mirrors : ∀ base hash, (r.keys base).state = some hash → (r.keys base).events ≠ [] ∧
    Mirrors hash (r.keys base).events
  /-- A publish that succeeds returns the cursor of the one entry that is stored under its number, and
  that entry holds its event. -/
  published : ∀ req r', serve r req = some r' → ∀ event seq c, req.call = .publish event seq →
    req.reply r = .cursor c → ⟨c, event, seq⟩ ∈ (r'.keys req.base).events ∧
      ∀ entry ∈ (r'.keys req.base).events, entry.seq = seq → entry = ⟨c, event, seq⟩
  /-- A call that ends in a conflict, or finds no task, changes neither hash nor stream. -/
  refused : ∀ req r', serve r req = some r' → req.reply r = .conflict ∨ req.reply r = .notFound →
    ∀ base, r'.keys base = r.keys base
  /-- A terminal task keeps its status and its stream until it is removed. -/
  frozen : ∀ base hash, (r.keys base).state = some hash → hash.status.terminal = true →
    ∀ more r', Machine.exec serve r more = some r' → (∀ req ∈ more, req.base = base → req.call.removes = false) →
      (∃ hash', (r'.keys base).state = some hash' ∧ hash'.status = hash.status) ∧
        (r'.keys base).events = (r.keys base).events

/-- The promises hold in every state that the requests of any clients lead to. -/
theorem guarantees_of_exec [LinearOrder κ] {reqs : List (Request κ ε)} {r : Redis κ ε}
    (h : Machine.exec serve Redis.empty reqs = some r) : Guarantees r where
  mirrors base hash hstate := by
    have hmirrors : Mirrors hash (r.keys base).events := by
      simpa [Consistent, hstate] using consistent_of_exec h base
    obtain ⟨earlier, heq⟩ := hmirrors.exists_last
    exact ⟨by simp [heq], hmirrors⟩
  published req r' hserve event seq c hcall hreply := by
    obtain ⟨-, hseq, hself, -⟩ := serve_eq_some hserve
    have hmem : ⟨c, event, seq⟩ ∈ (r'.keys req.base).events := by
      rw [Request.reply, hcall] at hreply
      rw [hself, hcall]
      exact mem_of_publish (consistent_of_exec h req.base) (hseq seq (by rw [hcall]; rfl)) hreply
    refine ⟨hmem, fun entry hentry heq => ?_⟩
    have hafter := consistent_serve (consistent_of_exec h) hserve req.base
    cases hstate : (r'.keys req.base).state with
    | none =>
      have hnil : (r'.keys req.base).events = [] := by simpa [Consistent, hstate] using hafter
      simp [hnil] at hmem
    | some hash =>
      have hmirrors : Mirrors hash (r'.keys req.base).events := by simpa [Consistent, hstate] using hafter
      exact eq_of_seq_eq hmirrors.seqs hentry hmem heq
  refused req r' hserve hrefused base := by
    obtain ⟨-, -, hself, hother⟩ := serve_eq_some hserve
    by_cases hbase : base = req.base
    · rw [hbase, hself]
      exact run_of_refused hrefused
    · exact hother base hbase
  frozen base hash hstate hterminal more r' hmore hkeep := frozen_of_exec hmore hkeep hstate hterminal

/-- A task is created, an event published twice, the task marked and published to once more. -/
def publishesTwice : List (Request ℕ String) :=
  [⟨"agentue:runner", "message/123", .initialize_ "m" "s" 1, 10⟩,
    ⟨"agentue:runner", "message/123", .publish "e" 2, 11⟩, ⟨"agentue:runner", "message/123", .publish "e" 2, 12⟩,
    ⟨"agentue:runner", "message/123", .markTerminal .completed, 13⟩,
    ⟨"agentue:runner", "message/123", .publish "f" 3, 14⟩]

theorem guarantees_publishesTwice :
    ∃ r, Machine.exec serve Redis.empty publishesTwice = some r ∧ Guarantees r := by
  have hsome : (Machine.exec serve Redis.empty publishesTwice).isSome = true := by decide
  obtain ⟨r, hr⟩ := Option.isSome_iff_exists.mp hsome
  exact ⟨r, hr, guarantees_of_exec hr⟩

end AgentUE.GoRunner
