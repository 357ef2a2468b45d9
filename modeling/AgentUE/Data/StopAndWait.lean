import AgentUE.Data.Machine

/-!
# One sender over a channel that loses, delays and repeats

A sender hands numbered items to a receiver: it issues an item, as often as it likes, and goes on to the next
one when an answer has come back. What has been issued may reach the receiver at any later time and any number
of times, also after the sender has gone on, and an answer may never come back. `Rules` says what a receiver has
to do with the item that is next, with the last one and with an earlier one. `Sound` then holds along every run:
the items are taken in order and once.
-/

namespace AgentUE.Data.StopAndWait

/-- A receiver. `take` is refused where the choice of the environment is impossible, `disturb` is what others do to it
and `taken` tells the answers to an item that has been taken. -/
structure Receiver (σ ρ γ δ : Type) where
  take : ℕ → γ → σ → Option (ρ × σ)
  disturb : δ → σ → Option σ
  taken : ρ → Bool

/-- The two ends and what is between them: the items below `issued` may still arrive, and the answers may still be
heard. The sender has gone on with the `receipts`, or has given up. -/
structure Session (σ ρ : Type) where
  receiver : σ
  issued : ℕ
  answers : List (ℕ × ρ)
  receipts : List ρ
  refused : Bool

/-- Nothing has been issued. -/
def Session.init {σ : Type} (ρ : Type) (receiver : σ) : Session σ ρ := ⟨receiver, 0, [], [], false⟩

/-- What happens next. -/
inductive Label (γ δ : Type) where
  /-- the sender issues its current item, for the first time or again -/
  | issue
  /-- an issued item reaches the receiver -/
  | arrive (index : ℕ) (choice : γ)
  /-- an answer reaches the sender -/
  | hear (position : ℕ)
  /-- somebody else acts on the receiver -/
  | disturb (action : δ)

variable {σ ρ γ δ : Type}

/-- A step of a session with `count` items. The sender reads answers to its current item only. -/
def step (R : Receiver σ ρ γ δ) (count : ℕ) (s : Session σ ρ) : Label γ δ → Option (Session σ ρ)
  | .issue =>
    if s.refused = false ∧ s.receipts.length < count then some { s with issued := s.receipts.length + 1 } else none
  | .arrive index choice =>
    if index < s.issued then
      (R.take index choice s.receiver).map fun (answer, receiver) =>
        { s with receiver := receiver, answers := s.answers ++ [(index, answer)] }
    else none
  | .hear position =>
    match s.answers[position]? with
    | none => none
    | some (index, answer) =>
      if s.refused = false ∧ index = s.receipts.length then
        some (if R.taken answer then { s with receipts := s.receipts ++ [answer] } else { s with refused := true })
      else none
  | .disturb action => (R.disturb action s.receiver).map fun receiver => { s with receiver := receiver }

/-- What a receiver of `count` items has to do. `Holds k` says that it has taken the first `k`, `Closed` that it takes
no more, and `Receipt` what an answer to a taken item means. -/
structure Rules (R : Receiver σ ρ γ δ) (count : ℕ) (Holds : ℕ → σ → Prop) (Closed : σ → Prop)
    (Receipt : ℕ → ρ → σ → Prop) : Prop where
  /-- The next item is taken, or refused for good. -/
  next : ∀ {k choice s answer s'}, Holds k s → k < count → R.take k choice s = some (answer, s') →
    (R.taken answer = true ∧ Holds (k + 1) s' ∧ Receipt k answer s') ∨
      (R.taken answer = false ∧ Holds k s' ∧ Closed s')
  /-- The last item is confirmed once more. -/
  again : ∀ {k choice s answer s'}, Holds (k + 1) s → R.take k choice s = some (answer, s') →
    R.taken answer = true ∧ Holds (k + 1) s' ∧ Receipt k answer s'
  /-- An earlier item changes nothing that counts. -/
  late : ∀ {k index choice s answer s'}, Holds k s → index + 1 < k → R.take index choice s = some (answer, s') →
    R.taken answer = false ∧ Holds k s'
  /-- Others leave the items alone. -/
  others : ∀ {k action s s'}, Holds k s → R.disturb action s = some s' → Holds k s'
  /-- A closed receiver stays closed. -/
  closed_take : ∀ {k index choice s answer s'}, Holds k s → Closed s → R.take index choice s = some (answer, s') →
    Closed s'
  closed_disturb : ∀ {k action s s'}, Holds k s → Closed s → R.disturb action s = some s' → Closed s'
  /-- What a receipt says stays true. -/
  receipt_take : ∀ {k index choice s answer s' i r}, Holds k s → Receipt i r s →
    R.take index choice s = some (answer, s') → Receipt i r s'
  receipt_disturb : ∀ {k action s s' i r}, Holds k s → Receipt i r s → R.disturb action s = some s' → Receipt i r s'

/-- A session whose receiver has taken the first `k` items: those that are confirmed, and at most the one that has been
issued behind them. -/
structure Sound (R : Receiver σ ρ γ δ) (count : ℕ) (Holds : ℕ → σ → Prop) (Closed : σ → Prop)
    (Receipt : ℕ → ρ → σ → Prop) (k : ℕ) (s : Session σ ρ) : Prop where
  holds : Holds k s.receiver
  confirmed : s.receipts.length ≤ k
  taken_issued : k ≤ s.issued
  issued_next : s.issued ≤ s.receipts.length + 1
  issued_count : s.issued ≤ count
  positive : ∀ index answer, (index, answer) ∈ s.answers → R.taken answer = true →
    index < k ∧ Receipt index answer s.receiver
  negative : ∀ index answer, (index, answer) ∈ s.answers → R.taken answer = false →
    Closed s.receiver ∨ index < s.receipts.length
  receipts : ∀ index answer, s.receipts[index]? = some answer → Receipt index answer s.receiver
  refused : s.refused = true → Closed s.receiver

variable {R : Receiver σ ρ γ δ} {count : ℕ} {Holds : ℕ → σ → Prop} {Closed : σ → Prop} {Receipt : ℕ → ρ → σ → Prop}

theorem sound_init {receiver : σ} (h : Holds 0 receiver) :
    Sound R count Holds Closed Receipt 0 (Session.init ρ receiver) where
  holds := h
  confirmed := le_rfl
  taken_issued := le_rfl
  issued_next := Nat.zero_le _
  issued_count := Nat.zero_le _
  positive := nofun
  negative := nofun
  receipts := nofun
  refused := nofun

/-- What an arriving item does, by its place: it is the next one, the last one or an earlier one. -/
theorem Sound.arrive (rules : Rules R count Holds Closed Receipt) {k : ℕ} {s : Session σ ρ}
    (h : Sound R count Holds Closed Receipt k s) {index : ℕ} {choice : γ} {answer : ρ} {receiver : σ}
    (hissued : index < s.issued) (htake : R.take index choice s.receiver = some (answer, receiver)) :
    ∃ k', k ≤ k' ∧ k' ≤ s.issued ∧ Holds k' receiver ∧
      (R.taken answer = true → index < k' ∧ Receipt index answer receiver) ∧
      (R.taken answer = false → Closed receiver ∨ index < s.receipts.length) := by
  have hle := h.issued_next
  have hlow := h.confirmed
  rcases Nat.lt_trichotomy (index + 1) k with hlate | hlast | hnext
  · obtain ⟨hanswer, hholds⟩ := rules.late h.holds hlate htake
    have hearlier : index < s.receipts.length := by have := h.taken_issued; omega
    exact ⟨k, le_rfl, h.taken_issued, hholds, fun ht => by simp [hanswer] at ht, fun _ => .inr hearlier⟩
  · subst hlast
    obtain ⟨hanswer, hholds, hreceipt⟩ := rules.again h.holds htake
    exact ⟨index + 1, le_rfl, h.taken_issued, hholds, fun _ => ⟨Nat.lt_succ_self index, hreceipt⟩,
      fun hf => by simp [hanswer] at hf⟩
  · -- nothing is issued behind the item that is next
    obtain rfl : index = k := by omega
    have hcount : index < count := hissued.trans_le h.issued_count
    rcases rules.next h.holds hcount htake with ⟨hanswer, hholds, hreceipt⟩ | ⟨hanswer, hholds, hclosed⟩
    · exact ⟨index + 1, Nat.le_succ index, hissued, hholds, fun _ => ⟨Nat.lt_succ_self index, hreceipt⟩,
        fun hf => by simp [hanswer] at hf⟩
    · exact ⟨index, le_rfl, h.taken_issued, hholds, fun ht => by simp [hanswer] at ht, fun _ => .inl hclosed⟩

/-- Every step keeps a session sound, with more items taken or as many. -/
theorem sound_step (rules : Rules R count Holds Closed Receipt) {k : ℕ} {s s' : Session σ ρ} {l : Label γ δ}
    (h : Sound R count Holds Closed Receipt k s) (hstep : step R count s l = some s') :
    ∃ k', k ≤ k' ∧ Sound R count Holds Closed Receipt k' s' := by
  cases l with
  | issue =>
    simp only [step] at hstep
    split_ifs at hstep with hguard
    obtain rfl := Option.some.inj hstep
    exact ⟨k, le_rfl, { h with
      taken_issued := h.taken_issued.trans h.issued_next
      issued_next := le_rfl
      issued_count := hguard.2 }⟩
  | arrive index choice =>
    simp only [step] at hstep
    split_ifs at hstep with hissued
    obtain ⟨⟨answer, receiver⟩, htake, rfl⟩ := Option.map_eq_some_iff.mp hstep
    obtain ⟨k', hk, hk', hholds, hpos, hneg⟩ := h.arrive rules hissued htake
    refine ⟨k', hk, hholds, h.confirmed.trans hk, hk', h.issued_next, h.issued_count, ?_, ?_, ?_, ?_⟩
    · intro i r hmem htaken
      rcases List.mem_append.mp hmem with hold | hnew
      · obtain ⟨hlt, hreceipt⟩ := h.positive i r hold htaken
        exact ⟨hlt.trans_le hk, rules.receipt_take h.holds hreceipt htake⟩
      · obtain ⟨rfl, rfl⟩ := Prod.mk.inj (List.mem_singleton.mp hnew)
        exact hpos htaken
    · intro i r hmem htaken
      rcases List.mem_append.mp hmem with hold | hnew
      · exact (h.negative i r hold htaken).imp_left fun hclosed => rules.closed_take h.holds hclosed htake
      · obtain ⟨rfl, rfl⟩ := Prod.mk.inj (List.mem_singleton.mp hnew)
        exact hneg htaken
    · exact fun i r hmem => rules.receipt_take h.holds (h.receipts i r hmem) htake
    · exact fun hrefused => rules.closed_take h.holds (h.refused hrefused) htake
  | hear position =>
    simp only [step] at hstep
    cases hanswer : s.answers[position]? with
    | none => simp [hanswer] at hstep
    | some pair =>
      obtain ⟨index, answer⟩ := pair
      simp only [hanswer] at hstep
      split_ifs at hstep with hguard htaken
      all_goals
        obtain rfl := Option.some.inj hstep
        have hmem := List.mem_of_getElem? hanswer
      · -- the sender goes on
        obtain ⟨hlt, hreceipt⟩ := h.positive index answer hmem htaken
        have hindex := hguard.2
        refine ⟨k, le_rfl, h.holds, ?_, h.taken_issued, ?_, h.issued_count, h.positive, ?_, ?_, h.refused⟩
        · rw [List.length_append, List.length_singleton]
          omega
        · rw [List.length_append, List.length_singleton]
          exact h.issued_next.trans (Nat.le_succ _)
        · intro i r hi hr
          refine (h.negative i r hi hr).imp_right fun hlow => hlow.trans_le ?_
          rw [List.length_append]
          exact Nat.le_add_right _ _
        · intro i r hi
          rcases Nat.lt_or_ge i s.receipts.length with hlow | hhigh
          · exact h.receipts i r (by rwa [List.getElem?_append_left hlow] at hi)
          · rw [List.getElem?_append_right hhigh, List.getElem?_singleton] at hi
            split_ifs at hi with hzero
            obtain rfl := Option.some.inj hi
            obtain rfl : i = index := by omega
            exact hreceipt
      · -- the sender gives up
        have hclosed := (h.negative index answer hmem (by simpa using htaken)).resolve_right fun hlow => by omega
        exact ⟨k, le_rfl, { h with refused := fun _ => hclosed }⟩
  | disturb action =>
    obtain ⟨receiver, hdisturb, rfl⟩ := Option.map_eq_some_iff.mp hstep
    refine ⟨k, le_rfl, rules.others h.holds hdisturb, h.confirmed, h.taken_issued, h.issued_next, h.issued_count,
      ?_, ?_, ?_, ?_⟩
    · exact fun i r hmem htaken => ⟨(h.positive i r hmem htaken).1,
        rules.receipt_disturb h.holds (h.positive i r hmem htaken).2 hdisturb⟩
    · exact fun i r hmem htaken => (h.negative i r hmem htaken).imp_left fun hclosed =>
        rules.closed_disturb h.holds hclosed hdisturb
    · exact fun i r hmem => rules.receipt_disturb h.holds (h.receipts i r hmem) hdisturb
    · exact fun hrefused => rules.closed_disturb h.holds (h.refused hrefused) hdisturb

/-- Every state of a session is sound, whatever the channel and the others do. -/
theorem sound_of_exec (rules : Rules R count Holds Closed Receipt) {receiver : σ} (hstart : Holds 0 receiver)
    {s : Session σ ρ} {ls : List (Label γ δ)}
    (h : Machine.exec (step R count) (Session.init ρ receiver) ls = some s) :
    ∃ k, Sound R count Holds Closed Receipt k s :=
  Machine.exec_invariant (p := fun s => ∃ k, Sound R count Holds Closed Receipt k s)
    (fun _ _ _ ⟨_, hs⟩ hstep => (sound_step rules hs hstep).imp fun _ h => h.2) ⟨0, sound_init hstart⟩ h

end AgentUE.Data.StopAndWait
