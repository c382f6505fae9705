import SkeinDB.Consensus.Ballots
import SkeinDB.Consensus.Position

/-!
# Leader logs

A leader takes over with the operations it held when it won its term and adds its own
writes. Followers apply operations of leaders and vote; a voter grants its vote to a candidate
whose position is not behind its own. `Step` is the discipline under which this is safe: a node
votes for nobody behind the writes it made itself as a leader, it follows no term older than
its last vote, and it enters a newer term only when it holds exactly the log of that term's
leader. Under it a position that a majority has reached within its term belongs to every later
leader (`Inv.complete`).
-/
namespace SkeinDB.Consensus.LeaderLog

/-- A term won: by whom, at which position its election started, and what the winner held. -/
structure Leader (ν ω : Type*) where
  node : ν
  term : ℕ
  last : Position
  base : List ω

/-- An election started. -/
structure Bid (ν : Type*) where
  node : ν
  term : ℕ
  last : Position

structure Vote (ν : Type*) where
  voter : ν
  candidate : ν
  term : ℕ
  last : Position

/-- `voted` is the latest term a node voted in, `last` the position it follows at, `held` what
it has executed and `own` the writes it keeps as a leader. -/
structure State (ν ω : Type*) where
  voted : ν → ℕ
  last : ν → Position
  held : ν → List ω
  own : ν → List ω
  leaders : List (Leader ν ω)
  writes : List (ν × ω)
  votes : List (Vote ν)
  bids : List (Bid ν)

variable {ν ω : Type*} [DecidableEq ν] (pos : ω → Position)

/-- The log of the leader of the term of `p`, up to `p`. -/
def InLog (s : State ν ω) (p : Position) (o : ω) : Prop :=
  (∃ l ∈ s.leaders, l.term = p.term ∧ o ∈ l.base) ∨
    ∃ n, (n, o) ∈ s.writes ∧ (pos o).term = p.term ∧ (pos o).seq ≤ p.seq

/-- The log of the leader of the term of `p`, before `p`. -/
def Before (s : State ν ω) (p : Position) (o : ω) : Prop :=
  (∃ l ∈ s.leaders, l.term = p.term ∧ o ∈ l.base) ∨
    ∃ n, (n, o) ∈ s.writes ∧ (pos o).term = p.term ∧ (pos o).seq < p.seq

/-- Nothing, or the position of a write. -/
def Written (s : State ν ω) (p : Position) : Prop :=
  p = 0 ∨ ∃ n o, (n, o) ∈ s.writes ∧ pos o = p

inductive Step (members : Finset ν) (s : State ν ω) : State ν ω → Prop
  | bid (n : ν) (t : ℕ) (hterm : s.voted n < t) :
    Step members s { s with
      voted := Function.update s.voted n t
      votes := ⟨n, n, t, s.last n⟩ :: s.votes
      bids := ⟨n, t, s.last n⟩ :: s.bids }
  | vote (v c : ν) (t : ℕ) (p : Position) (hbid : ⟨c, t, p⟩ ∈ s.bids) (hlast : s.last v ≤ p)
    (hown : v ≠ c → ∀ o ∈ s.own v, pos o ≤ p)
    (hok : s.voted v < t ∨ s.voted v = t ∧ ∃ q, ⟨v, c, t, q⟩ ∈ s.votes) :
    Step members s { s with
      voted := Function.update s.voted v t
      votes := ⟨v, c, t, p⟩ :: s.votes }
  | win (n : ν) (t : ℕ) (p : Position) (Q : Finset ν) (hbid : ⟨n, t, p⟩ ∈ s.bids)
    (hQ : IsMajority members Q) (hvotes : ∀ v ∈ Q, ∃ q, ⟨v, n, t, q⟩ ∈ s.votes)
    (hnew : ∀ l ∈ s.leaders, l.term ≠ t) :
    Step members s { s with leaders := ⟨n, t, p, s.held n⟩ :: s.leaders }
  | write (n : ν) (o : ω) (own : List ω)
    (hlead : ∃ l ∈ s.leaders, l.node = n ∧ l.term = (pos o).term)
    (hvoted : s.voted n ≤ (pos o).term) (hlast : (s.last n).term ≤ (pos o).term)
    (hseq : ∀ o', (n, o') ∈ s.writes → (pos o').seq < (pos o).seq) (hpos : 1 ≤ (pos o).seq)
    (hmem : o ∈ own) (hown : ∀ o' ∈ s.own n, pos o' ≤ pos o) :
    Step members s { s with
      held := Function.update s.held n (s.held n ++ [o])
      own := Function.update s.own n own
      writes := (n, o) :: s.writes }
  | apply (q : ν) (o : ω) (hwritten : ∃ n, (n, o) ∈ s.writes)
    (hvoted : s.voted q ≤ (pos o).term)
    (hnext : (pos o).term = (s.last q).term ∧ (pos o).seq = (s.last q).seq + 1 ∨
      (s.last q).term < (pos o).term ∧ ∀ x, x ∈ s.held q ↔ Before pos s (pos o) x) :
    Step members s { s with
      held := Function.update s.held q (s.held q ++ [o])
      last := Function.update s.last q (pos o) }

/-- What it takes for a node to be counted at `p`: it holds the log up to `p`, so does every
later leadership of its own, and it has voted for nobody behind `p` in a later term, nor will
it. -/
structure Acked (s : State ν ω) (n : ν) (p : Position) : Prop where
  written : Written pos s p
  log : ∀ o, InLog pos s p o → o ∈ s.held n
  votes : ∀ v ∈ s.votes, v.voter = n → v.candidate ≠ n → p.term < v.term → p ≤ v.last
  led : ∀ l ∈ s.leaders, l.node = n → p.term < l.term → ∀ o, InLog pos s p o → o ∈ l.base
  covers : p ≤ s.last n ∨ ∃ o ∈ s.own n, p ≤ pos o

/-- An election that can no longer be won. -/
def Doomed (members : Finset ν) (s : State ν ω) (b : Bid ν) : Prop :=
  ∃ Q, IsMajority members Q ∧ ∀ v ∈ Q, b.term ≤ s.voted v ∧
    ∀ q, ⟨v, b.node, b.term, q⟩ ∉ s.votes

/-- How a leader after the first one came to lead. -/
structure Won (members : Finset ν) (s : State ν ω) (l : Leader ν ω) : Prop where
  majority : ∃ Q, IsMajority members Q ∧ ∀ v ∈ Q, ⟨v, l.node, l.term, l.last⟩ ∈ s.votes
  older : l.last.term < l.term
  written : Written pos s l.last
  log : ∀ o, InLog pos s l.last o → o ∈ l.base

structure Inv (members : Finset ν) (s : State ν ω) : Prop where
  first : ∃ l ∈ s.leaders, l.term = 0
  vote_le : ∀ v ∈ s.votes, v.term ≤ s.voted v.voter
  vote_bid : ∀ v ∈ s.votes, ⟨v.candidate, v.term, v.last⟩ ∈ s.bids
  bid_le : ∀ b ∈ s.bids, b.term ≤ s.voted b.node
  bid_unique : ∀ b ∈ s.bids, ∀ b' ∈ s.bids, b.node = b'.node → b.term = b'.term →
    b.last = b'.last
  bid_last : ∀ b ∈ s.bids, b.last.term < b.term ∨ Doomed members s b
  leader_le : ∀ l ∈ s.leaders, l.term ≤ s.voted l.node
  leader_unique : ∀ l ∈ s.leaders, ∀ l' ∈ s.leaders, l.term = l'.term → l = l'
  leader_won : ∀ l ∈ s.leaders, l.term = 0 ∨ Won pos members s l
  base_held : ∀ l ∈ s.leaders, ∀ o ∈ l.base, o ∈ s.held l.node
  held_base : ∀ l ∈ s.leaders, ∀ o ∈ s.held l.node, (pos o).term < l.term → o ∈ l.base
  held_written : ∀ n, ∀ o ∈ s.held n, ∃ m, (m, o) ∈ s.writes
  write_leader : ∀ n o, (n, o) ∈ s.writes → ∃ l ∈ s.leaders, l.node = n ∧ l.term = (pos o).term
  write_pos : ∀ n o, (n, o) ∈ s.writes → 1 ≤ (pos o).seq
  write_unique : ∀ n o n' o', (n, o) ∈ s.writes → (n', o') ∈ s.writes → pos o = pos o' → o = o'
  exact_last : ∀ n, ∀ o ∈ s.held n, pos o ≤ s.last n → InLog pos s (s.last n) o
  acked_last : ∀ n, Acked pos s n (s.last n)
  acked_bid : ∀ b ∈ s.bids, Acked pos s b.node b.last
  acked_write : ∀ n o, (n, o) ∈ s.writes → Acked pos s n (pos o)

section Growth
variable {pos} {members : Finset ν} {s s' : State ν ω}

/-- A step forgets nothing. -/
structure Grows (s s' : State ν ω) : Prop where
  voted : ∀ n, s.voted n ≤ s'.voted n
  last : ∀ n, s.last n ≤ s'.last n
  held : ∀ n, ∀ o ∈ s.held n, o ∈ s'.held n
  leaders : ∀ l ∈ s.leaders, l ∈ s'.leaders
  writes : ∀ w ∈ s.writes, w ∈ s'.writes
  votes : ∀ v ∈ s.votes, v ∈ s'.votes
  bids : ∀ b ∈ s.bids, b ∈ s'.bids

theorem le_update {f : ν → ℕ} {n : ν} {t : ℕ} (h : f n ≤ t) (m : ν) :
    f m ≤ Function.update f n t m := by
  by_cases hm : m = n
  · subst hm
    simpa using h
  · simp [hm]

theorem mem_update_concat {f : ν → List ω} {n : ν} {o : ω} (m : ν) (x : ω) (hx : x ∈ f m) :
    x ∈ Function.update f n (f n ++ [o]) m := by
  by_cases hm : m = n
  · subst hm
    simp [hx]
  · simpa [hm] using hx

theorem Step.grows (hs : Step pos members s s') : Grows s s' := by
  cases hs with
  | bid n t hterm =>
    exact ⟨le_update hterm.le, fun _ => le_rfl, fun _ _ => id, fun _ => id, fun _ => id,
      fun _ => List.mem_cons_of_mem _, fun _ => List.mem_cons_of_mem _⟩
  | vote v c t p hbid hlast hown hok =>
    have hle : s.voted v ≤ t := by
      rcases hok with hlt | ⟨heq, -⟩
      · exact hlt.le
      · exact heq.le
    exact ⟨le_update hle, fun _ => le_rfl, fun _ _ => id, fun _ => id, fun _ => id,
      fun _ => List.mem_cons_of_mem _, fun _ => id⟩
  | win n t p Q hbid hQ hvotes hnew =>
    exact ⟨fun _ => le_rfl, fun _ => le_rfl, fun _ _ => id, fun _ => List.mem_cons_of_mem _,
      fun _ => id, fun _ => id, fun _ => id⟩
  | write n o own hlead hvoted hlast hseq hpos hmem hown =>
    exact ⟨fun _ => le_rfl, fun _ => le_rfl, mem_update_concat, fun _ => id,
      fun _ => List.mem_cons_of_mem _, fun _ => id, fun _ => id⟩
  | apply q o hwritten hvoted hnext =>
    refine ⟨fun _ => le_rfl, ?_, mem_update_concat, fun _ => id, fun _ => id, fun _ => id,
      fun _ => id⟩
    intro m
    by_cases hm : m = q
    · subst hm
      simp only [Function.update_self, Position.le_iff]
      omega
    · simp [hm]

omit [DecidableEq ν] in
/-- The term of a written position has a leader. -/
theorem Written.exists_leader (h : Inv pos members s) {p : Position} (hp : Written pos s p) :
    ∃ l ∈ s.leaders, l.term = p.term := by
  rcases hp with rfl | ⟨n, o, hw, rfl⟩
  · exact h.first
  · obtain ⟨l, hl, -, hterm⟩ := h.write_leader n o hw
    exact ⟨l, hl, hterm⟩

omit [DecidableEq ν] in
theorem Written.grows {p : Position} (hp : Written pos s p) (hg : Grows s s') :
    Written pos s' p := by
  rcases hp with rfl | ⟨n, o, hw, rfl⟩
  · exact Or.inl rfl
  · exact Or.inr ⟨n, o, hg.writes _ hw, rfl⟩

omit [DecidableEq ν] in
theorem InLog.mono {p q : Position} {o : ω} (h : InLog pos s p o) (hterm : p.term = q.term)
    (hseq : p.seq ≤ q.seq) : InLog pos s q o := by
  rcases h with ⟨l, hl, hlt, ho⟩ | ⟨n, hw, hot, hos⟩
  · exact Or.inl ⟨l, hl, hlt.trans hterm, ho⟩
  · exact Or.inr ⟨n, hw, hot.trans hterm, hos.trans hseq⟩

omit [DecidableEq ν] in
/-- Two writes of one term have one writer. -/
theorem Inv.writer_unique (h : Inv pos members s) {n m : ν} {o : ω} {l : Leader ν ω}
    (hl : l ∈ s.leaders) (hn : l.node = n) (hw : (m, o) ∈ s.writes)
    (hterm : l.term = (pos o).term) : m = n := by
  obtain ⟨l', hl', hm, hterm'⟩ := h.write_leader m o hw
  rw [← hm, ← hn, h.leader_unique l' hl' l hl (hterm'.trans hterm.symm)]

/-- The log up to a written position never changes. -/
theorem Inv.inLog_of_step (h : Inv pos members s) (hs : Step pos members s s') {p : Position}
    (hp : Written pos s p) {o : ω} (ho : InLog pos s' p o) : InLog pos s p o := by
  obtain ⟨l, hl, hlterm⟩ := hp.exists_leader h
  cases hs with
  | bid => exact ho
  | vote => exact ho
  | apply => exact ho
  | win n t q Q hbid hQ hvotes hnew =>
    rcases ho with ⟨l', hl', hterm', hbase⟩ | hwrite
    · rcases List.mem_cons.mp hl' with rfl | hl'
      · exact absurd (hlterm.trans hterm'.symm) (hnew l hl)
      · exact Or.inl ⟨l', hl', hterm', hbase⟩
    · exact Or.inr hwrite
  | write n x own hlead hvoted hlast hseq hpos hmem hown =>
    rcases ho with hbase | ⟨m, hw, hot, hos⟩
    · exact Or.inl hbase
    · rcases List.mem_cons.mp hw with heq | hw
      · obtain ⟨rfl, rfl⟩ := Prod.mk.inj heq
        -- a new write lies above every written position of its term
        exfalso
        rcases hp with rfl | ⟨k, x, hx, rfl⟩
        · rw [Position.zero_seq] at hos
          omega
        · obtain ⟨l', hl', hn, hterm'⟩ := hlead
          have hk := h.writer_unique hl' hn hx (hterm'.trans hot)
          subst hk
          exact absurd hos (not_le.mpr (hseq x hx))
      · exact Or.inr ⟨m, hw, hot, hos⟩

end Growth

section Acked
variable {pos} {members : Finset ν} {s s' : State ν ω} {n : ν} {p : Position}

/-- Being counted at a position is permanent. -/
theorem Acked.step (h : Inv pos members s) (hs : Step pos members s s') (ha : Acked pos s n p) :
    Acked pos s' n p := by
  have hg := hs.grows
  have hlog : ∀ o, InLog pos s' p o → InLog pos s p o :=
    fun o => h.inLog_of_step hs ha.written
  refine ⟨ha.written.grows hg, fun o ho => hg.held n o (ha.log o (hlog o ho)), ?_, ?_, ?_⟩
  · -- a new vote goes to the voter itself or to a candidate not behind what it covers
    cases hs with
    | bid m t hterm =>
      intro v hv hvoter hcand hlt
      rcases List.mem_cons.mp hv with rfl | hv
      · exact absurd hvoter hcand
      · exact ha.votes v hv hvoter hcand hlt
    | vote v c t q hbid hlast hown hok =>
      intro v' hv' hvoter hcand hlt
      rcases List.mem_cons.mp hv' with rfl | hv'
      · dsimp only at hvoter hcand ⊢
        subst hvoter
        rcases ha.covers with hle | ⟨o, ho, hle⟩
        · exact hle.trans hlast
        · exact hle.trans (hown (Ne.symm hcand) o ho)
      · exact ha.votes v' hv' hvoter hcand hlt
    | win => exact ha.votes
    | write => exact ha.votes
    | apply => exact ha.votes
  · intro l hl hnode hlt o ho
    have ho' := hlog o ho
    cases hs with
    | bid => exact ha.led l hl hnode hlt o ho'
    | vote => exact ha.led l hl hnode hlt o ho'
    | write => exact ha.led l hl hnode hlt o ho'
    | apply => exact ha.led l hl hnode hlt o ho'
    | win m t q Q hbid hQ hvotes hnew =>
      rcases List.mem_cons.mp hl with rfl | hl
      · dsimp only at hnode ⊢
        subst hnode
        exact ha.log o ho'
      · exact ha.led l hl hnode hlt o ho'
  · rcases ha.covers with hle | ⟨o, ho, hle⟩
    · exact Or.inl (hle.trans (hg.last n))
    · cases hs with
      | bid => exact Or.inr ⟨o, ho, hle⟩
      | vote => exact Or.inr ⟨o, ho, hle⟩
      | win => exact Or.inr ⟨o, ho, hle⟩
      | apply => exact Or.inr ⟨o, ho, hle⟩
      | write m x own hlead hvoted hlast hseq hpos hmem hown =>
        by_cases hm : n = m
        · subst hm
          exact Or.inr ⟨x, by simpa using hmem, hle.trans (hown o ho)⟩
        · exact Or.inr ⟨o, by simpa [hm] using ho, hle⟩

/-- A follower that applies an operation holds the log up to it. -/
theorem Acked.apply (h : Inv pos members s) {q : ν} {o : ω} (hwritten : ∃ n, (n, o) ∈ s.writes)
    (hvoted : s.voted q ≤ (pos o).term)
    (hnext : (pos o).term = (s.last q).term ∧ (pos o).seq = (s.last q).seq + 1 ∨
      (s.last q).term < (pos o).term ∧ ∀ x, x ∈ s.held q ↔ Before pos s (pos o) x) :
    Acked pos { s with
      held := Function.update s.held q (s.held q ++ [o])
      last := Function.update s.last q (pos o) } q (pos o) := by
  obtain ⟨n, hw⟩ := hwritten
  -- what lies strictly before the operation is held already
  have hbefore : ∀ x, Before pos s (pos o) x → x ∈ s.held q := by
    intro x hx
    rcases hnext with ⟨hterm, hseq⟩ | ⟨-, hexact⟩
    · apply (h.acked_last q).log
      rcases hx with ⟨l, hl, hlt, hbase⟩ | ⟨m, hm, hxt, hxs⟩
      · exact Or.inl ⟨l, hl, hlt.trans hterm, hbase⟩
      · exact Or.inr ⟨m, hm, hxt.trans hterm, by omega⟩
    · exact (hexact x).mpr hx
  refine ⟨Or.inr ⟨n, o, hw, rfl⟩, ?_, ?_, ?_, Or.inl (by simp)⟩
  · intro x hx
    simp only [Function.update_self, List.mem_append, List.mem_singleton]
    rcases hx with hbase | ⟨m, hm, hxt, hxs⟩
    · exact Or.inl (hbefore x (Or.inl hbase))
    · rcases hxs.lt_or_eq with hlt | heq
      · exact Or.inl (hbefore x (Or.inr ⟨m, hm, hxt, hlt⟩))
      · exact Or.inr (h.write_unique m x n o hm hw (Position.ext hxt heq))
  · intro v hv hvoter _ hlt
    have := h.vote_le v hv
    rw [hvoter] at this
    omega
  · intro l hl hnode hlt
    have := h.leader_le l hl
    rw [hnode] at this
    omega

/-- A leader that writes holds its log up to the write. -/
theorem Acked.write (h : Inv pos members s) {o : ω} {own : List ω}
    (hlead : ∃ l ∈ s.leaders, l.node = n ∧ l.term = (pos o).term)
    (hvoted : s.voted n ≤ (pos o).term) (hmem : o ∈ own) :
    Acked pos { s with
      held := Function.update s.held n (s.held n ++ [o])
      own := Function.update s.own n own
      writes := (n, o) :: s.writes } n (pos o) := by
  obtain ⟨l, hl, hnode, hterm⟩ := hlead
  refine ⟨Or.inr ⟨n, o, by simp, rfl⟩, ?_, ?_, ?_, Or.inr ⟨o, by simpa using hmem, le_rfl⟩⟩
  · intro x hx
    simp only [Function.update_self, List.mem_append, List.mem_singleton]
    rcases hx with ⟨l', hl', hterm', hbase⟩ | ⟨m, hm, hxt, -⟩
    · left
      rw [h.leader_unique l' hl' l hl (hterm'.trans hterm.symm)] at hbase
      exact hnode ▸ h.base_held l hl x hbase
    · rcases List.mem_cons.mp hm with heq | hold
      · exact Or.inr (Prod.mk.inj heq).2
      · left
        have hmn := h.writer_unique hl hnode hold (hterm.trans hxt.symm)
        rw [hmn] at hold
        exact (h.acked_write n x hold).log x (Or.inr ⟨n, hold, rfl, le_rfl⟩)
  · intro v hv hvoter _ hlt
    have := h.vote_le v hv
    rw [hvoter] at this
    omega
  · intro l' hl' hnode' hlt
    have := h.leader_le l' hl'
    rw [hnode'] at this
    omega

end Acked

section Steps
variable {pos} {members : Finset ν} {s s' : State ν ω}

theorem Won.step (h : Inv pos members s) (hs : Step pos members s s') {l : Leader ν ω}
    (hw : Won pos members s l) : Won pos members s' l := by
  obtain ⟨Q, hQ, hvotes⟩ := hw.majority
  refine ⟨⟨Q, hQ, fun v hv => hs.grows.votes _ (hvotes v hv)⟩, hw.older,
    hw.written.grows hs.grows, ?_⟩
  intro o ho
  exact hw.log o (h.inLog_of_step hs hw.written ho)

theorem Doomed.step (hs : Step pos members s s') {b : Bid ν} (hb : Doomed members s b) :
    Doomed members s' b := by
  obtain ⟨Q, hQ, hdead⟩ := hb
  refine ⟨Q, hQ, fun v hv => ⟨(hdead v hv).1.trans (hs.grows.voted v), ?_⟩⟩
  intro q hq
  obtain ⟨hle, hnone⟩ := hdead v hv
  cases hs with
  | win => exact hnone q hq
  | write => exact hnone q hq
  | apply => exact hnone q hq
  | bid n t hterm =>
    rcases List.mem_cons.mp hq with heq | hq
    · simp only [Vote.mk.injEq] at heq
      obtain ⟨rfl, -, rfl, -⟩ := heq
      omega
    · exact hnone q hq
  | vote v' c t p hbid hlast hown hok =>
    rcases List.mem_cons.mp hq with heq | hq
    · simp only [Vote.mk.injEq] at heq
      obtain ⟨rfl, rfl, rfl, -⟩ := heq
      rcases hok with hlt | ⟨-, q', hq'⟩
      · omega
      · exact hnone q' hq'
    · exact hnone q hq

theorem Inv.bid_last_step (h : Inv pos members s) (hs : Step pos members s s') {b : Bid ν}
    (hb : b ∈ s.bids) : b.last.term < b.term ∨ Doomed members s' b := by
  rcases h.bid_last b hb with hlt | hdoomed
  · exact Or.inl hlt
  · exact Or.inr (hdoomed.step hs)

theorem Inv.leader_won_step (h : Inv pos members s) (hs : Step pos members s s') {l : Leader ν ω}
    (hl : l ∈ s.leaders) : l.term = 0 ∨ Won pos members s' l := by
  rcases h.leader_won l hl with hzero | hwon
  · exact Or.inl hzero
  · exact Or.inr (hwon.step h hs)

/-- An election of a node that already follows that term, or a later one, cannot be won: the
voters of the leader it follows have moved past its term. -/
theorem Inv.bid_last_of_bid (h : Inv pos members s) {n : ν} {t : ℕ} (hterm : s.voted n < t) :
    (s.last n).term < t ∨ Doomed members { s with
      voted := Function.update s.voted n t
      votes := ⟨n, n, t, s.last n⟩ :: s.votes
      bids := ⟨n, t, s.last n⟩ :: s.bids } ⟨n, t, s.last n⟩ := by
  rcases lt_or_ge (s.last n).term t with hlt | hge
  · exact Or.inl hlt
  · right
    obtain ⟨l, hl, hlterm⟩ := (h.acked_last n).written.exists_leader h
    have hwon : Won pos members s l := by
      rcases h.leader_won l hl with hzero | hwon
      · omega
      · exact hwon
    obtain ⟨Q, hQ, hvotes⟩ := hwon.majority
    have hpast : ∀ v ∈ Q, t ≤ s.voted v := by
      intro v hv
      have := h.vote_le _ (hvotes v hv)
      dsimp only at this
      omega
    refine ⟨Q, hQ, fun v hv => ⟨(hpast v hv).trans (le_update hterm.le v), ?_⟩⟩
    intro q hq
    rcases List.mem_cons.mp hq with heq | hq
    · simp only [Vote.mk.injEq] at heq
      have := hpast v hv
      rw [heq.1] at this
      omega
    · have := h.bid_le _ (h.vote_bid _ hq)
      dsimp only at this
      omega

theorem Inv.bid (h : Inv pos members s) {n : ν} {t : ℕ} (hterm : s.voted n < t) :
    Inv pos members { s with
      voted := Function.update s.voted n t
      votes := ⟨n, n, t, s.last n⟩ :: s.votes
      bids := ⟨n, t, s.last n⟩ :: s.bids } := by
  have hs : Step pos members s _ := Step.bid n t hterm
  have hg := hs.grows
  refine { h with
    vote_le := ?_, vote_bid := ?_, bid_le := ?_, bid_unique := ?_, bid_last := ?_,
    leader_le := ?_, leader_won := ?_, acked_last := ?_, acked_bid := ?_, acked_write := ?_ }
  · intro v hv
    rcases List.mem_cons.mp hv with rfl | hv
    · simp
    · exact (h.vote_le v hv).trans (hg.voted v.voter)
  · intro v hv
    rcases List.mem_cons.mp hv with rfl | hv
    · exact List.mem_cons_self
    · exact List.mem_cons_of_mem _ (h.vote_bid v hv)
  · intro b hb
    rcases List.mem_cons.mp hb with rfl | hb
    · simp
    · exact (h.bid_le b hb).trans (hg.voted b.node)
  · intro b hb b' hb' hnode hbterm
    rcases List.mem_cons.mp hb with rfl | hb <;> rcases List.mem_cons.mp hb' with rfl | hb'
    · rfl
    · have := h.bid_le b' hb'
      dsimp only at hnode hbterm
      rw [← hnode] at this
      omega
    · have := h.bid_le b hb
      dsimp only at hnode hbterm
      rw [hnode] at this
      omega
    · exact h.bid_unique b hb b' hb' hnode hbterm
  · intro b hb
    rcases List.mem_cons.mp hb with rfl | hb
    · exact h.bid_last_of_bid hterm
    · exact h.bid_last_step hs hb
  · intro l hl
    exact (h.leader_le l hl).trans (hg.voted l.node)
  · intro l hl
    exact h.leader_won_step hs hl
  · intro m
    exact (h.acked_last m).step h hs
  · intro b hb
    rcases List.mem_cons.mp hb with rfl | hb
    · exact (h.acked_last n).step h hs
    · exact (h.acked_bid b hb).step h hs
  · intro m o hw
    exact (h.acked_write m o hw).step h hs

theorem Inv.vote (h : Inv pos members s) {v c : ν} {t : ℕ} {p : Position}
    (hbid : ⟨c, t, p⟩ ∈ s.bids) (hlast : s.last v ≤ p)
    (hown : v ≠ c → ∀ o ∈ s.own v, pos o ≤ p)
    (hok : s.voted v < t ∨ s.voted v = t ∧ ∃ q, ⟨v, c, t, q⟩ ∈ s.votes) :
    Inv pos members { s with
      voted := Function.update s.voted v t
      votes := ⟨v, c, t, p⟩ :: s.votes } := by
  have hs : Step pos members s _ := Step.vote v c t p hbid hlast hown hok
  have hg := hs.grows
  refine { h with
    vote_le := ?_, vote_bid := ?_, bid_le := ?_, bid_last := ?_, leader_le := ?_,
    leader_won := ?_, acked_last := ?_, acked_bid := ?_, acked_write := ?_ }
  · intro v' hv'
    rcases List.mem_cons.mp hv' with rfl | hv'
    · simp
    · exact (h.vote_le v' hv').trans (hg.voted v'.voter)
  · intro v' hv'
    rcases List.mem_cons.mp hv' with rfl | hv'
    · exact hbid
    · exact h.vote_bid v' hv'
  · intro b hb
    exact (h.bid_le b hb).trans (hg.voted b.node)
  · intro b hb
    exact h.bid_last_step hs hb
  · intro l hl
    exact (h.leader_le l hl).trans (hg.voted l.node)
  · intro l hl
    exact h.leader_won_step hs hl
  · intro m
    exact (h.acked_last m).step h hs
  · intro b hb
    exact (h.acked_bid b hb).step h hs
  · intro m o hw
    exact (h.acked_write m o hw).step h hs

/-- The winner of an election was not behind any of its voters, itself included. -/
theorem Inv.won_of_win (h : Inv pos members s) {n : ν} {t : ℕ} {p : Position} {Q : Finset ν}
    (hbid : ⟨n, t, p⟩ ∈ s.bids) (hQ : IsMajority members Q)
    (hvotes : ∀ v ∈ Q, ∃ q, ⟨v, n, t, q⟩ ∈ s.votes) : Won pos members s ⟨n, t, p, s.held n⟩ := by
  have hacked := h.acked_bid _ hbid
  have hsame : ∀ v ∈ Q, ⟨v, n, t, p⟩ ∈ s.votes := by
    intro v hv
    obtain ⟨q, hq⟩ := hvotes v hv
    have := h.bid_unique _ (h.vote_bid _ hq) _ hbid rfl rfl
    dsimp only at this
    exact this ▸ hq
  refine ⟨⟨Q, hQ, hsame⟩, ?_, hacked.written, hacked.log⟩
  rcases h.bid_last _ hbid with hlt | ⟨R, hR, hdead⟩
  · exact hlt
  · obtain ⟨v, hvQ, hvR⟩ := hQ.exists_common hR
    exact absurd (hsame v hvQ) ((hdead v hvR).2 p)

theorem Inv.win (h : Inv pos members s) {n : ν} {t : ℕ} {p : Position} {Q : Finset ν}
    (hbid : ⟨n, t, p⟩ ∈ s.bids) (hQ : IsMajority members Q)
    (hvotes : ∀ v ∈ Q, ∃ q, ⟨v, n, t, q⟩ ∈ s.votes) (hnew : ∀ l ∈ s.leaders, l.term ≠ t) :
    Inv pos members { s with leaders := ⟨n, t, p, s.held n⟩ :: s.leaders } := by
  have hs : Step pos members s _ := Step.win n t p Q hbid hQ hvotes hnew
  obtain ⟨first, hfirst, hzero⟩ := h.first
  refine { h with
    first := ⟨first, List.mem_cons_of_mem _ hfirst, hzero⟩, bid_last := ?_, leader_le := ?_,
    leader_unique := ?_, leader_won := ?_, base_held := ?_, held_base := ?_, write_leader := ?_,
    exact_last := ?_, acked_last := ?_, acked_bid := ?_, acked_write := ?_ }
  · intro b hb
    exact h.bid_last_step hs hb
  · intro l hl
    rcases List.mem_cons.mp hl with rfl | hl
    · exact h.bid_le _ hbid
    · exact h.leader_le l hl
  · intro l hl l' hl' hterm
    rcases List.mem_cons.mp hl with rfl | hl <;> rcases List.mem_cons.mp hl' with rfl | hl'
    · rfl
    · exact absurd hterm.symm (hnew l' hl')
    · exact absurd hterm (hnew l hl)
    · exact h.leader_unique l hl l' hl' hterm
  · intro l hl
    rcases List.mem_cons.mp hl with rfl | hl
    · exact Or.inr ((h.won_of_win hbid hQ hvotes).step h hs)
    · exact h.leader_won_step hs hl
  · intro l hl o ho
    rcases List.mem_cons.mp hl with rfl | hl
    · exact ho
    · exact h.base_held l hl o ho
  · intro l hl o ho hlt
    rcases List.mem_cons.mp hl with rfl | hl
    · exact ho
    · exact h.held_base l hl o ho hlt
  · intro m o hw
    obtain ⟨l, hl, hl'⟩ := h.write_leader m o hw
    exact ⟨l, List.mem_cons_of_mem _ hl, hl'⟩
  · intro m o ho hle
    rcases h.exact_last m o ho hle with ⟨l, hl, hl'⟩ | hwrite
    · exact Or.inl ⟨l, List.mem_cons_of_mem _ hl, hl'⟩
    · exact Or.inr hwrite
  · intro m
    exact (h.acked_last m).step h hs
  · intro b hb
    exact (h.acked_bid b hb).step h hs
  · intro m o hw
    exact (h.acked_write m o hw).step h hs

theorem Inv.write (h : Inv pos members s) {n : ν} {o : ω} {own : List ω}
    (hlead : ∃ l ∈ s.leaders, l.node = n ∧ l.term = (pos o).term)
    (hvoted : s.voted n ≤ (pos o).term) (hlast : (s.last n).term ≤ (pos o).term)
    (hseq : ∀ o', (n, o') ∈ s.writes → (pos o').seq < (pos o).seq) (hpos : 1 ≤ (pos o).seq)
    (hmem : o ∈ own) (hown : ∀ o' ∈ s.own n, pos o' ≤ pos o) :
    Inv pos members { s with
      held := Function.update s.held n (s.held n ++ [o])
      own := Function.update s.own n own
      writes := (n, o) :: s.writes } := by
  have hs : Step pos members s _ :=
    Step.write n o own hlead hvoted hlast hseq hpos hmem hown
  have hg := hs.grows
  have hheld : ∀ m x, x ∈ Function.update s.held n (s.held n ++ [o]) m →
      x ∈ s.held m ∨ m = n ∧ x = o := by
    intro m x hx
    by_cases hm : m = n
    · subst hm
      simpa using hx
    · exact Or.inl (by simpa [hm] using hx)
  refine { h with
    bid_last := ?_, leader_won := ?_, base_held := ?_, held_base := ?_, held_written := ?_,
    write_leader := ?_, write_pos := ?_, write_unique := ?_, exact_last := ?_,
    acked_last := ?_, acked_bid := ?_, acked_write := ?_ }
  · intro b hb
    exact h.bid_last_step hs hb
  · intro l hl
    exact h.leader_won_step hs hl
  · intro l hl x hx
    exact hg.held _ _ (h.base_held l hl x hx)
  · intro l hl x hx hlt
    rcases hheld _ _ hx with hx | ⟨hnode, rfl⟩
    · exact h.held_base l hl x hx hlt
    · have := h.leader_le l hl
      rw [hnode] at this
      omega
  · intro m x hx
    rcases hheld _ _ hx with hx | ⟨-, rfl⟩
    · obtain ⟨k, hk⟩ := h.held_written m x hx
      exact ⟨k, List.mem_cons_of_mem _ hk⟩
    · exact ⟨n, List.mem_cons_self⟩
  · intro m x hw
    rcases List.mem_cons.mp hw with heq | hw
    · obtain ⟨rfl, rfl⟩ := Prod.mk.inj heq
      exact hlead
    · exact h.write_leader m x hw
  · intro m x hw
    rcases List.mem_cons.mp hw with heq | hw
    · obtain ⟨rfl, rfl⟩ := Prod.mk.inj heq
      exact hpos
    · exact h.write_pos m x hw
  · -- a second write at the same position would have the same writer and a larger number
    have hfresh : ∀ m x, (m, x) ∈ s.writes → pos x ≠ pos o := by
      intro m x hw heq
      obtain ⟨l, hl, hnode, hterm⟩ := hlead
      have hmn := h.writer_unique hl hnode hw (by rw [hterm, heq])
      rw [hmn] at hw
      have := hseq x hw
      rw [heq] at this
      exact lt_irrefl _ this
    intro m x m' x' hw hw' heq
    rcases List.mem_cons.mp hw with hnew | hw <;> rcases List.mem_cons.mp hw' with hnew' | hw'
    · rw [(Prod.mk.inj hnew).2, (Prod.mk.inj hnew').2]
    · rw [(Prod.mk.inj hnew).2] at heq
      exact absurd heq.symm (hfresh m' x' hw')
    · rw [(Prod.mk.inj hnew').2] at heq
      exact absurd heq (hfresh m x hw)
    · exact h.write_unique m x m' x' hw hw' heq
  · intro m x hx hle
    rcases hheld _ _ hx with hx | ⟨rfl, rfl⟩
    · rcases h.exact_last m x hx hle with hbase | ⟨k, hk, hrest⟩
      · exact Or.inl hbase
      · exact Or.inr ⟨k, List.mem_cons_of_mem _ hk, hrest⟩
    · rw [Position.le_iff] at hle
      dsimp only at hle
      exact Or.inr ⟨m, List.mem_cons_self, by dsimp only; omega, by dsimp only; omega⟩
  · intro m
    exact (h.acked_last m).step h hs
  · intro b hb
    exact (h.acked_bid b hb).step h hs
  · intro m x hw
    rcases List.mem_cons.mp hw with heq | hw
    · obtain ⟨rfl, rfl⟩ := Prod.mk.inj heq
      exact Acked.write h hlead hvoted hmem
    · exact (h.acked_write m x hw).step h hs

theorem Inv.apply (h : Inv pos members s) {q : ν} {o : ω} (hwritten : ∃ n, (n, o) ∈ s.writes)
    (hvoted : s.voted q ≤ (pos o).term)
    (hnext : (pos o).term = (s.last q).term ∧ (pos o).seq = (s.last q).seq + 1 ∨
      (s.last q).term < (pos o).term ∧ ∀ x, x ∈ s.held q ↔ Before pos s (pos o) x) :
    Inv pos members { s with
      held := Function.update s.held q (s.held q ++ [o])
      last := Function.update s.last q (pos o) } := by
  have hs : Step pos members s _ := Step.apply q o hwritten hvoted hnext
  have hg := hs.grows
  obtain ⟨n, hw⟩ := hwritten
  have hheld : ∀ m x, x ∈ Function.update s.held q (s.held q ++ [o]) m →
      x ∈ s.held m ∨ m = q ∧ x = o := by
    intro m x hx
    by_cases hm : m = q
    · subst hm
      simpa using hx
    · exact Or.inl (by simpa [hm] using hx)
  refine { h with
    bid_last := ?_, leader_won := ?_, base_held := ?_, held_base := ?_, held_written := ?_,
    exact_last := ?_, acked_last := ?_, acked_bid := ?_, acked_write := ?_ }
  · intro b hb
    exact h.bid_last_step hs hb
  · intro l hl
    exact h.leader_won_step hs hl
  · intro l hl x hx
    exact hg.held _ _ (h.base_held l hl x hx)
  · intro l hl x hx hlt
    rcases hheld _ _ hx with hx | ⟨hnode, rfl⟩
    · exact h.held_base l hl x hx hlt
    · have := h.leader_le l hl
      rw [hnode] at this
      omega
  · intro m x hx
    rcases hheld _ _ hx with hx | ⟨-, rfl⟩
    · exact h.held_written m x hx
    · exact ⟨n, hw⟩
  · intro m x hx hle
    by_cases hm : m = q
    · subst hm
      simp only [Function.update_self] at hle ⊢
      rcases hheld _ _ hx with hx | ⟨-, rfl⟩
      · rcases hnext with ⟨hterm, hseq⟩ | ⟨-, hexact⟩
        · rcases le_or_gt (pos x) (s.last m) with hle' | hgt
          · exact (h.exact_last m x hx hle').mono hterm.symm (by omega)
          · -- between the old and the new position there is only the new one
            obtain ⟨k, hk⟩ := h.held_written m x hx
            rw [Position.le_iff] at hle
            rw [Position.lt_iff] at hgt
            exact Or.inr ⟨k, hk, by omega, by omega⟩
        · rcases (hexact x).mp hx with hbase | ⟨k, hk, hxt, hxs⟩
          · exact Or.inl hbase
          · exact Or.inr ⟨k, hk, hxt, hxs.le⟩
      · exact Or.inr ⟨n, hw, rfl, le_rfl⟩
    · simp only [Function.update_of_ne hm] at hle hx ⊢
      exact h.exact_last m x hx hle
  · intro m
    by_cases hm : m = q
    · subst hm
      simpa using Acked.apply h ⟨n, hw⟩ hvoted hnext
    · simpa [hm] using (h.acked_last m).step h hs
  · intro b hb
    exact (h.acked_bid b hb).step h hs
  · intro m x hw
    exact (h.acked_write m x hw).step h hs

theorem Inv.step (h : Inv pos members s) (hs : Step pos members s s') : Inv pos members s' := by
  cases hs with
  | bid n t hterm => exact h.bid hterm
  | vote v c t p hbid hlast hown hok => exact h.vote hbid hlast hown hok
  | win n t p Q hbid hQ hvotes hnew => exact h.win hbid hQ hvotes hnew
  | write n o own hlead hvoted hlast hseq hpos hmem hown =>
    exact h.write hlead hvoted hlast hseq hpos hmem hown
  | apply q o hwritten hvoted hnext => exact h.apply hwritten hvoted hnext

end Steps

section Completeness
variable {pos} {members : Finset ν} {s s' : State ν ω}

/-- The node has been counted at or above `p` in the term of `p`. -/
def Reached (pos : ω → Position) (s : State ν ω) (n : ν) (p : Position) : Prop :=
  ∃ q, Acked pos s n q ∧ q.term = p.term ∧ p.seq ≤ q.seq

theorem Reached.step (h : Inv pos members s) (hs : Step pos members s s') {n : ν} {p : Position}
    (hr : Reached pos s n p) : Reached pos s' n p := by
  obtain ⟨q, hacked, hq⟩ := hr
  exact ⟨q, hacked.step h hs, hq⟩

/-- Leader completeness: what a majority has reached, every later leader held when it won. -/
theorem Inv.complete (h : Inv pos members s) {Q : Finset ν} {p : Position}
    (hQ : IsMajority members Q) (hreached : ∀ n ∈ Q, Reached pos s n p) {l : Leader ν ω}
    (hl : l ∈ s.leaders) (hlt : p.term < l.term) {o : ω} (ho : InLog pos s p o) : o ∈ l.base := by
  induction hk : l.term using Nat.strong_induction_on generalizing l with
  | _ k ih =>
    have hwon : Won pos members s l := by
      rcases h.leader_won l hl with hzero | hwon
      · omega
      · exact hwon
    obtain ⟨R, hR, hvotes⟩ := hwon.majority
    obtain ⟨v, hvQ, hvR⟩ := hQ.exists_common hR
    obtain ⟨q, hacked, hqterm, hqseq⟩ := hreached v hvQ
    have hqo : InLog pos s q o := ho.mono hqterm.symm hqseq
    by_cases hself : l.node = v
    · exact hacked.led l hl hself (by omega) o hqo
    · have hle := hacked.votes _ (hvotes v hvR) rfl hself (by dsimp only; omega)
      rw [Position.le_iff] at hle
      dsimp only at hle
      rcases hle with hterm | ⟨hterm, hseq⟩
      · -- the winner followed a later leader, which held the operation by induction
        obtain ⟨l', hl', hl'term⟩ := hwon.written.exists_leader h
        have holder := hwon.older
        have ho' := ih l'.term (by omega) hl' (by omega) rfl
        exact hwon.log o (Or.inl ⟨l', hl', hl'term, ho'⟩)
      · exact hwon.log o (hqo.mono hterm hseq)

end Completeness

end SkeinDB.Consensus.LeaderLog
