import Atp.Runs
import Mathlib

/-!
Queries that are answered over two channels: the reply gives the id of the
answer, and the records follow in packets with that id, closed by one without a
record.  The client takes one id for a refusal and does not wait for its packets.
-/

namespace Atp.StreamedReplies

structure Packet (ι ρ : Type*) where
  id : ι
  record : Option ρ

/-- What the client is doing: nothing, waiting for the server to see its query,
waiting for a reply that is under way, or reading packets. -/
inductive Phase (ι κ ρ : Type*) where
  | idle
  | asked (query : κ)
  | told (id : ι)
  | receiving (id : ι) (received : List ρ)

/-- `queue` holds the packets under way, `pending` those the server has yet to
send, and `logs` what was received for each of the queries that are over. -/
structure Session (ι κ ρ : Type*) where
  todo : List κ
  phase : Phase ι κ ρ
  logs : List (List ρ)
  queue : List (Packet ι ρ)
  pending : List (Packet ι ρ)
  served : Nat

inductive Party where
  | client | server
deriving DecidableEq

variable {ι κ ρ : Type*}

def init (todo : List κ) : Session ι κ ρ := ⟨todo, .idle, [], [], [], 0⟩

def stream (id : ι) (records : List ρ) : List (Packet ι ρ) :=
  records.map (fun r => ⟨id, some r⟩) ++ [⟨id, none⟩]

def finish (s : Session ι κ ρ) (received : List ρ) : Session ι κ ρ :=
  { s with phase := .idle, logs := s.logs ++ [received] }

section

variable [DecidableEq ι] (refusal : ι) (ids : Nat → ι) (answers : κ → List ρ)

def clientStep (s : Session ι κ ρ) : Option (Session ι κ ρ) :=
  match s.phase with
  | .idle =>
      match s.todo with
      | [] => none
      | query :: todo => some { s with todo := todo, phase := .asked query }
  | .asked _ => none
  | .told id =>
      some (if id = refusal then finish s [] else { s with phase := .receiving id [] })
  | .receiving id received =>
      match s.queue with
      | [] => none
      | packet :: queue =>
          let s := { s with queue := queue }
          some (if id ≠ packet.id then finish s received
            else match packet.record with
              | some record => { s with phase := .receiving id (received ++ [record]) }
              | none => finish s received)

def serverStep (s : Session ι κ ρ) : Option (Session ι κ ρ) :=
  match s.pending with
  | packet :: pending => some { s with queue := s.queue ++ [packet], pending := pending }
  | [] =>
      match s.phase with
      | .asked query => some { s with
          phase := .told (ids s.served)
          pending := stream (ids s.served) (answers query)
          served := s.served + 1 }
      | _ => none

def step (s : Session ι κ ρ) : Party → Option (Session ι κ ρ)
  | .client => clientStep refusal s
  | .server => serverStep ids answers s

/-! ### What the client will receive -/

/-- What a client that reads packets to the end of the stream has received, and
the packets it leaves. -/
def collect (id : ι) (received : List ρ) : List (Packet ι ρ) → List ρ × List (Packet ι ρ)
  | [] => (received, [])
  | packet :: packets =>
      if id ≠ packet.id then (received, packets)
      else match packet.record with
        | some record => collect id (received ++ [record]) packets
        | none => (received, packets)

def afterReply (id : ι) (packets : List (Packet ι ρ)) : List ρ × List (Packet ι ρ) :=
  if id = refusal then ([], packets) else collect id [] packets

/-- What is received for each of the queries to come, if these packets are left
over and the next id is the `n`-th. -/
def logsAfter : List (Packet ι ρ) → Nat → List κ → List (List ρ)
  | _, _, [] => []
  | packets, n, query :: todo =>
      let r := afterReply refusal (ids n) (packets ++ stream (ids n) (answers query))
      r.1 :: logsAfter r.2 (n + 1) todo

def outcome (s : Session ι κ ρ) : List (List ρ) :=
  let packets := s.queue ++ s.pending
  s.logs ++ match s.phase with
    | .idle => logsAfter refusal ids answers packets s.served s.todo
    | .asked query => logsAfter refusal ids answers packets s.served (query :: s.todo)
    | .told id =>
        let r := afterReply refusal id packets
        r.1 :: logsAfter refusal ids answers r.2 s.served s.todo
    | .receiving id received =>
        let r := collect id received packets
        r.1 :: logsAfter refusal ids answers r.2 s.served s.todo

def work (s : Session ι κ ρ) : Nat :=
  (s.todo.map fun query => 2 * (answers query).length + 5).sum +
    (match s.phase with
      | .idle => 0
      | .asked query => 2 * (answers query).length + 4
      | .told _ => 1
      | .receiving _ _ => 0) +
    2 * s.pending.length + s.queue.length

end

/-- While an answer is awaited, the packets left end with a closing one. -/
def Closed (s : Session ι κ ρ) : Prop :=
  match s.phase with
  | .idle | .asked _ => True
  | .told _ | .receiving _ _ => ∃ packets id, s.queue ++ s.pending = packets ++ [⟨id, none⟩]

theorem serverStep_cases {ids : Nat → ι} {answers : κ → List ρ} {s s' : Session ι κ ρ}
    (hstep : serverStep ids answers s = some s') :
    (∃ packet pending, s.pending = packet :: pending ∧
      s' = { s with queue := s.queue ++ [packet], pending := pending }) ∨
    ∃ query, s.pending = [] ∧ s.phase = .asked query ∧
      s' = { s with
        phase := .told (ids s.served)
        pending := stream (ids s.served) (answers query)
        served := s.served + 1 } := by
  unfold serverStep at hstep
  split at hstep
  · exact .inl ⟨_, _, ‹_›, (Option.some.inj hstep).symm⟩
  · split at hstep
    · exact .inr ⟨_, ‹_›, ‹_›, (Option.some.inj hstep).symm⟩
    · cases hstep

section

variable [DecidableEq ι] {refusal : ι} {ids : Nat → ι} {answers : κ → List ρ}

theorem clientStep_cases {s s' : Session ι κ ρ} (hstep : clientStep refusal s = some s') :
    (∃ query todo, s.phase = .idle ∧ s.todo = query :: todo ∧
      s' = { s with todo := todo, phase := .asked query }) ∨
    (∃ id, s.phase = .told id ∧ id = refusal ∧ s' = finish s []) ∨
    (∃ id, s.phase = .told id ∧ id ≠ refusal ∧
      s' = { s with phase := .receiving id [] }) ∨
    (∃ id received packet queue, s.phase = .receiving id received ∧
      s.queue = packet :: queue ∧ (id ≠ packet.id ∨ packet.record = none) ∧
      s' = finish { s with queue := queue } received) ∨
    ∃ id received packet queue record, s.phase = .receiving id received ∧
      s.queue = packet :: queue ∧ id = packet.id ∧ packet.record = some record ∧
      s' = { s with queue := queue, phase := .receiving id (received ++ [record]) } := by
  unfold clientStep at hstep
  split at hstep
  · split at hstep
    · cases hstep
    · exact .inl ⟨_, _, ‹_›, ‹_›, (Option.some.inj hstep).symm⟩
  · cases hstep
  · obtain rfl := Option.some.inj hstep
    split_ifs with hid
    · exact .inr (.inl ⟨_, ‹_›, hid, rfl⟩)
    · exact .inr (.inr (.inl ⟨_, ‹_›, hid, rfl⟩))
  · split at hstep
    · cases hstep
    · obtain rfl := Option.some.inj hstep
      split_ifs with hid
      · exact .inr (.inr (.inr (.inl ⟨_, _, _, _, ‹_›, ‹_›, .inl hid, rfl⟩)))
      · split
        · exact .inr (.inr (.inr (.inr ⟨_, _, _, _, _, ‹_›, ‹_›, not_not.mp hid, ‹_›, rfl⟩)))
        · exact .inr (.inr (.inr (.inl ⟨_, _, _, _, ‹_›, ‹_›, .inr ‹_›, rfl⟩)))

/-- What will have been received in the end does not depend on the next step. -/
theorem outcome_of_step {s s' : Session ι κ ρ} {party : Party}
    (hstep : step refusal ids answers s party = some s') :
    outcome refusal ids answers s' = outcome refusal ids answers s := by
  obtain ⟨todo, phase, logs, queue, pending, served⟩ := s
  cases party with
  | client =>
      rcases clientStep_cases hstep with ⟨query, todo', hphase, htodo, rfl⟩ |
        ⟨id, hphase, hid, rfl⟩ | ⟨id, hphase, hid, rfl⟩ |
        ⟨id, received, packet, queue', hphase, hqueue, hlast, rfl⟩ |
        ⟨id, received, packet, queue', record, hphase, hqueue, hid, hrecord, rfl⟩
      · obtain rfl : phase = .idle := hphase
        obtain rfl : todo = query :: todo' := htodo
        rfl
      · obtain rfl : phase = .told id := hphase
        simp [outcome, finish, afterReply, hid]
      · obtain rfl : phase = .told id := hphase
        simp [outcome, afterReply, hid]
      · obtain rfl : phase = .receiving id received := hphase
        obtain rfl : queue = packet :: queue' := hqueue
        have hcollect : collect id received (packet :: queue' ++ pending) =
            (received, queue' ++ pending) := by
          rw [List.cons_append, collect]
          rcases hlast with hid | hnone
          · rw [if_pos hid]
          · rw [hnone, ite_self]
        simp only [outcome, finish, hcollect, List.append_assoc, List.singleton_append]
      · obtain rfl : phase = .receiving id received := hphase
        obtain rfl : queue = packet :: queue' := hqueue
        have hcollect : collect id received (packet :: queue' ++ pending) =
            collect id (received ++ [record]) (queue' ++ pending) := by
          rw [List.cons_append, collect, if_neg (not_not.mpr hid), hrecord]
        simp only [outcome, hcollect]
  | server =>
      rcases serverStep_cases hstep with ⟨packet, pending', hpending, rfl⟩ |
        ⟨query, hpending, hphase, rfl⟩
      · obtain rfl : pending = packet :: pending' := hpending
        simp only [outcome, List.append_assoc, List.singleton_append]
      · obtain rfl : pending = [] := hpending
        obtain rfl : phase = .asked query := hphase
        simp only [outcome, logsAfter, List.append_nil]

theorem work_of_step {s s' : Session ι κ ρ} {party : Party}
    (hstep : step refusal ids answers s party = some s') :
    work answers s' < work answers s := by
  obtain ⟨todo, phase, logs, queue, pending, served⟩ := s
  cases party with
  | client =>
      rcases clientStep_cases hstep with ⟨query, todo', hphase, htodo, rfl⟩ |
        ⟨id, hphase, -, rfl⟩ | ⟨id, hphase, -, rfl⟩ |
        ⟨id, received, packet, queue', hphase, hqueue, -, rfl⟩ |
        ⟨id, received, packet, queue', record, hphase, hqueue, -, -, rfl⟩
      · obtain rfl : phase = .idle := hphase
        obtain rfl : todo = query :: todo' := htodo
        simp only [work, List.map_cons, List.sum_cons]
        omega
      · obtain rfl : phase = .told id := hphase
        simp only [work, finish]
        omega
      · obtain rfl : phase = .told id := hphase
        simp only [work]
        omega
      · obtain rfl : phase = .receiving id received := hphase
        obtain rfl : queue = packet :: queue' := hqueue
        simp only [work, finish, List.length_cons]
        omega
      · obtain rfl : phase = .receiving id received := hphase
        obtain rfl : queue = packet :: queue' := hqueue
        simp only [work, List.length_cons]
        omega
  | server =>
      rcases serverStep_cases hstep with ⟨packet, pending', hpending, rfl⟩ |
        ⟨query, hpending, hphase, rfl⟩
      · obtain rfl : pending = packet :: pending' := hpending
        simp only [work, List.length_append, List.length_cons, List.length_nil]
        omega
      · obtain rfl : pending = [] := hpending
        obtain rfl : phase = .asked query := hphase
        simp only [work, stream, List.length_append, List.length_map, List.length_cons,
          List.length_nil]
        omega

theorem closed_of_step {s s' : Session ι κ ρ} {party : Party} (hs : Closed s)
    (hstep : step refusal ids answers s party = some s') : Closed s' := by
  obtain ⟨todo, phase, logs, queue, pending, served⟩ := s
  cases party with
  | client =>
      rcases clientStep_cases hstep with ⟨query, todo', -, -, rfl⟩ |
        ⟨id, -, -, rfl⟩ | ⟨id, hphase, -, rfl⟩ |
        ⟨id, received, packet, queue', -, -, -, rfl⟩ |
        ⟨id, received, packet, queue', record, hphase, hqueue, -, hrecord, rfl⟩
      · trivial
      · trivial
      · obtain rfl : phase = .told id := hphase
        exact hs
      · trivial
      · obtain rfl : phase = .receiving id received := hphase
        obtain rfl : queue = packet :: queue' := hqueue
        obtain ⟨packets, last, hpackets⟩ := hs
        rcases packets with _ | ⟨first, packets⟩
        · obtain rfl := (List.cons.inj hpackets).1
          cases hrecord
        · exact ⟨packets, last, (List.cons.inj hpackets).2⟩
  | server =>
      rcases serverStep_cases hstep with ⟨packet, pending', hpending, rfl⟩ |
        ⟨query, hpending, hphase, rfl⟩
      · obtain rfl : pending = packet :: pending' := hpending
        cases phase with
        | idle => trivial
        | asked query => trivial
        | told id => simpa [Closed] using hs
        | receiving id received => simpa [Closed] using hs
      · exact ⟨queue ++ _, _, (List.append_assoc _ _ _).symm⟩

theorem done_of_stuck {s : Session ι κ ρ} (hs : Closed s)
    (hstuck : Runs.Stuck (step refusal ids answers) s) : s.phase = .idle ∧ s.todo = [] := by
  obtain ⟨todo, phase, logs, queue, pending, served⟩ := s
  have hclient := hstuck .client
  have hserver := hstuck .server
  cases pending with
  | cons packet pending => cases hserver
  | nil =>
      cases phase with
      | idle =>
          cases todo with
          | nil => exact ⟨rfl, rfl⟩
          | cons query todo => cases hclient
      | asked query => cases hserver
      | told id => cases hclient
      | receiving id received =>
          cases queue with
          | cons packet queue => cases hclient
          | nil =>
              obtain ⟨packets, last, hpackets⟩ := hs
              exact absurd hpackets.symm (by simp)

/-- However the steps of the two parties are interleaved, the session comes to an
end, and what has been received then for each of the queries is the same. -/
theorem ends_with_outcome (todo : List κ) :
    (∃ bound, ∀ schedule s, Runs.run (step refusal ids answers) (init todo) schedule = some s →
      schedule.length ≤ bound) ∧
    (∃ schedule s, Runs.run (step refusal ids answers) (init todo) schedule = some s ∧
      Runs.Stuck (step refusal ids answers) s) ∧
    ∀ schedule s, Runs.run (step refusal ids answers) (init todo) schedule = some s →
      Runs.Stuck (step refusal ids answers) s →
        s.logs = logsAfter refusal ids answers [] 0 todo := by
  have hwork : ∀ s party s', step refusal ids answers s party = some s' →
      work answers s' < work answers s := fun _ _ _ => work_of_step
  refine ⟨⟨_, fun schedule s hrun => Runs.length_le_of_run _ hwork hrun⟩,
    Runs.exists_run_stuck _ hwork _, fun schedule s hrun hstuck => ?_⟩
  have hinv : Closed s ∧ outcome refusal ids answers s =
      outcome refusal ids answers (init todo) := by
    refine Runs.inv_of_run (step refusal ids answers) (P := fun s => Closed s ∧
      outcome refusal ids answers s = outcome refusal ids answers (init todo))
      (fun s party s' hs hstep => ?_) ⟨?_, rfl⟩ hrun
    · exact ⟨closed_of_step hs.1 hstep, (outcome_of_step hstep).trans hs.2⟩
    · trivial
  obtain ⟨hclosed, houtcome⟩ := hinv
  obtain ⟨hphase, htodo⟩ := done_of_stuck hclosed hstuck
  obtain ⟨todo', phase, logs, queue, pending, served⟩ := s
  obtain rfl : phase = .idle := hphase
  obtain rfl : todo' = [] := htodo
  exact (List.append_nil logs).symm.trans houtcome

/-! ### When every query receives its answer -/

theorem collect_stream (id : ι) (received records : List ρ) :
    collect id received (stream id records) = (received ++ records, []) := by
  induction records generalizing received with
  | nil => simp [stream, collect]
  | cons record records ih =>
      have hstream : stream id (record :: records) = ⟨id, some record⟩ :: stream id records :=
        rfl
      rw [hstream, collect, if_neg (not_not.mpr rfl)]
      simp only [ih, List.append_assoc, List.singleton_append]

def Leftover (packets : List (Packet ι ρ)) : Prop :=
  packets ≠ [] ∧ ∀ packet ∈ packets, packet.record = none

theorem afterReply_cons (id : ι) {packet : Packet ι ρ} (hpacket : packet.record = none)
    (packets : List (Packet ι ρ)) :
    afterReply refusal id (packet :: packets) = ([], packet :: packets) ∨
      afterReply refusal id (packet :: packets) = ([], packets) := by
  unfold afterReply
  split_ifs
  · exact .inl rfl
  · rw [collect, hpacket, ite_self]
    exact .inr rfl

theorem logsAfter_of_leftover {packets : List (Packet ι ρ)} (hpackets : Leftover packets)
    (n : Nat) (todo : List κ) :
    logsAfter refusal ids answers packets n todo = todo.map answers ↔
      ∀ query ∈ todo, answers query = [] := by
  induction todo generalizing packets n with
  | nil => simp [logsAfter]
  | cons query todo ih =>
      obtain ⟨hne, hnone⟩ := hpackets
      obtain ⟨packet, packets, rfl⟩ := List.exists_cons_of_ne_nil hne
      rw [List.forall_mem_cons] at hnone ⊢
      have hrest : answers query = [] →
          Leftover (packets ++ stream (ids n) (answers query)) := by
        intro hquery
        rw [hquery]
        constructor
        · exact List.append_ne_nil_of_right_ne_nil _ (List.cons_ne_nil _ _)
        · intro p hp
          rcases List.mem_append.mp hp with hp | hp
          · exact hnone.2 p hp
          · obtain rfl := List.mem_singleton.mp hp
            rfl
      rw [logsAfter, List.cons_append, List.map_cons, List.cons.injEq]
      rcases @afterReply_cons _ _ _ refusal (ids n) _ hnone.1
        (packets ++ stream (ids n) (answers query)) with hreply | hreply
      · rw [hreply, eq_comm]
        refine and_congr_right fun hquery => ih ?_ (n + 1)
        refine ⟨List.cons_ne_nil _ _, List.forall_mem_cons.mpr ⟨hnone.1, (hrest hquery).2⟩⟩
      · rw [hreply, eq_comm]
        exact and_congr_right fun hquery => ih (hrest hquery) (n + 1)

/-- Every query receives its answer exactly if all queries from the first refusal
on have none. -/
theorem logsAfter_eq_answers_iff (n : Nat) (todo : List κ) :
    logsAfter refusal ids answers [] n todo = todo.map answers ↔
      ∀ i j query, i ≤ j → ids (n + i) = refusal → todo[j]? = some query →
        answers query = [] := by
  induction todo generalizing n with
  | nil => simp [logsAfter]
  | cons query todo ih =>
      rw [logsAfter, List.nil_append, List.map_cons, List.cons.injEq]
      by_cases hid : ids n = refusal
      · have hreply : afterReply refusal (ids n) (stream (ids n) (answers query)) =
            ([], stream (ids n) (answers query)) := if_pos hid
        have hall : (∀ i j query', i ≤ j → ids (n + i) = refusal →
              (query :: todo)[j]? = some query' → answers query' = []) ↔
            ∀ query' ∈ query :: todo, answers query' = [] := by
          constructor
          · intro h query' hmem
            obtain ⟨j, hj⟩ := List.mem_iff_getElem?.mp hmem
            exact h 0 j query' (Nat.zero_le j) hid hj
          · intro h i j query' _ _ hj
            exact h query' (List.mem_of_getElem? hj)
        rw [hreply, hall, List.forall_mem_cons, eq_comm]
        refine and_congr_right fun hquery => logsAfter_of_leftover ?_ (n + 1) todo
        rw [hquery]
        exact ⟨List.cons_ne_nil _ _, fun p hp => List.mem_singleton.mp hp ▸ rfl⟩
      · have hreply : afterReply refusal (ids n) (stream (ids n) (answers query)) =
            (answers query, []) :=
          (if_neg hid).trans (collect_stream _ _ _)
        rw [hreply, ih (n + 1), and_iff_right rfl]
        constructor
        · intro h i j query' hij hi hj
          cases i with
          | zero => exact absurd hi hid
          | succ i =>
              obtain ⟨j, rfl⟩ := Nat.exists_eq_succ_of_ne_zero (Nat.ne_zero_of_lt hij)
              rw [← Nat.succ_add_eq_add_succ] at hi
              exact h i j query' (Nat.le_of_succ_le_succ hij) hi hj
        · intro h i j query' hij hi hj
          rw [Nat.succ_add_eq_add_succ] at hi
          exact h (i + 1) (j + 1) query' (Nat.succ_le_succ hij) hi hj

end

end Atp.StreamedReplies
