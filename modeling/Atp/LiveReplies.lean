import Atp.StreamedReplies

/-!
Queries that are answered over two channels while what they ask about changes.  An
observer notes how many changes had been made when a query was asked, when it was
served and when its answer was complete.
-/

namespace Atp.LiveReplies

open StreamedReplies

variable {ι κ ρ α : Type*}

/-- A query that is over, with the numbers of changes noted for it. -/
structure Call (κ ρ : Type*) where
  query : κ
  asked : Nat
  served : Nat
  returned : Nat
  received : List ρ

/-- What has been noted: the calls that are over, and the one under way. -/
structure Notes (κ ρ : Type*) where
  past : List (Call κ ρ) := []
  query : Option κ := none
  asked : Nat := 0
  served : Nat := 0

/-- What an observer of a session compares before and after a step. -/
structure View (κ ρ : Type*) where
  todo : List κ
  served : Nat
  logs : List (List ρ)

/-- A query leaves the list when it is asked, is counted when it is served, and has a
log when it is over. -/
def Notes.observe (now : Nat) (before after : View κ ρ) (notes : Notes κ ρ) : Notes κ ρ :=
  if after.todo.length < before.todo.length then
    { notes with query := before.todo.head?, asked := now }
  else if before.served < after.served then { notes with served := now }
  else if before.logs.length < after.logs.length then
    match notes.query, after.logs.getLast? with
    | some query, some received =>
        { notes with
          past := notes.past ++ [⟨query, notes.asked, notes.served, now, received⟩]
          query := none }
    | _, _ => notes
  else notes

structure State (ι κ ρ α : Type*) where
  session : Session ι κ ρ
  changes : List α
  notes : Notes κ ρ

inductive Action (α : Type*) where
  | party (party : Party)
  | change (change : α)

def view (s : Session ι κ ρ) : View κ ρ := ⟨s.todo, s.served, s.logs⟩

def init (todo : List κ) : State ι κ ρ α := ⟨StreamedReplies.init todo, [], {}⟩

variable [DecidableEq ι] (refusal : ι) (ids : Nat → ι) (answers : List α → κ → List ρ)

def step (s : State ι κ ρ α) : Action α → Option (State ι κ ρ α)
  | .party party =>
      (StreamedReplies.step refusal ids (answers s.changes) s.session party).map fun session =>
        { s with
          session := session
          notes := s.notes.observe s.changes.length (view s.session) (view session) }
  | .change change => some { s with changes := s.changes ++ [change] }

/-- The answer is that of one moment between asking and returning. -/
structure Atomic (changes : List α) (call : Call κ ρ) : Prop where
  asked_le : call.asked ≤ call.served
  served_le : call.served ≤ call.returned
  returned_le : call.returned ≤ changes.length
  received_eq : call.received = answers (changes.take call.served) call.query

/-- The query under way, and what is under way for it. -/
def Current (s : State ι κ ρ α) : Prop :=
  let packets := s.session.queue ++ s.session.pending
  match s.session.phase with
  | .idle => packets = [] ∧ s.notes.query = none
  | .asked query =>
      packets = [] ∧ s.notes.query = some query ∧ s.notes.asked ≤ s.changes.length
  | .told id => id ≠ refusal ∧ ∃ query, s.notes.query = some query ∧
      s.notes.asked ≤ s.notes.served ∧ s.notes.served ≤ s.changes.length ∧
      packets = stream id (answers (s.changes.take s.notes.served) query)
  | .receiving id received => ∃ query rest, s.notes.query = some query ∧
      s.notes.asked ≤ s.notes.served ∧ s.notes.served ≤ s.changes.length ∧
      answers (s.changes.take s.notes.served) query = received ++ rest ∧
      packets = stream id rest

/-- What every step keeps. -/
structure Inv (queries : List κ) (s : State ι κ ρ α) : Prop where
  logs : s.session.logs = s.notes.past.map Call.received
  queries : queries = s.notes.past.map Call.query ++ s.notes.query.toList ++ s.session.todo
  atomic : ∀ call ∈ s.notes.past, Atomic answers s.changes call
  current : Current refusal answers s

omit [DecidableEq ι] in
theorem inv_init (queries : List κ) :
    Inv refusal answers queries (init queries : State ι κ ρ α) where
  logs := rfl
  queries := rfl
  atomic := by simp [init]
  current := ⟨rfl, rfl⟩

/-! ### What is noted -/

section

variable (now : Nat) (todo : List κ) (n : Nat) (logs : List (List ρ)) (notes : Notes κ ρ)

theorem observe_same : notes.observe now ⟨todo, n, logs⟩ ⟨todo, n, logs⟩ = notes := by
  simp [Notes.observe]

theorem observe_asked (query : κ) :
    notes.observe now ⟨query :: todo, n, logs⟩ ⟨todo, n, logs⟩ =
      { notes with query := some query, asked := now } := by
  simp [Notes.observe]

theorem observe_served :
    notes.observe now ⟨todo, n, logs⟩ ⟨todo, n + 1, logs⟩ = { notes with served := now } := by
  simp [Notes.observe]

theorem observe_returned {query : κ} (hquery : notes.query = some query) (received : List ρ) :
    notes.observe now ⟨todo, n, logs⟩ ⟨todo, n, logs ++ [received]⟩ =
      { notes with
        past := notes.past ++ [⟨query, notes.asked, notes.served, now, received⟩]
        query := none } := by
  simp [Notes.observe, hquery]

end

/-! ### What a step keeps -/

section

variable {answers} {changes : List α}

theorem Atomic.change {call : Call κ ρ} (h : Atomic answers changes call) (change : α) :
    Atomic answers (changes ++ [change]) call where
  asked_le := h.asked_le
  served_le := h.served_le
  returned_le := by
    have hle := h.returned_le
    simp only [List.length_append]
    omega
  received_eq := by
    rw [List.take_append_of_le_length (h.served_le.trans h.returned_le)]
    exact h.received_eq

end

variable {refusal ids answers} {queries : List κ} {s s' : State ι κ ρ α}

omit [DecidableEq ι] in
/-- A change is not seen by an answer that is under way. -/
theorem inv_of_change (hs : Inv refusal answers queries s) (change : α) :
    Inv refusal answers queries { s with changes := s.changes ++ [change] } where
  logs := hs.logs
  queries := hs.queries
  atomic call hcall := (hs.atomic call hcall).change change
  current := by
    have hcurrent := hs.current
    obtain ⟨⟨todo, phase, logs, queue, pending, served⟩, changes, notes⟩ := s
    have htake : notes.served ≤ changes.length →
        (changes ++ [change]).take notes.served = changes.take notes.served :=
      List.take_append_of_le_length
    have hlength : ∀ {k}, k ≤ changes.length → k ≤ (changes ++ [change]).length :=
      fun h => h.trans (by simp)
    cases phase with
    | idle => exact hcurrent
    | asked query =>
        obtain ⟨hpackets, hquery, hasked⟩ := hcurrent
        exact ⟨hpackets, hquery, hlength hasked⟩
    | told id =>
        obtain ⟨hid, query, hquery, hasked, hserved, hpackets⟩ := hcurrent
        refine ⟨hid, query, hquery, hasked, hlength hserved, ?_⟩
        simp only [htake hserved]
        exact hpackets
    | receiving id received =>
        obtain ⟨query, rest, hquery, hasked, hserved, hrest, hpackets⟩ := hcurrent
        refine ⟨query, rest, hquery, hasked, hlength hserved, ?_, hpackets⟩
        simp only [htake hserved]
        exact hrest

omit [DecidableEq ι] in
theorem stream_cons (id : ι) (record : ρ) (records : List ρ) :
    stream id (record :: records) = ⟨id, some record⟩ :: stream id records := rfl

theorem inv_of_client {session : Session ι κ ρ} (hs : Inv refusal answers queries s)
    (hstep : clientStep refusal s.session = some session) :
    Inv refusal answers queries { s with
      session := session
      notes := s.notes.observe s.changes.length (view s.session) (view session) } := by
  obtain ⟨hlogs, hqueries, hatomic, hcurrent⟩ := hs
  obtain ⟨⟨todo, phase, logs, queue, pending, served⟩, changes, notes⟩ := s
  rcases clientStep_cases hstep with ⟨query, todo', hphase, htodo, rfl⟩ |
    ⟨id, hphase, hid, rfl⟩ | ⟨id, hphase, hid, rfl⟩ |
    ⟨id, received, packet, queue', hphase, hqueue, hlast, rfl⟩ |
    ⟨id, received, packet, queue', record, hphase, hqueue, hid, hrecord, rfl⟩
  · obtain rfl : phase = .idle := hphase
    obtain rfl : todo = query :: todo' := htodo
    obtain ⟨hpackets, hquery⟩ := hcurrent
    simp only [view, observe_asked]
    refine ⟨hlogs, ?_, hatomic, hpackets, rfl, le_rfl⟩
    have hnone : notes.query = none := hquery
    simpa [hnone] using hqueries
  · obtain rfl : phase = .told id := hphase
    exact absurd hid hcurrent.1
  · obtain rfl : phase = .told id := hphase
    obtain ⟨-, query, hquery, hasked, hserved, hpackets⟩ := hcurrent
    simp only [view, observe_same]
    exact ⟨hlogs, hqueries, hatomic, query, _, hquery, hasked, hserved, rfl, hpackets⟩
  · obtain rfl : phase = .receiving id received := hphase
    obtain rfl : queue = packet :: queue' := hqueue
    obtain ⟨query, rest, hquery, hasked, hserved, hrest, hpackets⟩ := hcurrent
    have hpackets : packet :: (queue' ++ pending) = stream id rest := hpackets
    -- The packets are those of this answer, so the one that ends it is the last.
    have hnil : rest = [] ∧ queue' ++ pending = [] := by
      cases rest with
      | nil => exact ⟨rfl, (List.cons.inj hpackets).2⟩
      | cons record rest =>
          obtain ⟨rfl, -⟩ := List.cons.inj (hpackets.trans (stream_cons id record rest))
          rcases hlast with hid | hnone
          · exact absurd rfl hid
          · cases hnone
    obtain ⟨rfl, hempty⟩ := hnil
    simp only [finish, view, observe_returned _ _ _ _ _ hquery]
    refine ⟨?_, ?_, ?_, hempty, rfl⟩
    · simpa using hlogs
    · have hsome : notes.query = some query := hquery
      simpa [hsome] using hqueries
    · intro call hcall
      rcases List.mem_append.mp hcall with hcall | hcall
      · exact hatomic call hcall
      · obtain rfl := List.mem_singleton.mp hcall
        exact ⟨hasked, hserved, le_rfl, (hrest.trans (List.append_nil _)).symm⟩
  · obtain rfl : phase = .receiving id received := hphase
    obtain rfl : queue = packet :: queue' := hqueue
    obtain ⟨query, rest, hquery, hasked, hserved, hrest, hpackets⟩ := hcurrent
    have hpackets : packet :: (queue' ++ pending) = stream id rest := hpackets
    simp only [view, observe_same]
    cases rest with
    | nil =>
        obtain ⟨rfl, -⟩ := List.cons.inj hpackets
        cases hrecord
    | cons first rest =>
        obtain ⟨rfl, htail⟩ := List.cons.inj (hpackets.trans (stream_cons id first rest))
        obtain rfl : first = record := Option.some.inj hrecord
        refine ⟨hlogs, hqueries, hatomic, query, rest, hquery, hasked, hserved, ?_, htail⟩
        rw [hrest, List.append_assoc]
        rfl

omit [DecidableEq ι] in
theorem inv_of_server (hids : ∀ n, ids n ≠ refusal) {session : Session ι κ ρ}
    (hs : Inv refusal answers queries s)
    (hstep : serverStep ids (answers s.changes) s.session = some session) :
    Inv refusal answers queries { s with
      session := session
      notes := s.notes.observe s.changes.length (view s.session) (view session) } := by
  obtain ⟨hlogs, hqueries, hatomic, hcurrent⟩ := hs
  obtain ⟨⟨todo, phase, logs, queue, pending, served⟩, changes, notes⟩ := s
  rcases serverStep_cases hstep with ⟨packet, pending', hpending, rfl⟩ |
    ⟨query, hpending, hphase, rfl⟩
  · obtain rfl : pending = packet :: pending' := hpending
    simp only [view, observe_same]
    refine ⟨hlogs, hqueries, hatomic, ?_⟩
    cases phase with
    | idle => exact absurd hcurrent.1 (by simp)
    | asked query => exact absurd hcurrent.1 (by simp)
    | told id => simpa [Current] using hcurrent
    | receiving id received => simpa [Current] using hcurrent
  · obtain rfl : pending = [] := hpending
    obtain rfl : phase = .asked query := hphase
    obtain ⟨hpackets, hquery, hasked⟩ := hcurrent
    have hqueue : queue = [] := (List.append_eq_nil_iff.mp hpackets).1
    simp only [view, observe_served]
    refine ⟨hlogs, hqueries, hatomic, hids served, query, hquery, hasked, le_rfl, ?_⟩
    simp [hqueue]

theorem inv_of_step (hids : ∀ n, ids n ≠ refusal) {action : Action α}
    (hs : Inv refusal answers queries s) (hstep : step refusal ids answers s action = some s') :
    Inv refusal answers queries s' := by
  cases action with
  | change change =>
      obtain rfl := Option.some.inj hstep
      exact inv_of_change hs change
  | party party =>
      obtain ⟨session, hsession, rfl⟩ := Option.map_eq_some_iff.mp hstep
      cases party with
      | client => exact inv_of_client hs hsession
      | server => exact inv_of_server hids hs hsession

/-- In every state reached, each answer that is complete is that of one moment between
asking for it and its return. -/
theorem inv_of_run (hids : ∀ n, ids n ≠ refusal) {schedule : List (Action α)}
    (hrun : Runs.run (step refusal ids answers) (init queries) schedule = some s) :
    Inv refusal answers queries s := by
  apply Runs.inv_of_run (step refusal ids answers) _ (inv_init refusal answers queries) hrun
  intro s action s' hs hstep
  exact inv_of_step hids hs hstep

/-- Where neither party can go on, all queries are over. -/
theorem past_of_stuck (hs : Inv refusal answers queries s)
    (hstuck : ∀ party, step refusal ids answers s (.party party) = none) :
    s.notes.past.map Call.query = queries := by
  obtain ⟨-, hqueries, -, hcurrent⟩ := hs
  obtain ⟨session, changes, notes⟩ := s
  have hclosed : Closed session := by
    cases hphase : session.phase with
    | idle => simp [Closed, hphase]
    | asked query => simp [Closed, hphase]
    | told id =>
        simp only [Current, hphase] at hcurrent
        obtain ⟨-, query, -, -, -, hpackets⟩ := hcurrent
        simp only [Closed, hphase]
        exact ⟨_, id, hpackets⟩
    | receiving id received =>
        simp only [Current, hphase] at hcurrent
        obtain ⟨query, rest, -, -, -, -, hpackets⟩ := hcurrent
        simp only [Closed, hphase]
        exact ⟨_, id, hpackets⟩
  have hsession : Runs.Stuck (StreamedReplies.step refusal ids (answers changes)) session :=
    fun party => Option.map_eq_none_iff.mp (hstuck party)
  obtain ⟨hphase, htodo⟩ := done_of_stuck hclosed hsession
  simp only [Current, hphase] at hcurrent
  simp only [hcurrent.2, htodo, Option.toList_none, List.append_nil] at hqueries
  exact hqueries.symm

end Atp.LiveReplies
