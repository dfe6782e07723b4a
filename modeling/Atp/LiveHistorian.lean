import Atp.DbReactor
import Atp.LiveReplies
import Atp.SeriesStore

/-!
The historian while it records.  One database is shared by the thread that writes
what the subscriber receives and by the reactor that serves queries; a query reads
from an iterator, which shows the database as it was when it was made.
-/

namespace Atp.LiveHistorian

open DbReactor HistorianStore LiveReplies SeriesStore StreamedReplies

/-- The database, the parties of the queries, and what has been noted: the calls of
`Db::Write` so far, and how many there were when each query was asked and served. -/
structure State where
  session : DbReactor.State
  levelDb : LevelDb
  calls : List WriteCall
  notes : Notes DbQuery Record

def init (queries : List DbQuery) : State :=
  ⟨DbReactor.init queries, OrderedMap.empty, [], {}⟩

def view (s : DbReactor.State) : View DbQuery Record := ⟨s.todo, s.served, s.logs⟩

section

variable (records : Codec Record) (queries : Codec Query) (clock : Nat → UInt64)
  (callbackEndpoint : Text)

/-- The subscriber writes, or a party of the queries takes its next step. -/
def step (s : State) : Action WriteCall → Option State
  | .change call => some { s with
      levelDb := (write records s.levelDb call).2
      calls := s.calls ++ [call] }
  | .party party =>
      (DbReactor.step records queries s.levelDb clock callbackEndpoint s.session party).map
        fun session => { s with
          session := session
          notes := s.notes.observe s.calls.length (view s.session) (view session) }

/-- What `Db::Query` shows after the calls. -/
def answers (calls : List WriteCall) (query : DbQuery) : List Record :=
  visits records (HistorianStore.run records calls) query

def encode (s : LiveReplies.State UInt64 DbQuery Record WriteCall) : State :=
  ⟨DbReactor.encode records queries callbackEndpoint s.session,
    HistorianStore.run records s.changes, s.changes, s.notes⟩

end

section

variable {records : Codec Record} {queries : Codec Query}
  (hrecords : ∀ record, records.serializeToString record ≠ [])
  (hqueries : ∀ query, queries.serializeToString query ≠ [])
  (hstatus : records.parseFromString status200 = none)
  (clock : Nat → UInt64) (callbackEndpoint : Text)

include hrecords hqueries hstatus

theorem step_encode (s : LiveReplies.State UInt64 DbQuery Record WriteCall)
    (action : Action WriteCall) :
    step records queries clock callbackEndpoint (encode records queries callbackEndpoint s)
        action =
      (LiveReplies.step 0 (fun i => responseId (clock i)) (answers records) s action).map
        (encode records queries callbackEndpoint) := by
  cases action with
  | change call =>
      simp only [step, encode, LiveReplies.step, Option.map_some, HistorianStore.run,
        List.foldl_concat]
  | party party =>
      have hsession := DbReactor.step_encode hrecords hqueries hstatus
        (HistorianStore.run records s.changes) clock callbackEndpoint s.session party
      simp only [step, encode, LiveReplies.step]
      rw [hsession, Option.map_map, Option.map_map]
      rfl

/-- The states reached are those of queries with answers that change. -/
theorem inv_of_run (hids : ∀ n, responseId (clock n) ≠ 0) {todo : List DbQuery}
    {schedule : List (Action WriteCall)} {s : State}
    (hrun : Runs.run (step records queries clock callbackEndpoint) (init todo) schedule =
      some s) :
    ∃ t, s = encode records queries callbackEndpoint t ∧
      LiveReplies.Inv 0 (answers records) todo t := by
  have hencode := step_encode hrecords hqueries hstatus clock callbackEndpoint
  have hinit : init todo = encode records queries callbackEndpoint (LiveReplies.init todo) := rfl
  rw [hinit, Runs.run_encode _ hencode, Option.map_eq_some_iff] at hrun
  obtain ⟨t, ht, rfl⟩ := hrun
  exact ⟨t, rfl, LiveReplies.inv_of_run hids ht⟩

theorem stuck_of_encode {t : LiveReplies.State UInt64 DbQuery Record WriteCall}
    (hstuck : ∀ party, step records queries clock callbackEndpoint
      (encode records queries callbackEndpoint t) (.party party) = none) (party : Party) :
    LiveReplies.step 0 (fun i => responseId (clock i)) (answers records) t (.party party) =
      none := by
  have hnone := hstuck party
  rw [step_encode hrecords hqueries hstatus, Option.map_eq_none_iff] at hnone
  exact hnone

end

/-- A query by symbol without a colon, between two times of the given number of digits. -/
structure RegularQuery (digits : Nat) (q : QueryBySymbol) : Prop where
  symbol : ':' ∉ q.symbol
  first : (decimal q.getFirst.toNat).length = digits
  last : (decimal q.getLast.toNat).length = digits

theorem visitUntil_collect (seen records : List Record) :
    visitUntil (fun seen record => (seen ++ [record], true)) seen records = seen ++ records := by
  induction records generalizing seen with
  | nil => exact (List.append_nil seen).symm
  | cons record records ih =>
      change visitUntil _ (seen ++ [record]) records = _
      rw [ih, List.append_assoc]
      rfl

theorem exists_answer (records : Codec Record) {calls : List WriteCall} {digits : Nat}
    (hcalls : ∀ call ∈ calls, ∀ message ∈ call.value, RegularMessage digits message)
    {q : QueryBySymbol} (hq : RegularQuery digits q) :
    ∃ items, IsAnswer calls q items ∧
      answers records calls (.bySymbol q) = items.map HistorianQuery.visited := by
  obtain ⟨items, hanswer, hvisits⟩ :=
    query_shows_answer records hcalls hq.symbol hq.first hq.last
  refine ⟨items, hanswer, ?_⟩
  change (HistorianQuery.query records _ _ q []).2 = _
  rw [hvisits, visitUntil_collect]
  rfl

/-- The visitor of the query received the answer that the series gave at one moment, with
the writes made by then, after the query was asked and before it returned. -/
def AnsweredAtOnce (calls : List WriteCall) (call : Call DbQuery Record) : Prop :=
  call.asked ≤ call.served ∧ call.served ≤ call.returned ∧ call.returned ≤ calls.length ∧
    ∃ q items, call.query = .bySymbol q ∧ IsAnswer (calls.take call.served) q items ∧
      call.received = items.map HistorianQuery.visited

/-- The calls of `Db::Write` in a schedule. -/
def writes (schedule : List (Action WriteCall)) : List WriteCall :=
  schedule.filterMap fun
    | .change call => some call
    | .party _ => none

theorem calls_of_run {records : Codec Record} {queries : Codec Query} {clock : Nat → UInt64}
    {callbackEndpoint : Text} {schedule : List (Action WriteCall)} {s s' : State}
    (hrun : Runs.run (step records queries clock callbackEndpoint) s schedule = some s') :
    s'.calls = s.calls ++ writes schedule := by
  induction schedule generalizing s with
  | nil =>
      obtain rfl := Option.some.inj hrun
      exact (List.append_nil _).symm
  | cons action schedule ih =>
      obtain ⟨t, hstep, hrun⟩ := (Runs.run_cons_eq_some_iff _).mp hrun
      rw [ih hrun]
      cases action with
      | change call =>
          obtain rfl := Option.some.inj hstep
          simp [writes]
      | party party =>
          obtain ⟨session, -, rfl⟩ := Option.map_eq_some_iff.mp hstep
          simp [writes]

/-- However writes are interleaved with queries, the queries are served in order, and
each receives what the series held at one moment of its own. -/
theorem queries_answered_at_once {records : Codec Record} {queries : Codec Query}
    (hrecords : ∀ record, records.serializeToString record ≠ [])
    (hqueries : ∀ query, queries.serializeToString query ≠ [])
    (hstatus : records.parseFromString status200 = none)
    {clock : Nat → UInt64} (hids : ∀ n, responseId (clock n) ≠ 0) (callbackEndpoint : Text)
    {digits : Nat} {todo : List QueryBySymbol} (htodo : ∀ q ∈ todo, RegularQuery digits q)
    {schedule : List (Action WriteCall)}
    (hcalls : ∀ call ∈ writes schedule, ∀ message ∈ call.value, RegularMessage digits message)
    {s : State} (hrun : Runs.run (step records queries clock callbackEndpoint)
      (init (todo.map .bySymbol)) schedule = some s) :
    s.session.logs = s.notes.past.map Call.received ∧
      s.notes.past.map Call.query <+: todo.map .bySymbol ∧
      (∀ call ∈ s.notes.past, AnsweredAtOnce s.calls call) ∧
      ((∀ party, step records queries clock callbackEndpoint s (.party party) = none) →
        s.notes.past.map Call.query = todo.map .bySymbol) := by
  obtain ⟨t, rfl, hinv⟩ :=
    inv_of_run hrecords hqueries hstatus clock callbackEndpoint hids hrun
  have hchanges : t.changes = writes schedule := calls_of_run hrun
  rw [← hchanges] at hcalls
  have hpast : t.notes.past.map Call.query <+: todo.map DbQuery.bySymbol := by
    rw [hinv.queries, List.append_assoc]
    exact List.prefix_append _ _
  refine ⟨hinv.logs, hpast, fun call hcall => ?_, fun hstuck => ?_⟩
  · obtain ⟨hasked, hserved, hreturned, hreceived⟩ := hinv.atomic call hcall
    have hquery : call.query ∈ todo.map DbQuery.bySymbol :=
      hpast.subset (List.mem_map_of_mem hcall)
    obtain ⟨q, hq, heq⟩ := List.mem_map.mp hquery
    obtain ⟨items, hanswer, hitems⟩ := exists_answer records
      (fun w hw => hcalls w (List.mem_of_mem_take hw)) (htodo q hq)
    refine ⟨hasked, hserved, hreturned, q, items, heq.symm, hanswer, ?_⟩
    rw [hreceived, ← heq]
    exact hitems
  · exact LiveReplies.past_of_stuck hinv
      (stuck_of_encode hrecords hqueries hstatus clock callbackEndpoint hstuck)

/-- A record is written after the query was asked and before it was served, and another
while the answer is under way. -/
def busySchedule : List (Action WriteCall) :=
  [.party .client,
    .change { value := some (.marketData ⟨15, ['A'], ['A', 'S', 'K'], .ofInt 1, 7⟩) },
    .party .server,
    .change { value := some (.marketData ⟨16, ['A'], ['B', 'I', 'D'], .ofInt 2, 7⟩) },
    .party .server, .party .server, .party .client, .party .client, .party .client]

def dataOfA : QueryBySymbol :=
  { type := .ibMarketData, symbol := ['A'], utcFirstMicros := some 10, utcLastMicros := some 20 }

theorem queries_answered_at_once_busy :
    ∃ s, Runs.run (step RecordWire.recordCodec RecordWire.queryCodec (fun _ => 1000007)
        "inproc://cb".toList) (init [.bySymbol dataOfA]) busySchedule = some s ∧
      s.session.logs = s.notes.past.map Call.received ∧
      (∀ call ∈ s.notes.past, AnsweredAtOnce s.calls call) := by
  obtain ⟨s, hs⟩ := Option.isSome_iff_exists.mp (show (Runs.run
    (step RecordWire.recordCodec RecordWire.queryCodec (fun _ => 1000007) "inproc://cb".toList)
    (init [.bySymbol dataOfA]) busySchedule).isSome = true by decide +kernel)
  obtain ⟨hlogs, -, hpast, -⟩ := queries_answered_at_once RecordWire.record_ne_nil
    RecordWire.query_ne_nil (by decide) (fun _ => by decide) "inproc://cb".toList
    (show ∀ q ∈ [dataOfA], RegularQuery 2 q from
      List.forall_mem_singleton.mpr ⟨by decide, by decide, by decide⟩)
    (show ∀ call ∈ writes busySchedule, ∀ message ∈ call.value, RegularMessage 2 message by
      decide) hs
  exact ⟨s, hs, hlogs, hpast⟩

end Atp.LiveHistorian
