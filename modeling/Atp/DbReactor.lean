import Atp.HistorianQuery
import Atp.LexicalCast
import Atp.StreamedReplies
import Atp.ZmqFrames

/-!
The query server of the historian and its client.  A query goes to the server as
a request; the reply carries an id taken from the server's clock, and the records
are streamed to a callback socket of the client, each with that id.
-/

namespace Atp.DbReactor

open HistorianStore HistorianQuery StreamedReplies ZmqFrames

/-- The two overloads of `DbReactorClient::Query` and of `Db::Query`. -/
inductive DbQuery where
  | byRange (query : QueryByRange)
  | bySymbol (query : QueryBySymbol)

def dbQuery (records : Codec Record) {σ : Type} (visit : Visitor σ) (levelDb : LevelDb) :
    DbQuery → σ → Nat × σ
  | .byRange q, s => queryRange records visit levelDb q.first q.last s
  | .bySymbol q, s => query records visit levelDb q s

/-- The records that `Db::Query` shows to a visitor that never stops. -/
def visits (records : Codec Record) (levelDb : LevelDb) (query : DbQuery) : List Record :=
  (dbQuery records (fun seen record => (seen ++ [record], true)) levelDb query []).2

def envelope (callback : Text) : DbQuery → Query
  | .byRange q => { type := .queryByRange, callback := callback, queryByRange := some q }
  | .bySymbol q => { type := .queryBySymbol, callback := callback, queryBySymbol := some q }

def dispatch (query : Query) : DbQuery :=
  match query.type with
  | .queryByRange => .byRange query.getQueryByRange
  | .queryBySymbol => .bySymbol query.getQueryBySymbol

def responseId (now : UInt64) : UInt64 := now % 1000000

def status200 : Text := "200".toList

/-- The messages that `CallbackStreamer` sends: what the visitor of the database
sends for each record, and then the terminating frames. -/
def callbackStream (records : Codec Record) (levelDb : LevelDb) (responseId : UInt64)
    (query : DbQuery) : List (List Text) :=
  let reqId := decimal responseId.toNat
  (dbQuery records
      (fun sent record => (sent ++ [[reqId, records.serializeToString record]], true))
      levelDb query []).2 ++ [[reqId, status200]]

/-- Where the client is: not in a call, in `processQueryResponse`, in
`processCallback` with what its visitor has been given, or left with an
exception. -/
inductive Client where
  | idle
  | waiting
  | receiving (responseId : UInt64) (received : List Record)
  | thrown

/-- The server sends the messages of a query before it takes the next request. -/
inductive Server where
  | serving (messages : List (List Text))
  | stopped

/-- The two parties and the frames under way between them.  `logs` holds what the
visitor has been given in each of the calls that have returned, and `served` is
the number of requests answered. -/
structure State where
  todo : List DbQuery
  client : Client
  logs : List (List Record)
  requests : List Frame
  replies : List Frame
  callbacks : List Frame
  server : Server
  served : Nat

def init (queries : List DbQuery) : State :=
  ⟨queries, .idle, [], [], [], [], .serving [], 0⟩

def receiveTwo (queue : List Frame) : Option ((Text × Text) × List Frame) :=
  (receive queue).bind fun ((frame1, more), queue) =>
    if more then (receive queue).map fun ((frame2, _), queue) => ((frame1, frame2), queue)
    else some ((frame1, []), queue)

/-- `processQueryResponse` on the two frames of the reply. -/
def processQueryResponse (frame1 frame2 : Text) : Except BadLexicalCast UInt64 := do
  let status ← LexicalCast.int frame1
  let responseId ← LexicalCast.uint64 frame2
  return if status = 200 then responseId else 0

def State.return (s : State) (received : List Record) : State :=
  { s with client := .idle, logs := s.logs ++ [received] }

section

variable (records : Codec Record) (queries : Codec Query)

/-- One turn of the loop of `processCallback`, on the two frames it has read. -/
def processCallback (responseId : UInt64) (received : List Record) (frame1 frame2 : Text)
    (s : State) : State :=
  match LexicalCast.uint64 frame1 with
  | .error _ => { s with client := .thrown }
  | .ok receivedId =>
      if responseId ≠ receivedId then s.return received
      else
        match records.parseFromString frame2 with
        | some record => { s with client := .receiving responseId (received ++ [record]) }
        | none =>
            match LexicalCast.int frame2 with
            | .error _ => { s with client := .thrown }
            | .ok _ => s.return received

/-- The client goes on to where it waits for frames again. -/
def clientStep (callbackEndpoint : Text) (s : State) : Option State :=
  match s.client with
  | .idle =>
      match s.todo with
      | [] => none
      | query :: todo =>
          let bytes := queries.serializeToString (envelope callbackEndpoint query)
          let s := { s with todo := todo, requests := s.requests ++ multipart [bytes] }
          some (if bytes.length > 0 then { s with client := .waiting } else s.return [])
  | .waiting =>
      (receiveTwo s.replies).map fun ((frame1, frame2), replies) =>
        let s := { s with replies := replies }
        match processQueryResponse frame1 frame2 with
        | .error _ => { s with client := .thrown }
        | .ok responseId =>
            if responseId > 0 then { s with client := .receiving responseId [] }
            else s.return []
  | .receiving responseId received =>
      (receiveTwo s.callbacks).map fun ((frame1, frame2), callbacks) =>
        processCallback records responseId received frame1 frame2
          { s with callbacks := callbacks }
  | .thrown => none

/-- The server sends one message to the callback socket, or takes a request and
replies to it.  Messages reach this client if the query names its endpoint. -/
def serverStep (levelDb : LevelDb) (clock : Nat → UInt64) (callbackEndpoint : Text)
    (s : State) : Option State :=
  match s.server with
  | .stopped => none
  | .serving (message :: messages) =>
      some { s with callbacks := s.callbacks ++ multipart message, server := .serving messages }
  | .serving [] =>
      (receive s.requests).bind fun ((frame1, more), requests) =>
        (drain more requests).map fun requests =>
          let s := { s with requests := requests }
          match queries.parseFromString frame1 with
          | none => { s with server := .stopped }
          | some query =>
              let id := responseId (clock s.served)
              { s with
                replies := s.replies ++ multipart [status200, decimal id.toNat]
                server := .serving (if query.callback = callbackEndpoint then
                  callbackStream records levelDb id (dispatch query) else [])
                served := s.served + 1 }

def step (levelDb : LevelDb) (clock : Nat → UInt64) (callbackEndpoint : Text) (s : State) :
    Party → Option State
  | .client => clientStep records queries callbackEndpoint s
  | .server => serverStep records queries levelDb clock callbackEndpoint s

end

/-! ### The frames of a session -/

def packetFrames (records : Codec Record) (packet : Packet UInt64 Record) : List Text :=
  [decimal packet.id.toNat, packet.record.elim status200 records.serializeToString]

def encode (records : Codec Record) (queries : Codec Query) (callbackEndpoint : Text)
    (s : Session UInt64 DbQuery Record) : State where
  todo := s.todo
  client := match s.phase with
    | .idle => .idle
    | .asked _ | .told _ => .waiting
    | .receiving id received => .receiving id received
  logs := s.logs
  requests := match s.phase with
    | .asked query =>
        multipart [queries.serializeToString (envelope callbackEndpoint query)]
    | _ => []
  replies := match s.phase with
    | .told id => multipart [status200, decimal id.toNat]
    | _ => []
  callbacks := inbound (s.queue.map (packetFrames records))
  server := .serving (s.pending.map (packetFrames records))
  served := s.served

theorem dispatch_envelope (callback : Text) (query : DbQuery) :
    dispatch (envelope callback query) = query := by
  cases query <;> rfl

theorem callback_envelope (callback : Text) (query : DbQuery) :
    (envelope callback query).callback = callback := by
  cases query <;> rfl

theorem receiveTwo_multipart {frame1 frame2 : Text} (h1 : frame1 ≠ []) (h2 : frame2 ≠ [])
    (queue : List Frame) :
    receiveTwo (multipart [frame1, frame2] ++ queue) = some ((frame1, frame2), queue) := by
  have hrest := receive_multipart_of_some (keyAndRest_cons h2 []) queue
  rw [receiveTwo, receive_multipart_of_some (keyAndRest_cons h1 [frame2]), Option.bind_some]
  change Option.map _ (receive (multipart [frame2] ++ queue)) = _
  rw [hrest]
  rfl

theorem foldl_concat_map {α β : Type} (f : α → β) (xs : List α) (ys : List β) :
    xs.foldl (fun ys x => ys ++ [f x]) ys = ys ++ xs.map f := by
  induction xs generalizing ys with
  | nil => simp
  | cons x xs ih => simp [ih]

theorem dbQuery_eq_foldl (records : Codec Record) {σ : Type} {visit : Visitor σ}
    (hvisit : Continues visit) (levelDb : LevelDb) (query : DbQuery) (s : σ) :
    (dbQuery records visit levelDb query s).2 =
      (visits records levelDb query).foldl (fun s record => (visit s record).1) s := by
  have hrange : ∀ start stop, (queryRange records visit levelDb start stop s).2 =
      (queryRange records (fun seen record => (seen ++ [record], true)) levelDb start stop
        []).2.foldl (fun s record => (visit s record).1) s := by
    intro start stop
    rw [queryRange, queryRange, queryLoop_of_continues _ hvisit,
      queryLoop_of_continues _ fun _ _ => rfl, foldl_concat_map, List.map_id', List.nil_append]
  cases query with
  | byRange q => exact hrange q.first q.last
  | bySymbol q =>
      simp only [visits, dbQuery, HistorianQuery.query]
      cases bounds q with
      | none => rfl
      | some range => exact hrange range.1 range.2

theorem callbackStream_eq (records : Codec Record) (levelDb : LevelDb) (id : UInt64)
    (query : DbQuery) :
    callbackStream records levelDb id query =
      (stream id (visits records levelDb query)).map (packetFrames records) := by
  rw [callbackStream, dbQuery_eq_foldl records (fun _ _ => rfl), foldl_concat_map]
  simp [stream, packetFrames]

theorem processQueryResponse_status200 (id : UInt64) :
    processQueryResponse status200 (decimal id.toNat) = .ok id := by
  have hstatus : LexicalCast.int status200 = .ok 200 := by decide
  rw [processQueryResponse, hstatus, LexicalCast.uint64_decimal]
  rfl

theorem elim_ne_nil {records : Codec Record}
    (hrecords : ∀ record, records.serializeToString record ≠ []) (record : Option Record) :
    record.elim status200 records.serializeToString ≠ [] := by
  cases record with
  | none => exact List.cons_ne_nil _ _
  | some record => exact hrecords record

section

variable {records : Codec Record} {queries : Codec Query}
  (hrecords : ∀ record, records.serializeToString record ≠ [])
  (hqueries : ∀ query, queries.serializeToString query ≠ [])
  (hstatus : records.parseFromString status200 = none)

theorem serverStep_encode
    (hqueries : ∀ query, queries.serializeToString query ≠ []) (levelDb : LevelDb)
    (clock : Nat → UInt64) (callbackEndpoint : Text) (s : Session UInt64 DbQuery Record) :
    serverStep records queries levelDb clock callbackEndpoint
        (encode records queries callbackEndpoint s) =
      (StreamedReplies.serverStep (fun i => responseId (clock i)) (visits records levelDb)
        s).map (encode records queries callbackEndpoint) := by
  obtain ⟨todo, phase, logs, queue, pending, served⟩ := s
  cases pending with
  | cons packet pending =>
      simp [serverStep, encode, StreamedReplies.serverStep, inbound]
  | nil =>
      cases phase with
      | asked query =>
          have hreceive := receive_multipart_of_some
            (keyAndRest_cons (hqueries (envelope callbackEndpoint query)) []) []
          rw [List.append_nil] at hreceive
          simp only [serverStep, encode, List.map_nil, hreceive, Option.bind_some,
            List.isEmpty_nil, Bool.not_true, drain_false, Option.map_some,
            Codec.parse_serialize, callback_envelope, ↓reduceIte, dispatch_envelope,
            callbackStream_eq, StreamedReplies.serverStep]
          rfl
      | idle => rfl
      | told id => rfl
      | receiving id received => rfl

include hrecords hqueries hstatus

theorem clientStep_encode (callbackEndpoint : Text) (s : Session UInt64 DbQuery Record) :
    clientStep records queries callbackEndpoint
        (encode records queries callbackEndpoint s) =
      (StreamedReplies.clientStep 0 s).map (encode records queries callbackEndpoint) := by
  obtain ⟨todo, phase, logs, queue, pending, served⟩ := s
  cases phase with
  | idle =>
      cases todo with
      | nil => rfl
      | cons query todo =>
          exact congrArg some (if_pos (List.length_pos_iff.mpr (hqueries _)))
  | asked query => rfl
  | told id =>
      have hreceive := @receiveTwo_multipart status200 _ (by decide)
        (Text.decimal_ne_nil id.toNat) []
      rw [List.append_nil] at hreceive
      simp only [clientStep, encode, hreceive, Option.map_some,
        processQueryResponse_status200, StreamedReplies.clientStep]
      by_cases hid : id = 0
      · subst hid
        rfl
      · rw [if_pos (UInt64.pos_iff_ne_zero.mpr hid), if_neg hid]
  | receiving id received =>
      cases queue with
      | nil => rfl
      | cons packet queue =>
          obtain ⟨packetId, record⟩ := packet
          have hreceive := @receiveTwo_multipart (decimal packetId.toNat)
            (record.elim status200 records.serializeToString) (Text.decimal_ne_nil _)
            (elim_ne_nil hrecords record)
            (inbound (queue.map (packetFrames records)))
          simp only [clientStep, encode, List.map_cons, inbound_cons, packetFrames, hreceive,
            Option.map_some, StreamedReplies.clientStep, processCallback,
            LexicalCast.uint64_decimal]
          by_cases hid : id = packetId
          · rw [if_neg (not_not.mpr hid), if_neg (not_not.mpr hid)]
            cases record with
            | none =>
                have hint : LexicalCast.int status200 = .ok 200 := by decide
                simp only [Option.elim_none, hstatus, hint]
                rfl
            | some record =>
                simp only [Option.elim_some, Codec.parse_serialize]
          · rw [if_pos hid, if_pos hid]
            rfl

/-- The exchange of frames is a session of queries and packets, in which the id 0
stands for a refusal. -/
theorem step_encode (levelDb : LevelDb) (clock : Nat → UInt64) (callbackEndpoint : Text)
    (s : Session UInt64 DbQuery Record) (party : Party) :
    step records queries levelDb clock callbackEndpoint
        (encode records queries callbackEndpoint s) party =
      (StreamedReplies.step 0 (fun i => responseId (clock i)) (visits records levelDb) s
        party).map (encode records queries callbackEndpoint) := by
  cases party with
  | client => exact clientStep_encode hrecords hqueries hstatus callbackEndpoint s
  | server => exact serverStep_encode hqueries levelDb clock callbackEndpoint s

end

/-- However the steps of the two parties are interleaved, they come to an end,
and then the visitor of every query has been given exactly the records that
`Db::Query` visits for that query, in order. -/
def ReceivesAnswers (records : Codec Record) (queries : Codec Query) (levelDb : LevelDb)
    (clock : Nat → UInt64) (callbackEndpoint : Text) (todo : List DbQuery) : Prop :=
  (∃ bound, ∀ schedule s,
    Runs.run (step records queries levelDb clock callbackEndpoint) (init todo) schedule =
      some s → schedule.length ≤ bound) ∧
  ∀ schedule s,
    Runs.run (step records queries levelDb clock callbackEndpoint) (init todo) schedule =
      some s → Runs.Stuck (step records queries levelDb clock callbackEndpoint) s →
        s.logs = todo.map (visits records levelDb)

section

variable {records : Codec Record} {queries : Codec Query}
  (hrecords : ∀ record, records.serializeToString record ≠ [])
  (hqueries : ∀ query, queries.serializeToString query ≠ [])
  (hstatus : records.parseFromString status200 = none)

include hrecords hqueries hstatus

theorem receivesAnswers_iff_logsAfter (levelDb : LevelDb) (clock : Nat → UInt64)
    (callbackEndpoint : Text) (todo : List DbQuery) :
    ReceivesAnswers records queries levelDb clock callbackEndpoint todo ↔
      logsAfter 0 (fun i => responseId (clock i)) (visits records levelDb) [] 0 todo =
        todo.map (visits records levelDb) := by
  have hencode := step_encode hrecords hqueries hstatus levelDb clock callbackEndpoint
  have hinit : init todo =
      encode records queries callbackEndpoint (StreamedReplies.init todo) := rfl
  obtain ⟨⟨bound, hbound⟩, ⟨schedule, s, hrun, hstuck⟩, hlogs⟩ :=
    @ends_with_outcome _ _ _ _ 0 (fun i => responseId (clock i)) (visits records levelDb) todo
  simp only [ReceivesAnswers, hinit, Runs.run_encode _ hencode]
  constructor
  · rintro ⟨-, h⟩
    have hend := h schedule _ (congrArg (Option.map _) hrun)
      ((Runs.stuck_encode_iff _ hencode s).mpr hstuck)
    exact (hlogs schedule s hrun hstuck).symm.trans hend
  · intro h
    constructor
    · refine ⟨bound, fun schedule s hrun => ?_⟩
      obtain ⟨t, ht, -⟩ := Option.map_eq_some_iff.mp hrun
      exact hbound schedule t ht
    · intro schedule s hrun hstuck
      obtain ⟨t, ht, rfl⟩ := Option.map_eq_some_iff.mp hrun
      exact (hlogs schedule t ht ((Runs.stuck_encode_iff _ hencode t).mp hstuck)).trans h

/-- The visitors receive the answers exactly if all queries from the first with
response id 0 on have none. -/
theorem receivesAnswers_iff (levelDb : LevelDb) (clock : Nat → UInt64)
    (callbackEndpoint : Text) (todo : List DbQuery) :
    ReceivesAnswers records queries levelDb clock callbackEndpoint todo ↔
      ∀ i j query, i ≤ j → responseId (clock i) = 0 → todo[j]? = some query →
        visits records levelDb query = [] := by
  rw [receivesAnswers_iff_logsAfter hrecords hqueries hstatus, logsAfter_eq_answers_iff]
  simp only [Nat.zero_add]

end

def sessionStore : LevelDb :=
  HistorianStore.run RecordWire.recordCodec
    [{ value := some (.sessionLog ⟨"A".toList, 10, 20, "ib".toList⟩) }]

def sessionQuery : DbQuery :=
  .byRange { type := .sessionLog, first := "s".toList, last := "t".toList }

theorem receivesAnswers_sessionQuery :
    ReceivesAnswers RecordWire.recordCodec RecordWire.queryCodec sessionStore
      (fun _ => 1000007) "inproc://cb".toList [sessionQuery, sessionQuery] := by
  refine (receivesAnswers_iff RecordWire.record_ne_nil RecordWire.query_ne_nil (by decide)
    _ _ _ _).mpr fun i j query _ hid => ?_
  exact absurd hid (by decide)

/-- With the clock at a full second, the one record of the answer is lost. -/
theorem not_receivesAnswers_full_second :
    ¬ ReceivesAnswers RecordWire.recordCodec RecordWire.queryCodec sessionStore
      (fun _ => 2000000) "inproc://cb".toList [sessionQuery] := by
  rw [receivesAnswers_iff_logsAfter RecordWire.record_ne_nil RecordWire.query_ne_nil
    (by decide)]
  decide +kernel

end Atp.DbReactor
