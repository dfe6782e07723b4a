import Atp.DbReactor
import Mathlib.Logic.Relation

/-!
The loop of a reactor that answers queries.  The thread hands its socket to the
strategy again and again; the socket gives out requests one at a time, and between
two of them it wants the reply to the first.
-/

namespace Atp.Reactor

open HistorianStore DbReactor ZmqFrames

/-- A request has at least one frame. -/
def Request := { frames : List Text // frames ≠ [] }

/-- `arrived` lists the requests that clients have sent, `inbox` those that the
reactor has not read, and `answered` the replies with the request of each.
`replying` is the socket after a request was read and before its reply. -/
structure State where
  arrived : List Request
  inbox : List Request
  replying : Bool
  stopped : Bool
  answered : List (Request × List Text)
  streaming : List (Text × List Text)
  callbacks : List (Text × List Text)

def init : State := ⟨[], [], false, false, [], [], []⟩

/-- A client sends a request, or the thread of the reactor goes on. -/
inductive Event where
  | request (request : Request)
  | turn

/-- `frame1` of a request that `respond` reads to its end.  After the last frame
the socket throws, since it then expects the reply. -/
def read (request : Request) : Option Text :=
  (receive (multipart request.val)).bind fun ((frame1, more), unread) =>
    (drain more unread).map fun _ => frame1

section

variable (records : Codec Record) (queries : Codec Query) (levelDb : LevelDb)
  (clock : Nat → UInt64) (connects : Text → Bool)

/-- `DbReactorStrategy::respond`, up to the messages that `CallbackStreamer` has
still to send.  An exception from the socket is logged and the loop goes on. -/
def respond (s : State) : Option State :=
  if s.replying then some s
  else
    match s.inbox with
    | [] => none
    | request :: inbox =>
        match read request with
        | none => some { s with inbox := inbox, replying := true }
        | some frame1 =>
            match queries.parseFromString frame1 with
            | none => some { s with inbox := inbox, replying := true, stopped := true }
            | some query =>
                let id := responseId (clock s.answered.length)
                some { s with
                  inbox := inbox
                  answered := s.answered ++ [(request, [status200, decimal id.toNat])]
                  streaming := if connects query.callback then
                    (callbackStream records levelDb id (dispatch query)).map
                      fun message => (query.callback, message) else [] }

/-- One step of `Reactor::process`. -/
def process (s : State) : Option State :=
  if s.stopped then none
  else
    match s.streaming with
    | message :: streaming =>
        some { s with streaming := streaming, callbacks := s.callbacks ++ [message] }
    | [] => respond records queries levelDb clock connects s

def step (s : State) : Event → Option State
  | .request request =>
      some { s with arrived := s.arrived ++ [request], inbox := s.inbox ++ [request] }
  | .turn => process records queries levelDb clock connects s

/-- The reactor goes from one state to the other without further requests. -/
abbrev Reaches : State → State → Prop :=
  Relation.ReflTransGen fun s s' => step records queries levelDb clock connects s .turn = some s'

/-- No request has two replies, and the reactor, left to itself, comes to have
replied to every request. -/
structure Serves (s : State) : Prop where
  once : s.answered.map Prod.fst <+: s.arrived
  all : ∃ s', Reaches records queries levelDb clock connects s s' ∧
    s'.answered.map Prod.fst = s.arrived

end

/-- The first frame that is not empty is a query, and the last frame is not empty. -/
def WellFormed (queries : Codec Query) : Event → Prop
  | .turn => True
  | .request request => request.val.getLast? ≠ some [] ∧
      ∃ key rest query, keyAndRest request.val = some (key, rest) ∧
        queries.parseFromString key = some query

theorem read_eq_some_iff {request : Request} {frame1 : Text} :
    read request = some frame1 ↔ request.val.getLast? ≠ some [] ∧
      ∃ rest, keyAndRest request.val = some (frame1, rest) := by
  have hframes := receive_multipart request.val []
  rw [List.append_nil] at hframes
  cases hkey : keyAndRest request.val with
  | none => simp [read, hframes, hkey, receive]
  | some r =>
      obtain ⟨key, rest⟩ := r
      have hlast := getLast?_of_keyAndRest hkey
      simp only [read, hframes, hkey, Option.bind_some, List.append_nil]
      rcases rest with _ | ⟨x, rest⟩
      · have hne := ne_nil_of_keyAndRest hkey
        simp [hlast, hne]
      · have hdrain := drain_multipart (List.cons_ne_nil x rest) []
        rw [List.append_nil] at hdrain
        rw [hlast, List.getLast?_cons_cons]
        change Option.map _ (drain true (multipart (x :: rest))) = _ ↔ _
        rw [hdrain]
        split_ifs with hempty
        · simp [drain, hempty]
        · simp [hempty]

theorem wellFormed_request_iff {queries : Codec Query} {request : Request} :
    WellFormed queries (.request request) ↔
      ∃ frame1 query, read request = some frame1 ∧
        queries.parseFromString frame1 = some query := by
  simp only [WellFormed, read_eq_some_iff]
  grind

/-! ### What a step does -/

section

variable {records : Codec Record} {queries : Codec Query} {levelDb : LevelDb}
  {clock : Nat → UInt64} {connects : Text → Bool} {s s' : State}

/-- No request is read, or one is read and left without a reply, or a well-formed
one is read and replied to. -/
def Consumes (queries : Codec Query) (s s' : State) : Prop :=
  s'.arrived = s.arrived ∧
    (s'.inbox = s.inbox ∧ s'.answered = s.answered ∨
      ∃ request, s.inbox = request :: s'.inbox ∧ (s'.answered = s.answered ∨
        WellFormed queries (.request request) ∧
          ∃ reply, s'.answered = s.answered ++ [(request, reply)]))

theorem respond_cases (hrespond : respond records queries levelDb clock connects s = some s') :
    Consumes queries s s' := by
  rw [respond] at hrespond
  split_ifs at hrespond
  · obtain rfl := Option.some.inj hrespond
    exact ⟨rfl, .inl ⟨rfl, rfl⟩⟩
  · cases hinbox : s.inbox with
    | nil => simp [hinbox] at hrespond
    | cons request inbox =>
        simp only [hinbox] at hrespond
        cases hread : read request with
        | none =>
            simp only [hread, Option.some.injEq] at hrespond
            subst hrespond
            exact ⟨rfl, .inr ⟨request, hinbox, .inl rfl⟩⟩
        | some frame1 =>
            simp only [hread] at hrespond
            cases hparse : queries.parseFromString frame1 with
            | none =>
                simp only [hparse, Option.some.injEq] at hrespond
                subst hrespond
                exact ⟨rfl, .inr ⟨request, hinbox, .inl rfl⟩⟩
            | some query =>
                simp only [hparse, Option.some.injEq] at hrespond
                subst hrespond
                have hwell := wellFormed_request_iff.mpr ⟨frame1, query, hread, hparse⟩
                exact ⟨rfl, .inr ⟨request, hinbox, .inr ⟨hwell, _, rfl⟩⟩⟩

theorem turn_cases
    (hturn : step records queries levelDb clock connects s .turn = some s') :
    Consumes queries s s' := by
  rw [step, process] at hturn
  split_ifs at hturn
  cases hstreaming : s.streaming with
  | cons message streaming =>
      simp only [hstreaming, Option.some.injEq] at hturn
      subst hturn
      exact ⟨rfl, .inl ⟨rfl, rfl⟩⟩
  | nil =>
      simp only [hstreaming] at hturn
      exact respond_cases hturn

/-! ### A request that is not well-formed -/

/-- A request was read and has no reply, or one that is not well-formed waits. -/
def Lost (queries : Codec Query) (s : State) : Prop :=
  s.answered.length + s.inbox.length < s.arrived.length ∨
    s.answered.length + s.inbox.length = s.arrived.length ∧
      ∃ request ∈ s.inbox, ¬ WellFormed queries (.request request)

theorem Lost.turn (hlost : Lost queries s)
    (hturn : step records queries levelDb clock connects s .turn = some s') :
    Lost queries s' := by
  obtain ⟨harrived, ⟨hinbox, hanswered⟩ | ⟨request, hinbox, hanswered⟩⟩ := turn_cases hturn
  · rwa [Lost, harrived, hinbox, hanswered]
  · rw [Lost, hinbox, List.length_cons] at hlost
    rw [Lost, harrived]
    rcases hanswered with hanswered | ⟨hwell, reply, hanswered⟩
    · rw [hanswered]
      left
      omega
    · rw [hanswered, List.length_append, List.length_singleton]
      rcases hlost with hlt | ⟨heq, bad, hmem, hbad⟩
      · left
        omega
      · right
        refine ⟨by omega, bad, ?_, hbad⟩
        rcases List.mem_cons.mp hmem with rfl | hmem
        · exact absurd hwell hbad
        · exact hmem

theorem Lost.length_lt (hlost : Lost queries s) : s.answered.length < s.arrived.length := by
  rcases hlost with hlt | ⟨heq, request, hmem, -⟩
  · omega
  · have hpos := List.length_pos_of_mem hmem
    omega

theorem Lost.reaches (hlost : Lost queries s)
    (hreaches : Reaches records queries levelDb clock connects s s') :
    Lost queries s' ∧ s'.arrived = s.arrived := by
  induction hreaches with
  | refl => exact ⟨hlost, rfl⟩
  | tail _ hturn ih => exact ⟨ih.1.turn hturn, (turn_cases hturn).1.trans ih.2⟩

theorem not_serves_of_lost (hlost : Lost queries s) :
    ¬ Serves records queries levelDb clock connects s := by
  rintro ⟨-, s', hreaches, hall⟩
  obtain ⟨hlost', harrived⟩ := hlost.reaches hreaches
  have hlength := congrArg List.length hall
  rw [List.length_map, ← harrived] at hlength
  exact hlost'.length_lt.ne hlength

/-! ### Well-formed requests -/

/-- The reactor waits for requests, and those that wait for it are well-formed. -/
structure Serving (queries : Codec Query) (s : State) : Prop where
  arrived : s.arrived = s.answered.map Prod.fst ++ s.inbox
  replying : s.replying = false
  stopped : s.stopped = false
  wellFormed : ∀ request ∈ s.inbox, WellFormed queries (.request request)

theorem Serving.init : Serving queries init where
  arrived := rfl
  replying := rfl
  stopped := rfl
  wellFormed := fun _ hmem => absurd hmem List.not_mem_nil

theorem Serving.request (hserving : Serving queries s) {request : Request}
    (hwell : WellFormed queries (.request request))
    (hstep : step records queries levelDb clock connects s (.request request) = some s') :
    Serving queries s' := by
  obtain rfl := Option.some.inj hstep
  constructor
  · simp [hserving.arrived]
  · exact hserving.replying
  · exact hserving.stopped
  · intro other hmem
    rcases List.mem_append.mp hmem with hmem | hmem
    · exact hserving.wellFormed other hmem
    · exact List.mem_singleton.mp hmem ▸ hwell

theorem respond_of_wellFormed {request : Request} {inbox : List Request}
    (hreplying : s.replying = false) (hinbox : s.inbox = request :: inbox)
    (hwell : WellFormed queries (.request request)) :
    ∃ reply streaming, respond records queries levelDb clock connects s =
      some { s with
        inbox := inbox
        answered := s.answered ++ [(request, reply)]
        streaming := streaming } := by
  obtain ⟨frame1, query, hread, hparse⟩ := wellFormed_request_iff.mp hwell
  rw [respond, if_neg (Bool.not_eq_true _ ▸ hreplying)]
  simp only [hinbox, hread, hparse]
  exact ⟨_, _, rfl⟩

theorem process_cons (hserving : Serving queries s) {message : Text × List Text}
    {streaming : List (Text × List Text)} (hstreaming : s.streaming = message :: streaming) :
    process records queries levelDb clock connects s =
      some { s with streaming := streaming, callbacks := s.callbacks ++ [message] } := by
  rw [process, if_neg (Bool.not_eq_true _ ▸ hserving.stopped)]
  simp only [hstreaming]

theorem process_nil (hserving : Serving queries s) (hstreaming : s.streaming = []) :
    process records queries levelDb clock connects s =
      respond records queries levelDb clock connects s := by
  rw [process, if_neg (Bool.not_eq_true _ ▸ hserving.stopped)]
  simp only [hstreaming]

theorem Serving.turn (hserving : Serving queries s)
    (hturn : step records queries levelDb clock connects s .turn = some s') :
    Serving queries s' := by
  rw [step] at hturn
  cases hstreaming : s.streaming with
  | cons message streaming =>
      rw [process_cons hserving hstreaming, Option.some.injEq] at hturn
      subst hturn
      exact ⟨hserving.arrived, hserving.replying, hserving.stopped, hserving.wellFormed⟩
  | nil =>
      rw [process_nil hserving hstreaming] at hturn
      cases hinbox : s.inbox with
      | nil => simp [respond, hserving.replying, hinbox] at hturn
      | cons request inbox =>
          have hwell := hserving.wellFormed request (hinbox ▸ List.mem_cons_self)
          obtain ⟨reply, streaming, hrespond⟩ := @respond_of_wellFormed records queries
            levelDb clock connects s _ _ hserving.replying hinbox hwell
          obtain rfl := Option.some.inj (hrespond.symm.trans hturn)
          constructor
          · simp [hserving.arrived, hinbox]
          · exact hserving.replying
          · exact hserving.stopped
          · intro other hmem
            exact hserving.wellFormed other (hinbox ▸ List.mem_cons_of_mem _ hmem)

/-- All messages to callback sockets are sent before the next request is read. -/
theorem Serving.streams (hserving : Serving queries s) :
    ∃ s', Reaches records queries levelDb clock connects s s' ∧ Serving queries s' ∧
      s'.streaming = [] ∧ s'.inbox = s.inbox ∧ s'.arrived = s.arrived := by
  induction hstreaming : s.streaming generalizing s with
  | nil => exact ⟨s, .refl, hserving, hstreaming, rfl, rfl⟩
  | cons message streaming ih =>
      have hturn := @process_cons records queries levelDb clock connects s hserving _ _
        hstreaming
      obtain ⟨s', hreaches, hserving', hend, hinbox, harrived⟩ :=
        ih (hserving.turn hturn) rfl
      exact ⟨s', .head hturn hreaches, hserving', hend, hinbox, harrived⟩

theorem Serving.answers (hserving : Serving queries s) :
    ∃ s', Reaches records queries levelDb clock connects s s' ∧
      s'.answered.map Prod.fst = s.arrived := by
  induction hinbox : s.inbox generalizing s with
  | nil =>
      refine ⟨s, .refl, ?_⟩
      rw [hserving.arrived, hinbox, List.append_nil]
  | cons request inbox ih =>
      obtain ⟨t, hreaches, hserving', hstreaming, hkept, harrived⟩ :=
        @Serving.streams records queries levelDb clock connects s hserving
      rw [← hkept] at hinbox
      have hwell := hserving'.wellFormed request (hinbox ▸ List.mem_cons_self)
      obtain ⟨reply, streaming, hrespond⟩ := @respond_of_wellFormed records queries
        levelDb clock connects t _ _ hserving'.replying hinbox hwell
      have hturn := (process_nil hserving' hstreaming).trans hrespond
      obtain ⟨s', hrest, hall⟩ := ih (hserving'.turn hturn) rfl
      exact ⟨s', hreaches.trans (.head hturn hrest), hall.trans harrived⟩

theorem Serving.serves (hserving : Serving queries s) :
    Serves records queries levelDb clock connects s where
  once := hserving.arrived ▸ List.prefix_append _ _
  all := hserving.answers

theorem Serving.lost (hserving : Serving queries s) {request : Request}
    (hwell : ¬ WellFormed queries (.request request))
    (hstep : step records queries levelDb clock connects s (.request request) = some s') :
    Lost queries s' := by
  obtain rfl := Option.some.inj hstep
  right
  constructor
  · simp [hserving.arrived]
  · exact ⟨request, List.mem_append_right _ List.mem_cons_self, hwell⟩

end

/-! ### Runs of the reactor -/

section

variable (records : Codec Record) (queries : Codec Query) (levelDb : LevelDb)
  (clock : Nat → UInt64) (connects : Text → Bool)

/-- The reactor replies once to every request of a run, and keeps serving, exactly
if all requests of the run are well-formed. -/
theorem serves_iff_wellFormed (events : List Event) :
    Runs.Always (step records queries levelDb clock connects)
        (Serves records queries levelDb clock connects) init events ↔
      Runs.Throughout (step records queries levelDb clock connects)
        (fun _ event => WellFormed queries event) init events := by
  apply Runs.always_iff_throughout _ (fun _ => Serving.serves)
  · intro s event s' hserving hstep hwell
    cases event with
    | request request => exact hserving.request hwell hstep
    | turn => exact hserving.turn hstep
  · intro s event s' hserving hstep hwell
    cases event with
    | request request => exact not_serves_of_lost (hserving.lost hwell hstep)
    | turn => exact absurd trivial hwell
  · exact Serving.init

end

def badRequest : Request := ⟨["hello".toList], List.cons_ne_nil _ _⟩

def goodRequest : Request :=
  ⟨[RecordWire.queryCodec.serializeToString (envelope "inproc://cb".toList sessionQuery)],
    List.cons_ne_nil _ _⟩

/-- A request that is not a query stops the reactor, and the query after it gets
no reply. -/
theorem not_always_serves :
    ¬ ∀ events, Runs.Always (step RecordWire.recordCodec RecordWire.queryCodec sessionStore
        (fun _ => 1000007) fun _ => true)
      (Serves RecordWire.recordCodec RecordWire.queryCodec sessionStore
        (fun _ => 1000007) fun _ => true) init events := by
  intro halways
  refine not_serves_of_lost (.inr ⟨rfl, badRequest, List.mem_cons_self, ?_⟩)
    (halways [.request badRequest, .request goodRequest] _ [] _ (List.append_nil _).symm rfl)
  rw [wellFormed_request_iff]
  rintro ⟨frame1, query, hread, hparse⟩
  obtain rfl : "hello".toList = frame1 := Option.some.inj hread
  have hnone : RecordWire.queryCodec.parseFromString "hello".toList = none := by decide
  exact Option.some_ne_none query (hparse.symm.trans hnone)

end Atp.Reactor
