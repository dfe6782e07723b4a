import Atp.LexicalCast
import Atp.Runs
import Mathlib.Data.List.AList

/-!
The outbound channels of an initiator before it starts.  A published channel is
given an in-process address of its own, while a publisher is created once for
each endpoint, bound at the address of the channel that came first.
-/

namespace Atp.SocketInitiator

/-- A publisher that is ready: both of its sockets are bound. -/
structure Publisher where
  addr : Text
  publishAddr : Text

structure Initiator where
  outboundChannels : AList fun _ : Int32 => Text := ∅
  publishers : AList fun _ : Text => Publisher := ∅

def connectorOutboundAddress (channel : Int32) : Text :=
  "inproc://channel-".toList ++ integer channel.toInt

/-- Whether a new publisher could bind its sockets; the process ends if not. -/
def publish (i : Initiator) (channel : Int32) (address : Text) (binds : Bool) :
    Option Initiator :=
  match i.outboundChannels.lookup channel with
  | some _ => some i
  | none =>
      let outboundChannels :=
        i.outboundChannels.insert channel (connectorOutboundAddress channel)
      match i.publishers.lookup address with
      | some _ => some { i with outboundChannels := outboundChannels }
      | none =>
          if binds then some {
            outboundChannels := outboundChannels
            publishers := i.publishers.insert address
              ⟨connectorOutboundAddress channel, address⟩ }
          else none

def push (i : Initiator) (channel : Int32) (address : Text) : Initiator :=
  match i.outboundChannels.lookup channel with
  | some _ => i
  | none => { i with outboundChannels := i.outboundChannels.insert channel address }

inductive Action where
  | publish (channel : Int32) (address : Text) (binds : Bool)
  | push (channel : Int32) (address : Text)

/-- What a call asks for. -/
inductive Request where
  | publish (address : Text)
  | push (address : Text)

namespace Action

def channel : Action → Int32
  | publish channel _ _ => channel
  | push channel _ => channel

def request : Action → Request
  | publish _ address _ => .publish address
  | push _ address => .push address

end Action

/-- The initiator, and what the first call for each channel asked for. -/
structure State where
  initiator : Initiator := {}
  requested : AList fun _ : Int32 => Request := ∅

def call (i : Initiator) : Action → Option Initiator
  | .publish channel address binds => publish i channel address binds
  | .push channel address => some (push i channel address)

def step (s : State) (action : Action) : Option State :=
  (call s.initiator action).map fun initiator => {
    initiator := initiator
    requested := match s.requested.lookup action.channel with
      | some _ => s.requested
      | none => s.requested.insert action.channel action.request }

/-- What is sent to the address gets to where the request wanted it. -/
def Reaches (i : Initiator) (addr : Text) : Request → Prop
  | .publish address => "inproc://".toList <+: addr ∧
      ∃ publisher, i.publishers.lookup address = some publisher ∧
        publisher.addr = addr ∧ publisher.publishAddr = address
  | .push address => addr = address

def Live (s : State) : Prop :=
  ∀ channel addr, s.initiator.outboundChannels.lookup channel = some addr →
    ∃ request, s.requested.lookup channel = some request ∧ Reaches s.initiator addr request

/-- A channel that is published for the first time gets an endpoint that has no
publisher yet. -/
def NewEndpoint (s : State) : Action → Prop
  | .publish channel address _ => s.initiator.outboundChannels.lookup channel = none →
      s.initiator.publishers.lookup address = none
  | .push _ _ => True

/-! ### What a call can do -/

theorem connectorOutboundAddress_injective {a b : Int32}
    (hab : connectorOutboundAddress a = connectorOutboundAddress b) : a = b := by
  have hcast := congrArg LexicalCast.int (List.append_cancel_left hab)
  rw [LexicalCast.int_integer, LexicalCast.int_integer] at hcast
  exact Except.ok.inj hcast

theorem inproc_connectorOutboundAddress (channel : Int32) :
    "inproc://".toList <+: connectorOutboundAddress channel :=
  ⟨"channel-".toList ++ integer channel.toInt, rfl⟩

/-- A call for a channel that is mapped changes nothing. -/
theorem call_of_mapped {i i' : Initiator} {action : Action} {addr : Text}
    (hmapped : i.outboundChannels.lookup action.channel = some addr)
    (hcall : call i action = some i') : i' = i := by
  cases action with
  | publish channel address binds =>
      change publish i channel address binds = some i' at hcall
      change i.outboundChannels.lookup channel = some addr at hmapped
      unfold publish at hcall
      rw [hmapped] at hcall
      exact (Option.some.inj hcall).symm
  | push channel address =>
      change some (push i channel address) = some i' at hcall
      change i.outboundChannels.lookup channel = some addr at hmapped
      unfold push at hcall
      rw [hmapped] at hcall
      exact (Option.some.inj hcall).symm

/-- A call for a new channel routes it to a new publisher, to the address of no
publisher, or to the endpoint. -/
theorem call_of_new {i i' : Initiator} {action : Action}
    (hnew : i.outboundChannels.lookup action.channel = none)
    (hcall : call i action = some i') :
    (∃ address, action.request = .publish address ∧ i.publishers.lookup address = none ∧
      i' = ⟨i.outboundChannels.insert action.channel (connectorOutboundAddress action.channel),
        i.publishers.insert address ⟨connectorOutboundAddress action.channel, address⟩⟩) ∨
    (∃ address publisher, action.request = .publish address ∧
      i.publishers.lookup address = some publisher ∧
      i' = ⟨i.outboundChannels.insert action.channel (connectorOutboundAddress action.channel),
        i.publishers⟩) ∨
    (∃ address, action.request = .push address ∧
      i' = ⟨i.outboundChannels.insert action.channel address, i.publishers⟩) := by
  cases action with
  | publish channel address binds =>
      change publish i channel address binds = some i' at hcall
      change i.outboundChannels.lookup channel = none at hnew
      unfold publish at hcall
      rw [hnew] at hcall
      dsimp only at hcall
      split at hcall
      · rename_i publisher hpublisher
        exact .inr (.inl ⟨address, publisher, rfl, hpublisher, (Option.some.inj hcall).symm⟩)
      · rename_i hpublisher
        split_ifs at hcall
        exact .inl ⟨address, rfl, hpublisher, (Option.some.inj hcall).symm⟩
  | push channel address =>
      change some (push i channel address) = some i' at hcall
      change i.outboundChannels.lookup channel = none at hnew
      unfold push at hcall
      rw [hnew] at hcall
      exact .inr (.inr ⟨address, rfl, (Option.some.inj hcall).symm⟩)

/-! ### The invariant -/

structure Inv (s : State) : Prop where
  live : Live s
  requested : ∀ channel, s.requested.lookup channel = none ↔
    s.initiator.outboundChannels.lookup channel = none
  bound : ∀ address publisher, s.initiator.publishers.lookup address = some publisher →
    ∃ channel, s.initiator.outboundChannels.lookup channel ≠ none ∧
      publisher.addr = connectorOutboundAddress channel

theorem inv_init : Inv {} where
  live := by
    intro channel addr hlookup
    cases hlookup
  requested _ := iff_of_true rfl rfl
  bound := by
    intro address publisher hlookup
    cases hlookup

theorem live_insert {s : State} (hs : Live s) {publishers : AList fun _ : Text => Publisher}
    (hkept : ∀ address publisher, s.initiator.publishers.lookup address = some publisher →
      publishers.lookup address = some publisher) {channel : Int32} {addr : Text}
    {request : Request}
    (hreaches : Reaches ⟨s.initiator.outboundChannels.insert channel addr, publishers⟩ addr
      request) :
    Live ⟨⟨s.initiator.outboundChannels.insert channel addr, publishers⟩,
      s.requested.insert channel request⟩ := by
  intro channel' addr' hlookup
  rcases eq_or_ne channel' channel with rfl | hne
  · obtain rfl := Option.some.inj ((AList.lookup_insert _).symm.trans hlookup)
    exact ⟨request, AList.lookup_insert _, hreaches⟩
  · have hlookup := (AList.lookup_insert_ne hne).symm.trans hlookup
    obtain ⟨request', hrequest', hreaches'⟩ := hs channel' addr' hlookup
    refine ⟨request', (AList.lookup_insert_ne hne).trans hrequest', ?_⟩
    cases request' with
    | publish address =>
        obtain ⟨hinproc, publisher, hpublisher, hbound⟩ := hreaches'
        exact ⟨hinproc, publisher, hkept address publisher hpublisher, hbound⟩
    | push address => exact hreaches'

theorem requested_insert {s : State} (hs : Inv s) (channel : Int32) (addr : Text)
    (request : Request) (channel' : Int32) :
    (s.requested.insert channel request).lookup channel' = none ↔
      (s.initiator.outboundChannels.insert channel addr).lookup channel' = none := by
  rcases eq_or_ne channel' channel with rfl | hne
  · rw [AList.lookup_insert, AList.lookup_insert]
    exact iff_of_false nofun nofun
  · rw [AList.lookup_insert_ne hne, AList.lookup_insert_ne hne]
    exact hs.requested channel'

theorem ne_none_insert {m : AList fun _ : Int32 => Text} {channel : Int32}
    (hmapped : m.lookup channel ≠ none) (channel' : Int32) (addr : Text) :
    (m.insert channel' addr).lookup channel ≠ none := by
  rcases eq_or_ne channel channel' with rfl | hne
  · rw [AList.lookup_insert]
    nofun
  · rwa [AList.lookup_insert_ne hne]

/-- A step leaves the state as it is, or maps a channel for the first time. -/
theorem step_cases {s s' : State} {action : Action} (hs : Inv s)
    (hstep : step s action = some s') :
    (s.initiator.outboundChannels.lookup action.channel ≠ none ∧ s' = s) ∨
      (s.initiator.outboundChannels.lookup action.channel = none ∧
        call s.initiator action = some s'.initiator ∧
        s'.requested = s.requested.insert action.channel action.request) := by
  obtain ⟨initiator, hcall, rfl⟩ := Option.map_eq_some_iff.mp hstep
  cases hmapped : s.initiator.outboundChannels.lookup action.channel with
  | none =>
      refine .inr ⟨rfl, hcall, ?_⟩
      dsimp only
      rw [(hs.requested _).mpr hmapped]
  | some addr =>
      have hrequested : s.requested.lookup action.channel ≠ none := by
        rw [ne_eq, hs.requested, hmapped]
        nofun
      obtain ⟨request, hrequest⟩ := Option.ne_none_iff_exists'.mp hrequested
      refine .inl ⟨nofun, ?_⟩
      rw [call_of_mapped hmapped hcall, hrequest]

theorem inv_of_step {s s' : State} {action : Action} (hs : Inv s)
    (hstep : step s action = some s') (hnew : NewEndpoint s action) : Inv s' := by
  rcases step_cases hs hstep with ⟨-, rfl⟩ | ⟨hunmapped, hcall, hrequested⟩
  · exact hs
  · obtain ⟨initiator, requested⟩ := s'
    obtain rfl : requested = s.requested.insert action.channel action.request := hrequested
    have hkeptBound : ∀ addr address publisher,
        s.initiator.publishers.lookup address = some publisher → ∃ channel,
          (s.initiator.outboundChannels.insert action.channel addr).lookup channel ≠ none ∧
            publisher.addr = connectorOutboundAddress channel := by
      intro addr address publisher hpublisher
      obtain ⟨channel, hmapped, hbound⟩ := hs.bound address publisher hpublisher
      exact ⟨channel, ne_none_insert hmapped _ _, hbound⟩
    rcases call_of_new hunmapped hcall with ⟨address, hrequest, hfree, rfl⟩ |
      ⟨address, publisher, hrequest, hshared, rfl⟩ | ⟨address, hrequest, rfl⟩
    · rw [hrequest]
      refine ⟨live_insert hs.live ?_ ?_, requested_insert hs _ _ _, ?_⟩
      · intro address' publisher' hpublisher'
        have hne : address' ≠ address := by
          rintro rfl
          rw [hfree] at hpublisher'
          cases hpublisher'
        exact (AList.lookup_insert_ne hne).trans hpublisher'
      · exact ⟨inproc_connectorOutboundAddress _, _, AList.lookup_insert _, rfl, rfl⟩
      · intro address' publisher' hpublisher'
        rcases eq_or_ne address' address with rfl | hne
        · obtain rfl := Option.some.inj ((AList.lookup_insert _).symm.trans hpublisher')
          refine ⟨action.channel, ?_, rfl⟩
          rw [AList.lookup_insert]
          nofun
        · exact hkeptBound _ address' publisher'
            ((AList.lookup_insert_ne hne).symm.trans hpublisher')
    · cases action with
      | publish channel address' binds =>
          obtain rfl := Request.publish.inj hrequest
          rw [hnew hunmapped] at hshared
          cases hshared
      | push channel address' => cases hrequest
    · rw [hrequest]
      exact ⟨live_insert hs.live (fun _ _ h => h) rfl, requested_insert hs _ _ _,
        hkeptBound address⟩

theorem not_live_of_step {s s' : State} {action : Action} (hs : Inv s)
    (hstep : step s action = some s') (hnew : ¬ NewEndpoint s action) : ¬ Live s' := by
  intro hlive
  cases action with
  | push channel address => exact hnew trivial
  | publish channel address binds =>
      obtain ⟨hunmapped, hshared⟩ := Classical.not_imp.mp hnew
      obtain ⟨publisher, hpublisher⟩ := Option.ne_none_iff_exists'.mp hshared
      obtain ⟨channel', hmapped', hbound⟩ := hs.bound address publisher hpublisher
      rcases step_cases hs hstep with ⟨hmapped, -⟩ | ⟨-, hcall, hrequested⟩
      · exact hmapped hunmapped
      · have hcases := @call_of_new _ _ (.publish channel address binds) hunmapped hcall
        rcases hcases with ⟨address', hrequest, hfree, -⟩ |
          ⟨address', publisher', hrequest, hpublisher', hinitiator⟩ | ⟨address', hrequest, -⟩
        · obtain rfl := Request.publish.inj hrequest
          exact hshared hfree
        · obtain rfl := Request.publish.inj hrequest
          have hoff : s'.initiator.outboundChannels.lookup channel =
              some (connectorOutboundAddress channel) := by
            rw [hinitiator]
            exact AList.lookup_insert _
          obtain ⟨request, hrequest', hreaches⟩ := hlive channel _ hoff
          rw [hrequested] at hrequest'
          obtain rfl := Option.some.inj ((AList.lookup_insert _).symm.trans hrequest')
          obtain ⟨-, publisher'', hpublisher'', haddr, -⟩ := hreaches
          rw [hinitiator] at hpublisher''
          obtain rfl := Option.some.inj (hpublisher''.symm.trans hpublisher)
          rw [hbound] at haddr
          rw [connectorOutboundAddress_injective haddr] at hmapped'
          exact hmapped' hunmapped
        · cases hrequest

/-- Every mapped channel is live after every call of a run if and only if no
channel is published for the first time to an endpoint that has a publisher. -/
theorem live_iff_newEndpoint (actions : List Action) :
    Runs.Always step Live {} actions ↔ Runs.Throughout step NewEndpoint {} actions :=
  Runs.always_iff_throughout step (fun _ hs => hs.live)
    (fun _ _ _ hs hstep hnew => inv_of_step hs hstep hnew)
    (fun _ _ _ hs hstep hnew => not_live_of_step hs hstep hnew) inv_init actions

/-- Two channels published to one endpoint: what the second one sends goes to
`inproc://channel-1`, which nothing is bound at. -/
theorem not_live_shared_endpoint :
    ¬ Runs.Always step Live {}
      [.publish 0 "tcp://127.0.0.1:17777".toList true,
        .publish 1 "tcp://127.0.0.1:17777".toList true] := by
  intro halways
  have hlive := halways _ [] _ (List.append_nil _).symm rfl
  obtain ⟨request, hrequest, hreaches⟩ := hlive 1 _ rfl
  obtain rfl := Option.some.inj hrequest
  obtain ⟨-, publisher, hpublisher, haddr, -⟩ := hreaches
  obtain rfl := Option.some.inj hpublisher
  exact absurd haddr (by decide)

end Atp.SocketInitiator
