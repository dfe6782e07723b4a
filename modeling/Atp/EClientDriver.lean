import Atp.Runs

/-!
The driver of the API socket: the thread that connects, and the listener thread,
which runs its message loop once.  The listener keeps the mutex from the moment
it finds the state running until it leaves the loop, and a connection that is
made after that has no listener.
-/

namespace Atp.EClientDriver

inductive State where
  | starting | running | stopping | stopped
deriving DecidableEq

/-- Where the listener thread is in `block`. -/
inductive Listener where
  | waiting | atLoopHead | checkingMessages | left
deriving DecidableEq

/-- Where the connecting thread is in `Connect`. -/
inductive Connecting where
  | no | onConnect | notified
deriving DecidableEq

/-- `connectedOnce` is not a field of the driver: it records that a call of
`Connect` has returned true. -/
structure Driver where
  socketOk : Bool := false
  state : State := .starting
  socketConnected : Bool := false
  listener : Listener := .waiting
  connecting : Connecting := .no
  disconnecting : Bool := false
  connectedOnce : Bool := false

namespace Driver

def isSocketOK (d : Driver) : Bool := d.socketOk && d.state = .running

/-- The listener holds the mutex while it is in its loop. -/
def mutexFree (d : Driver) : Bool := d.listener = .waiting || d.listener = .left

def closeSocket (d : Driver) : Driver := { d with socketConnected := false }

end Driver

/-- The steps of the two threads and of those that send and receive. -/
inductive Action where
  | connectRefused
  | connectAccepted
  | enterRunning
  | connectReturns
  | sendFails
  | receiveFails
  | reset
  | disconnect
  | disconnected (closed : Bool)
  | wake
  | checkSocket
  | messagesChecked (processed : Bool)
  | checkMessagesThrows

open Driver

/-- A second connect on a connected socket fails, `Connect` takes the mutex before
it sets the state, and `Disconnect` joins the listener if the socket was closed. -/
def enabled (d : Driver) : Action → Bool
  | .connectRefused => d.connecting = .no
  | .connectAccepted => d.connecting = .no && !d.socketConnected
  | .enterRunning => d.connecting = .onConnect && d.mutexFree
  | .connectReturns => d.connecting = .notified
  | .sendFails => true
  | .receiveFails => true
  | .reset => true
  | .disconnect => true
  | .disconnected closed => d.disconnecting && (!closed || d.listener = .left)
  | .wake => d.listener = .waiting && d.state = .running
  | .checkSocket => d.listener = .atLoopHead
  | .messagesChecked _ => d.listener = .checkingMessages
  | .checkMessagesThrows => d.listener = .checkingMessages

def effect (d : Driver) : Action → Driver
  | .connectRefused => { d with socketOk := false }
  | .connectAccepted =>
      { d with socketOk := true, socketConnected := true, connecting := .onConnect }
  | .enterRunning => { d with state := .running, connecting := .notified }
  | .connectReturns =>
      { d with connecting := .no, connectedOnce := d.connectedOnce || d.isSocketOK }
  | .sendFails => { d with socketOk := false, state := .stopping }
  | .receiveFails => { d with socketOk := false, state := .stopping }.closeSocket
  | .reset => d.closeSocket
  | .disconnect => { d with state := .stopping, disconnecting := true }.closeSocket
  | .disconnected _ => { d with state := .stopped, disconnecting := false }
  | .wake => { d with listener := .atLoopHead }
  | .checkSocket =>
      { d with listener := if d.isSocketOK then .checkingMessages else .left }
  | .messagesChecked processed =>
      { d with listener := if processed then .atLoopHead else .left }
  | .checkMessagesThrows => { d with state := .stopping, listener := .left }.closeSocket

def step (d : Driver) (action : Action) : Option Driver :=
  if enabled d action then some (effect d action) else none

/-- While the socket is OK and a call has said so, somebody listens. -/
def Listening (d : Driver) : Prop :=
  d.isSocketOK = true → d.connectedOnce = true → d.listener ≠ .left

/-- After the listener has left, no connection makes the socket OK, and it does not
leave because no message was processed while the socket is OK. -/
def KeepsListener (d : Driver) : Action → Prop
  | .connectAccepted => d.listener = .left → d.connectedOnce = true → d.state ≠ .running
  | .enterRunning => d.listener = .left → d.connectedOnce = true → d.socketOk = false
  | .connectReturns => d.listener = .left → d.isSocketOK = false
  | .messagesChecked processed =>
      processed = false → d.connectedOnce = true → d.isSocketOK = false
  | _ => True

/-- The listener leaves its loop once and for all. -/
theorem left_of_step {d d' : Driver} {action : Action} (hleft : d.listener = .left)
    (hstep : step d action = some d') : d'.listener = .left := by
  obtain ⟨henabled, heffect⟩ := Option.ite_some_none_eq_some.mp hstep
  subst heffect
  cases action with
  | wake => simp [enabled, hleft] at henabled
  | checkSocket => simp [enabled, hleft] at henabled
  | messagesChecked processed => simp [enabled, hleft] at henabled
  | checkMessagesThrows => rfl
  | _ => exact hleft

theorem left_of_run {d d' : Driver} {actions : List Action} (hleft : d.listener = .left)
    (hrun : Runs.run step d actions = some d') : d'.listener = .left :=
  Runs.inv_of_run step (fun _ _ _ hleft hstep => left_of_step hleft hstep) hleft hrun

/-! ### Which steps keep the listener -/

theorem listening_of_not_ok {d : Driver} (hd : d.isSocketOK = false) : Listening d := by
  intro hok
  rw [hd] at hok
  cases hok

theorem listening_effect_iff {d : Driver} (hd : Listening d) (action : Action) :
    Listening (effect d action) ↔ KeepsListener d action := by
  cases action with
  | connectRefused => exact iff_of_true (listening_of_not_ok rfl) trivial
  | connectAccepted =>
      change (true && decide (d.state = .running)) = true → d.connectedOnce = true →
        d.listener ≠ .left ↔ _
      rw [Bool.true_and, decide_eq_true_eq]
      exact ⟨fun h hleft honce hrunning => h hrunning honce hleft,
        fun h hrunning honce hleft => h hleft honce hrunning⟩
  | enterRunning =>
      change (d.socketOk && true) = true → d.connectedOnce = true → d.listener ≠ .left ↔ _
      rw [Bool.and_true]
      exact ⟨fun h hleft honce => Bool.eq_false_iff.mpr fun hok => h hok honce hleft,
        fun h hok honce hleft => Bool.eq_false_iff.mp (h hleft honce) hok⟩
  | connectReturns =>
      change d.isSocketOK = true → (d.connectedOnce || d.isSocketOK) = true →
        d.listener ≠ .left ↔ _
      constructor
      · intro h hleft
        rw [Bool.eq_false_iff]
        intro hok
        exact h hok (by rw [hok, Bool.or_true]) hleft
      · intro h hok _ hleft
        exact Bool.eq_false_iff.mp (h hleft) hok
  | sendFails => exact iff_of_true (listening_of_not_ok rfl) trivial
  | receiveFails => exact iff_of_true (listening_of_not_ok rfl) trivial
  | reset => exact iff_of_true hd trivial
  | disconnect => exact iff_of_true (listening_of_not_ok (Bool.and_false _)) trivial
  | disconnected closed => exact iff_of_true (listening_of_not_ok (Bool.and_false _)) trivial
  | wake => exact iff_of_true (fun _ _ => nofun) trivial
  | checkSocket =>
      refine iff_of_true (fun hok _ => ?_) trivial
      have hok : d.isSocketOK = true := hok
      change (if d.isSocketOK then Listener.checkingMessages else .left) ≠ .left
      rw [if_pos hok]
      nofun
  | messagesChecked processed =>
      change d.isSocketOK = true → d.connectedOnce = true →
        (if processed = true then Listener.atLoopHead else .left) ≠ .left ↔ _
      cases processed with
      | true => exact iff_of_true (fun _ _ => nofun) nofun
      | false =>
          exact ⟨fun h _ honce => Bool.eq_false_iff.mpr fun hok => h hok honce rfl,
            fun h hok honce _ => Bool.eq_false_iff.mp (h rfl honce) hok⟩
  | checkMessagesThrows =>
      exact iff_of_true (listening_of_not_ok (Bool.and_false _)) trivial

theorem listening_step_iff {d d' : Driver} {action : Action} (hd : Listening d)
    (hstep : step d action = some d') : Listening d' ↔ KeepsListener d action := by
  obtain ⟨-, heffect⟩ := Option.ite_some_none_eq_some.mp hstep
  exact heffect ▸ listening_effect_iff hd action

/-- In every interleaving, somebody listens in every state reached if and only if
every step keeps the listener. -/
theorem listening_iff_keepsListener (actions : List Action) :
    Runs.Always step Listening {} actions ↔ Runs.Throughout step KeepsListener {} actions :=
  Runs.always_iff_throughout step (fun _ hd => hd)
    (fun _ _ _ hd hstep hkeeps => (listening_step_iff hd hstep).mpr hkeeps)
    (fun _ _ _ hd hstep hkeeps => mt (listening_step_iff hd hstep).mp hkeeps)
    (listening_of_not_ok rfl) actions

/-- A send fails while the first connection is announced.  The listener finds the
state running and the socket not OK, and leaves; the next attempt returns true. -/
theorem not_listening_second_attempt :
    ¬ Runs.Always step Listening {}
      [.connectAccepted, .sendFails, .enterRunning, .connectReturns, .wake, .checkSocket,
        .reset, .connectAccepted, .enterRunning, .connectReturns] := by
  intro halways
  have hlistening := halways _ [] _ (List.append_nil _).symm rfl
  exact hlistening rfl rfl rfl

end Atp.EClientDriver
