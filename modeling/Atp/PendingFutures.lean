import Atp.Runs
import Mathlib.Logic.Function.Basic

/-!
Requests that are put on a wire and then registered under a key, and responses that
are handed to the request registered under their key.  A response that comes between
the two halves of a request, or after another request has taken its key, does not
reach it.
-/

namespace Atp.PendingFutures

variable {κ ρ : Type*}

/-- A request, under way once it has been handed to the wire.  `sent` says whether it
got there, and `returned` whether it has been registered. -/
structure Request (κ : Type*) where
  key : κ
  sent : Bool
  returned : Bool

/-- The requests are numbered, and so are the futures that they return.  `owed` records
which of them were on the wire when a response with their key came. -/
structure State (κ ρ : Type*) where
  requests : Nat → Option (Request κ)
  pending : κ → Option Nat
  responses : Nat → Option ρ
  owed : Nat → Prop

def init : State κ ρ := ⟨fun _ => none, fun _ => none, fun _ => none, fun _ => False⟩

inductive Action (κ ρ : Type*) where
  | wire (call : Nat) (key : κ) (sent : Bool)
  | register (call : Nat)
  | respond (response : ρ)

def OnWire (s : State κ ρ) (key : κ) (call : Nat) : Prop :=
  ∃ request, s.requests call = some request ∧ request.key = key ∧ request.sent = true

variable (keyOf : ρ → κ)

/-- The futures after a response was handed to the one that is pending under its key. -/
def deliver [DecidableEq κ] (s : State κ ρ) (response : ρ) (call : Nat) : Option ρ :=
  if s.pending (keyOf response) = some call then some response else s.responses call

def step [DecidableEq κ] (s : State κ ρ) : Action κ ρ → Option (State κ ρ)
  | .wire call key sent =>
      match s.requests call with
      | none => some { s with
          requests := Function.update s.requests call (some ⟨key, sent, false⟩) }
      | some _ => none
  | .register call =>
      match s.requests call with
      | some ⟨key, sent, false⟩ => some { s with
          requests := Function.update s.requests call (some ⟨key, sent, true⟩)
          pending := Function.update s.pending key (some call) }
      | _ => none
  | .respond response => some { s with
      responses := deliver keyOf s response
      owed := fun call => s.owed call ∨ OnWire s (keyOf response) call }

/-- Every request that is owed a response has one with its key. -/
def Answered (s : State κ ρ) : Prop :=
  ∀ call, s.owed call → ∃ request response, s.requests call = some request ∧
    s.responses call = some response ∧ keyOf response = request.key

/-- When a response comes, every request with its key that is on the wire is the one
registered under the key, or has had its response. -/
def Settled (s : State κ ρ) : Action κ ρ → Prop
  | .respond response => ∀ call, OnWire s (keyOf response) call →
      s.pending (keyOf response) = some call ∨ (s.responses call).isSome
  | _ => True

/-- What every step keeps: entries and responses are those of requests with their key. -/
structure Inv (s : State κ ρ) : Prop where
  pending : ∀ {key call}, s.pending key = some call →
    ∃ request, s.requests call = some request ∧ request.key = key
  responses : ∀ {call response}, s.responses call = some response →
    ∃ request, s.requests call = some request ∧ keyOf response = request.key
  answered : Answered keyOf s

theorem inv_init : Inv keyOf (init : State κ ρ) where
  pending h := by cases h
  responses h := by cases h
  answered := nofun

variable [DecidableEq κ] {keyOf} {s s' : State κ ρ} {action : Action κ ρ}

theorem step_cases (hstep : step keyOf s action = some s') :
    (∃ call key sent, action = .wire call key sent ∧ s.requests call = none ∧
      s' = { s with requests := Function.update s.requests call (some ⟨key, sent, false⟩) }) ∨
    (∃ call key sent, action = .register call ∧ s.requests call = some ⟨key, sent, false⟩ ∧
      s' = { s with
        requests := Function.update s.requests call (some ⟨key, sent, true⟩)
        pending := Function.update s.pending key (some call) }) ∨
    ∃ response, action = .respond response ∧
      s' = { s with
        responses := deliver keyOf s response
        owed := fun call => s.owed call ∨ OnWire s (keyOf response) call } := by
  unfold step at hstep
  split at hstep
  · split at hstep
    · exact .inl ⟨_, _, _, rfl, ‹_›, (Option.some.inj hstep).symm⟩
    · cases hstep
  · split at hstep
    · exact .inr (.inl ⟨_, _, _, rfl, ‹_›, (Option.some.inj hstep).symm⟩)
    · cases hstep
  · exact .inr (.inr ⟨_, rfl, (Option.some.inj hstep).symm⟩)

/-- A request keeps its key. -/
theorem requests_of_step (hstep : step keyOf s action = some s') {call : Nat}
    {request : Request κ} (hrequest : s.requests call = some request) :
    ∃ request', s'.requests call = some request' ∧ request'.key = request.key := by
  rcases step_cases hstep with ⟨started, key, sent, -, hnone, rfl⟩ |
    ⟨returning, key, sent, -, hsome, rfl⟩ | ⟨response, -, rfl⟩
  · have hne : call ≠ started := by
      rintro rfl
      cases hnone.symm.trans hrequest
    exact ⟨request, (Function.update_of_ne hne _ _).trans hrequest, rfl⟩
  · rcases eq_or_ne call returning with rfl | hne
    · obtain rfl := Option.some.inj (hsome.symm.trans hrequest)
      exact ⟨_, Function.update_self _ _ _, rfl⟩
    · exact ⟨request, (Function.update_of_ne hne _ _).trans hrequest, rfl⟩
  · exact ⟨request, hrequest, rfl⟩

theorem pending_of_step (hs : Inv keyOf s) (hstep : step keyOf s action = some s') {key : κ}
    {call : Nat} (hpending : s'.pending key = some call) :
    ∃ request, s'.requests call = some request ∧ request.key = key := by
  have hold : s.pending key = some call →
      ∃ request, s'.requests call = some request ∧ request.key = key := by
    intro h
    obtain ⟨request, hrequest, rfl⟩ := hs.pending h
    exact requests_of_step hstep hrequest
  rcases step_cases hstep with ⟨started, key', sent, -, -, rfl⟩ |
    ⟨returning, key', sent, -, -, rfl⟩ | ⟨response, -, rfl⟩
  · exact hold hpending
  · change Function.update s.pending key' (some returning) key = some call at hpending
    rcases eq_or_ne key key' with rfl | hne
    · rw [Function.update_self] at hpending
      obtain rfl := Option.some.inj hpending
      exact ⟨_, Function.update_self _ _ _, rfl⟩
    · rw [Function.update_of_ne hne] at hpending
      exact hold hpending
  · exact hold hpending

theorem responses_of_step (hs : Inv keyOf s) (hstep : step keyOf s action = some s')
    {call : Nat} {response : ρ} (hresponse : s'.responses call = some response) :
    ∃ request, s'.requests call = some request ∧ keyOf response = request.key := by
  have hold : s.responses call = some response →
      ∃ request, s'.requests call = some request ∧ keyOf response = request.key := by
    intro h
    obtain ⟨request, hrequest, hkey⟩ := hs.responses h
    obtain ⟨request', hrequest', hkey'⟩ := requests_of_step hstep hrequest
    exact ⟨request', hrequest', hkey.trans hkey'.symm⟩
  rcases step_cases hstep with ⟨started, key', sent, -, -, rfl⟩ |
    ⟨returning, key', sent, -, -, rfl⟩ | ⟨delivered, -, rfl⟩
  · exact hold hresponse
  · exact hold hresponse
  · change deliver keyOf s delivered call = some response at hresponse
    unfold deliver at hresponse
    split_ifs at hresponse with hpending
    · obtain ⟨request, hrequest, hkey⟩ := hs.pending hpending
      exact ⟨request, hrequest, by rw [← Option.some.inj hresponse, hkey]⟩
    · exact hold hresponse

/-- A future that is ready stays so. -/
theorem isSome_responses_of_step (hstep : step keyOf s action = some s') {call : Nat}
    (hsome : (s.responses call).isSome) : (s'.responses call).isSome := by
  rcases step_cases hstep with ⟨started, key', sent, -, -, rfl⟩ |
    ⟨returning, key', sent, -, -, rfl⟩ | ⟨delivered, -, rfl⟩
  · exact hsome
  · exact hsome
  · change (deliver keyOf s delivered call).isSome
    unfold deliver
    split_ifs
    · rfl
    · exact hsome

theorem answered_of_step (hs : Inv keyOf s) (hstep : step keyOf s action = some s')
    (hsettled : Settled keyOf s action) : Answered keyOf s' := by
  have hready : ∀ call, s'.owed call → (s'.responses call).isSome := by
    intro call howed
    have hold : s.owed call → (s'.responses call).isSome := by
      intro h
      obtain ⟨request, response, -, hresponse, -⟩ := hs.answered call h
      exact isSome_responses_of_step hstep (Option.isSome_of_eq_some hresponse)
    rcases step_cases hstep with ⟨started, key', sent, -, -, rfl⟩ |
      ⟨returning, key', sent, -, -, rfl⟩ | ⟨delivered, rfl, rfl⟩
    · exact hold howed
    · exact hold howed
    · rcases howed with howed | hwire
      · exact hold howed
      · change (deliver keyOf s delivered call).isSome
        rcases hsettled call hwire with hpending | hready
        · rw [deliver, if_pos hpending]
          rfl
        · exact isSome_responses_of_step hstep hready
  intro call howed
  obtain ⟨response, hresponse⟩ := Option.isSome_iff_exists.mp (hready call howed)
  obtain ⟨request, hrequest, hkey⟩ := responses_of_step hs hstep hresponse
  exact ⟨request, response, hrequest, hresponse, hkey⟩

theorem inv_of_step (hs : Inv keyOf s) (hstep : step keyOf s action = some s')
    (hsettled : Settled keyOf s action) : Inv keyOf s' :=
  ⟨pending_of_step hs hstep, responses_of_step hs hstep, answered_of_step hs hstep hsettled⟩

theorem not_answered_of_step (hstep : step keyOf s action = some s')
    (hsettled : ¬ Settled keyOf s action) : ¬ Answered keyOf s' := by
  rcases step_cases hstep with ⟨started, key', sent, rfl, -, -⟩ |
    ⟨returning, key', sent, rfl, -, -⟩ | ⟨delivered, rfl, rfl⟩
  · exact absurd trivial hsettled
  · exact absurd trivial hsettled
  · simp only [Settled, not_forall, not_or] at hsettled
    obtain ⟨call, hwire, hpending, hready⟩ := hsettled
    intro hall
    obtain ⟨request, response, -, hresponse, -⟩ := hall call (.inr hwire)
    change deliver keyOf s delivered call = some response at hresponse
    rw [deliver, if_neg hpending] at hresponse
    exact hready (Option.isSome_of_eq_some hresponse)

end Atp.PendingFutures
