import Atp.Runs
import Mathlib.Data.UInt
import Mathlib.Logic.Function.Basic

/-!
A response that is set once it has arrived, and the calls that wait for it.  A call
tests for the response when it begins and not when it wakes up.
-/

namespace Atp.AsyncResponse

/-- Why a call of `wait` or `timed_wait` ends. -/
inductive Wake where
  | notified | timeout | spurious
deriving DecidableEq

/-- A call of `get`: blocked on the condition variable, woken up but without the lock,
or returned with what the result pointer was at that time. -/
inductive Get (T : Type) where
  | waiting (timed : Bool)
  | awake (cause : Wake)
  | returned (result : Option T)
deriving DecidableEq

structure State (T : Type) where
  result : Option T
  gets : Nat → Option (Get T)

def init (T : Type) : State T := ⟨none, fun _ => none⟩

inductive Action (T : Type) where
  | get (call : Nat) (msec : Int64)
  | setResponse (response : T)
  | timeout (call : Nat)
  | spurious (call : Nat)
  | resume (call : Nat)

variable {T : Type}

/-- `notify_all`. -/
def notify : Get T → Get T
  | .waiting _ => .awake .notified
  | .awake cause => .awake cause
  | .returned result => .returned result

/-- What happens while the mutex is held, and what wakes a call up. -/
def step (s : State T) : Action T → Option (State T)
  | .get call msec =>
      match s.gets call with
      | none => some { s with
          gets := Function.update s.gets call (some (
            if s.result.isSome then .returned s.result else .waiting (decide (msec > 0)))) }
      | some _ => none
  | .setResponse response =>
      some ⟨some response, fun call => (s.gets call).map notify⟩
  | .timeout call =>
      match s.gets call with
      | some (.waiting true) => some { s with
          gets := Function.update s.gets call (some (.awake .timeout)) }
      | _ => none
  | .spurious call =>
      match s.gets call with
      | some (.waiting _) => some { s with
          gets := Function.update s.gets call (some (.awake .spurious)) }
      | _ => none
  | .resume call =>
      match s.gets call with
      | some (.awake _) => some { s with
          gets := Function.update s.gets call (some (.returned s.result)) }
      | _ => none

/-- No call has dereferenced an unset result. -/
def Safe (s : State T) : Prop :=
  ∀ call result, s.gets call = some (.returned result) → result.isSome = true

/-- A call that was not notified goes on only when there is a response. -/
def InTime (s : State T) : Action T → Prop
  | .resume call => s.gets call = some (.awake .notified) ∨ s.result.isSome = true
  | _ => True

/-- What every step keeps: who is notified has a response to return. -/
structure Inv (s : State T) : Prop where
  notified : ∀ {call}, s.gets call = some (.awake .notified) → s.result.isSome = true
  safe : Safe s

theorem inv_init : Inv (init T) where
  notified h := by cases h
  safe := by
    intro call result h
    cases h

/-- A step but for `setResponse` changes one call, which it does not notify. -/
theorem step_cases {s s' : State T} {action : Action T} (hstep : step s action = some s') :
    (∃ response, action = .setResponse response ∧
      s' = ⟨some response, fun call => (s.gets call).map notify⟩) ∨
    ∃ call get, s' = { s with gets := Function.update s.gets call (some get) } ∧
      get ≠ .awake .notified ∧
      ((∃ cause, action = .resume call ∧ s.gets call = some (.awake cause) ∧
          get = .returned s.result) ∨
        (∀ call', action ≠ .resume call') ∧
          ∀ result, get = .returned result → result.isSome = true) := by
  unfold step at hstep
  split at hstep
  · split at hstep
    · refine .inr ⟨_, _, (Option.some.inj hstep).symm, ?_, .inr ⟨nofun, ?_⟩⟩
      · split_ifs
        · exact nofun
        · exact nofun
      · intro result hresult
        split_ifs at hresult with hready
        exact Get.returned.inj hresult ▸ hready
    · cases hstep
  · exact .inl ⟨_, rfl, (Option.some.inj hstep).symm⟩
  · split at hstep
    · exact .inr ⟨_, _, (Option.some.inj hstep).symm, nofun, .inr ⟨nofun, nofun⟩⟩
    · cases hstep
  · split at hstep
    · exact .inr ⟨_, _, (Option.some.inj hstep).symm, nofun, .inr ⟨nofun, nofun⟩⟩
    · cases hstep
  · split at hstep
    · exact .inr ⟨_, _, (Option.some.inj hstep).symm, nofun, .inl ⟨_, rfl, ‹_›, rfl⟩⟩
    · cases hstep

/-- A changed call is safe if what it returns is. -/
theorem safe_update_iff {s : State T} (hs : Safe s) {call : Nat} {get : Get T} :
    Safe { s with gets := Function.update s.gets call (some get) } ↔
      ∀ result, get = .returned result → result.isSome = true := by
  constructor
  · rintro hsafe result rfl
    exact hsafe call result (Function.update_self _ _ _)
  · intro hget call' result hresult
    change Function.update s.gets call (some get) call' = _ at hresult
    rcases eq_or_ne call' call with rfl | hne
    · rw [Function.update_self] at hresult
      exact hget result (Option.some.inj hresult)
    · rw [Function.update_of_ne hne] at hresult
      exact hs call' result hresult

theorem safe_of_setResponse {s : State T} (hs : Safe s) (response : T) :
    Safe ⟨some response, fun call => (s.gets call).map notify⟩ := by
  intro call result hresult
  obtain ⟨get, hget, hnotify⟩ := Option.map_eq_some_iff.mp hresult
  cases get with
  | waiting timed => cases hnotify
  | awake cause => cases hnotify
  | returned result' => exact Get.returned.inj hnotify ▸ hs call result' hget

theorem notified_of_step {s s' : State T} {action : Action T} (hs : Inv s)
    (hstep : step s action = some s') {call : Nat}
    (hcall : s'.gets call = some (.awake .notified)) : s'.result.isSome = true := by
  rcases step_cases hstep with ⟨response, -, rfl⟩ | ⟨changed, get, rfl, hget, -⟩
  · rfl
  · change Function.update s.gets changed (some get) call = _ at hcall
    rcases eq_or_ne call changed with rfl | hne
    · rw [Function.update_self] at hcall
      exact absurd (Option.some.inj hcall) hget
    · rw [Function.update_of_ne hne] at hcall
      exact hs.notified hcall

/-- A step keeps safe what was safe if and only if it is in time. -/
theorem safe_of_step_iff {s s' : State T} {action : Action T} (hs : Inv s)
    (hstep : step s action = some s') : Safe s' ↔ InTime s action := by
  rcases step_cases hstep with ⟨response, rfl, rfl⟩ | ⟨call, get, rfl, -, hcases⟩
  · exact iff_of_true (safe_of_setResponse hs.safe response) trivial
  · rw [safe_update_iff hs.safe]
    rcases hcases with ⟨cause, rfl, hawake, rfl⟩ | ⟨haction, hget⟩
    · constructor
      · intro hsafe
        exact .inr (hsafe s.result rfl)
      · rintro (hnotified | hready) result ⟨⟩
        · exact hs.notified hnotified
        · exact hready
    · refine iff_of_true hget ?_
      cases action with
      | resume call' => exact absurd rfl (haction call')
      | get call' msec => trivial
      | setResponse response => trivial
      | timeout call' => trivial
      | spurious call' => trivial

/-- In every run, no call dereferences an unset result in any state reached if and only
if every call that times out or wakes up spuriously goes on only when there is a
response. -/
theorem safe_iff_inTime (actions : List (Action T)) :
    Runs.Always step Safe (init T) actions ↔ Runs.Throughout step InTime (init T) actions :=
  Runs.always_iff_throughout step (fun _ hs => hs.safe)
    (fun _ _ _ hs hstep hin => ⟨notified_of_step hs hstep, (safe_of_step_iff hs hstep).mpr hin⟩)
    (fun _ _ _ hs hstep hin => fun hsafe => hin ((safe_of_step_iff hs hstep).mp hsafe))
    inv_init actions

/-- A timed call that nobody answers. -/
theorem not_safe_timeout :
    ¬ Runs.Always step Safe (init Nat) [.get 0 1000, .timeout 0, .resume 0] := by
  intro halways
  have hsafe := halways _ [] _ (List.append_nil _).symm rfl
  cases hsafe 0 none rfl

end Atp.AsyncResponse
