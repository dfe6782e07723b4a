import Atp.PendingFutures

/-!
Which response a future holds.  While a future is the one that is registered under its
key, it holds the last response with this key that has been handled since it was
registered, and every response that a future holds has been handled.
-/

namespace Atp.PendingFutures

variable {κ ρ : Type*}

/-- What the futures hold after the responses that have been handled, where `registered`
says how many of these there had been when a future was registered. -/
structure Fresh [DecidableEq κ] (keyOf : ρ → κ) (futures : State κ ρ) (handled : List ρ)
    (registered : Nat → Nat) : Prop where
  pending : ∀ {key call}, futures.pending key = some call →
    ∃ request, futures.requests call = some request ∧ request.key = key ∧ request.returned = true
  inPast : ∀ {key call}, futures.pending key = some call → registered call ≤ handled.length
  responses : ∀ {call response}, futures.responses call = some response →
    response ∈ handled ∧ ∃ request, futures.requests call = some request ∧
      keyOf response = request.key ∧ request.returned = true
  latest : ∀ {key call}, futures.pending key = some call → futures.responses call =
    ((handled.drop (registered call)).filter fun response => keyOf response = key).getLast?

section

variable [DecidableEq κ] {keyOf : ρ → κ} {futures futures' : State κ ρ} {handled : List ρ}
  {registered : Nat → Nat}

theorem fresh_init (registered : Nat → Nat) : Fresh keyOf init [] registered where
  pending h := by cases h
  inPast h := by cases h
  responses h := by cases h
  latest h := by cases h

/-- A message that is put on the wire has no future yet. -/
theorem Fresh.wire (hfresh : Fresh keyOf futures handled registered) {call : Nat} {key : κ}
    {sent : Bool}
    (hstep : step keyOf futures (.wire call key sent) = some futures') :
    Fresh keyOf futures' handled registered := by
  unfold step at hstep
  dsimp only at hstep
  split at hstep
  · rename_i hnone
    obtain rfl := Option.some.inj hstep
    have hkeeps {other : Nat} {request : Request κ}
        (hrequest : futures.requests other = some request) :
        Function.update futures.requests call (some ⟨key, sent, false⟩) other = some request := by
      have hne : other ≠ call := by
        rintro rfl
        cases hnone.symm.trans hrequest
      rw [Function.update_of_ne hne, hrequest]
    constructor
    · intro key call hpending
      obtain ⟨request, hrequest, hrest⟩ := hfresh.pending hpending
      exact ⟨request, hkeeps hrequest, hrest⟩
    · exact hfresh.inPast
    · intro call response hresponse
      obtain ⟨hmem, request, hrequest, hrest⟩ := hfresh.responses hresponse
      exact ⟨hmem, request, hkeeps hrequest, hrest⟩
    · exact hfresh.latest
  · cases hstep

/-- A future that is registered holds nothing yet. -/
theorem Fresh.register (hfresh : Fresh keyOf futures handled registered) {call : Nat}
    (hstep : step keyOf futures (.register call) = some futures') :
    Fresh keyOf futures' handled (Function.update registered call handled.length) := by
  unfold step at hstep
  dsimp only at hstep
  split at hstep
  · rename_i key sent hrequest
    obtain rfl := Option.some.inj hstep
    have hempty : futures.responses call = none := by
      rw [Option.eq_none_iff_forall_ne_some]
      intro response hresponse
      obtain ⟨-, request, hother, -, hreturned⟩ := hfresh.responses hresponse
      obtain rfl := Option.some.inj (hrequest.symm.trans hother)
      cases hreturned
    have hother {other : Nat} {request : Request κ}
        (hsome : futures.requests other = some request) (hreturned : request.returned = true) :
        other ≠ call := by
      rintro rfl
      obtain rfl := Option.some.inj (hrequest.symm.trans hsome)
      cases hreturned
    -- What is pending afterwards is the call, or was pending before.
    have hcases {key' : κ} {other : Nat}
        (hpending : Function.update futures.pending key (some call) key' = some other) :
        (key' = key ∧ other = call) ∨ (other ≠ call ∧ futures.pending key' = some other) := by
      rcases eq_or_ne key' key with rfl | hne
      · rw [Function.update_self] at hpending
        exact .inl ⟨rfl, (Option.some.inj hpending).symm⟩
      · rw [Function.update_of_ne hne] at hpending
        obtain ⟨request, hsome, -, hreturned⟩ := hfresh.pending hpending
        exact .inr ⟨hother hsome hreturned, hpending⟩
    constructor
    · intro key' other hpending
      rcases hcases hpending with ⟨rfl, rfl⟩ | ⟨hne, hold⟩
      · exact ⟨_, Function.update_self _ _ _, rfl, rfl⟩
      · obtain ⟨request, hsome, hrest⟩ := hfresh.pending hold
        exact ⟨request, (Function.update_of_ne hne _ _).trans hsome, hrest⟩
    · intro key' other hpending
      rcases hcases hpending with ⟨rfl, rfl⟩ | ⟨hne, hold⟩
      · exact Nat.le_of_eq (Function.update_self _ _ _)
      · rw [Function.update_of_ne hne]
        exact hfresh.inPast hold
    · intro other response hresponse
      obtain ⟨hmem, request, hsome, hkey, hreturned⟩ := hfresh.responses hresponse
      exact ⟨hmem, request,
        (Function.update_of_ne (hother hsome hreturned) _ _).trans hsome, hkey, hreturned⟩
    · intro key' other hpending
      rcases hcases hpending with ⟨rfl, rfl⟩ | ⟨hne, hold⟩
      · rw [Function.update_self, List.drop_length]
        exact hempty
      · rw [Function.update_of_ne hne]
        exact hfresh.latest hold
  · cases hstep

/-- A response goes to the future that is pending under its key. -/
theorem Fresh.respond (hfresh : Fresh keyOf futures handled registered) (response : ρ) :
    Fresh keyOf ((step keyOf futures (.respond response)).getD futures)
      (handled ++ [response]) registered := by
  change Fresh keyOf (⟨futures.requests, futures.pending, deliver keyOf futures response, _⟩ :
    State κ ρ) _ _
  constructor
  · exact hfresh.pending
  · intro key call hpending
    rw [List.length_append]
    exact Nat.le_trans (hfresh.inPast hpending) (Nat.le_add_right _ _)
  · intro call response' hresponse
    change deliver keyOf futures response call = _ at hresponse
    unfold deliver at hresponse
    split_ifs at hresponse with hpending
    · obtain rfl := Option.some.inj hresponse
      obtain ⟨request, hrequest, hkey, hreturned⟩ := hfresh.pending hpending
      exact ⟨List.mem_append_right _ List.mem_cons_self, request, hrequest, hkey.symm, hreturned⟩
    · obtain ⟨hmem, hrest⟩ := hfresh.responses hresponse
      exact ⟨List.mem_append_left _ hmem, hrest⟩
  · intro key call hpending
    change deliver keyOf futures response call = _
    rw [List.drop_append_of_le_length (hfresh.inPast hpending), List.filter_append]
    by_cases hkey : keyOf response = key
    · have hhere : futures.pending (keyOf response) = some call := hkey ▸ hpending
      rw [deliver, if_pos hhere, List.filter_singleton, decide_eq_true hkey]
      exact List.getLast?_concat.symm
    · have hnot : futures.pending (keyOf response) ≠ some call := by
        intro hsame
        obtain ⟨request, hrequest, hown, -⟩ := hfresh.pending hpending
        obtain ⟨request', hrequest', hown', -⟩ := hfresh.pending hsame
        obtain rfl := Option.some.inj (hrequest.symm.trans hrequest')
        exact hkey (hown'.symm.trans hown)
      rw [deliver, if_neg hnot, List.filter_singleton, decide_eq_false hkey,
        hfresh.latest hpending]
      simp

end

end Atp.PendingFutures
