import Mathlib.Data.List.Basic

/-!
Runs of a step function that may refuse an action, and the correspondence of a
property of all states reached with a condition on all steps taken.
-/

namespace Atp.Runs

variable {σ α : Type*} (step : σ → α → Option σ)

def run (s : σ) : List α → Option σ
  | [] => some s
  | a :: as => (step s a).bind fun s' => run s' as

/-- `P` holds in every state that the actions reach, from the first on. -/
def Always (P : σ → Prop) (s : σ) (as : List α) : Prop :=
  ∀ pre post s', as = pre ++ post → run step s pre = some s' → P s'

/-- Every step taken meets `C`, a condition on the action and on the state before. -/
def Throughout (C : σ → α → Prop) (s : σ) (as : List α) : Prop :=
  ∀ pre a post s' s'', as = pre ++ a :: post → run step s pre = some s' →
    step s' a = some s'' → C s' a

def Stuck (s : σ) : Prop := ∀ a, step s a = none

theorem run_cons_eq_some_iff {s s' : σ} {a : α} {as : List α} :
    run step s (a :: as) = some s' ↔ ∃ t, step s a = some t ∧ run step t as = some s' :=
  Option.bind_eq_some_iff

theorem run_concat (s : σ) (as : List α) (a : α) :
    run step s (as ++ [a]) = (run step s as).bind fun s' => step s' a := by
  induction as generalizing s with
  | nil => exact Option.bind_fun_some (step s a)
  | cons b as ih =>
      rw [List.cons_append, run, run, Option.bind_assoc]
      exact congrArg (Option.bind (step s b)) (funext ih)

section

variable {μ : σ → Nat} (hμ : ∀ s a s', step s a = some s' → μ s' < μ s)

include hμ

/-- If every step has less left to do, runs are bounded. -/
theorem length_le_of_run {s s' : σ} {as : List α} (hrun : run step s as = some s') :
    as.length ≤ μ s := by
  induction as generalizing s with
  | nil => exact Nat.zero_le _
  | cons a as ih =>
      obtain ⟨t, hstep, hrun⟩ := (run_cons_eq_some_iff step).mp hrun
      exact Nat.lt_of_le_of_lt (ih hrun) (hμ s a t hstep)

/-- If every step has less left to do, some run goes on until it is stuck. -/
theorem exists_run_stuck (s : σ) : ∃ as s', run step s as = some s' ∧ Stuck step s' := by
  induction h : μ s using Nat.strongRecOn generalizing s with
  | ind n ih =>
      by_cases hstuck : Stuck step s
      · exact ⟨[], s, rfl, hstuck⟩
      · obtain ⟨a, hstep⟩ := not_forall.mp hstuck
        obtain ⟨t, hstep⟩ := Option.ne_none_iff_exists'.mp hstep
        obtain ⟨as, s', hrun, hend⟩ := ih (μ t) (h ▸ hμ s a t hstep) t rfl
        exact ⟨a :: as, s', (run_cons_eq_some_iff step).mpr ⟨t, hstep, hrun⟩, hend⟩

end

section

variable {τ : Type*} {astep : τ → α → Option τ} {encode : τ → σ}
  (hencode : ∀ t a, step (encode t) a = (astep t a).map encode)

include hencode

theorem run_encode (t : τ) (as : List α) :
    run step (encode t) as = (run astep t as).map encode := by
  induction as generalizing t with
  | nil => rfl
  | cons a as ih =>
      rw [run, run, hencode]
      cases astep t a with
      | none => rfl
      | some t' => exact ih t'

theorem stuck_encode_iff (t : τ) : Stuck step (encode t) ↔ Stuck astep t := by
  refine forall_congr' fun a => ?_
  rw [hencode, Option.map_eq_none_iff]

end

theorem always_nil (P : σ → Prop) (s : σ) : Always step P s [] ↔ P s := by
  constructor
  · intro halways
    exact halways [] [] s rfl rfl
  · rintro hs pre post s' hsplit hrun
    obtain ⟨rfl, rfl⟩ := List.nil_eq_append_iff.mp hsplit
    exact Option.some.inj hrun ▸ hs

theorem always_cons (P : σ → Prop) (s : σ) (a : α) (as : List α) :
    Always step P s (a :: as) ↔
      P s ∧ ∀ s', step s a = some s' → Always step P s' as := by
  constructor
  · intro halways
    refine ⟨halways [] (a :: as) s rfl rfl, fun s' hstep pre post s'' hsplit hrun => ?_⟩
    refine halways (a :: pre) post s'' (by rw [hsplit]; rfl) ?_
    rw [run, hstep]
    exact hrun
  · rintro ⟨hs, hrest⟩ pre post s'' hsplit hrun
    rcases pre with _ | ⟨b, pre⟩
    · exact Option.some.inj hrun ▸ hs
    · obtain ⟨rfl, rfl⟩ := List.cons.inj hsplit
      obtain ⟨s', hstep, hrun⟩ := Option.bind_eq_some_iff.mp hrun
      exact hrest s' hstep pre post s'' rfl hrun

theorem always_cons_of_step {P : σ → Prop} {s s' : σ} {a : α} (hstep : step s a = some s')
    (as : List α) : Always step P s (a :: as) ↔ P s ∧ Always step P s' as := by
  rw [always_cons, hstep]
  refine and_congr_right fun _ => ?_
  constructor
  · intro h
    exact h s' rfl
  · intro h t ht
    exact Option.some.inj ht ▸ h

theorem throughout_nil (C : σ → α → Prop) (s : σ) : Throughout step C s [] := by
  intro pre a post s' s'' hsplit
  exact absurd hsplit.symm (List.append_ne_nil_of_right_ne_nil _ (List.cons_ne_nil _ _))

theorem throughout_cons (C : σ → α → Prop) (s : σ) (a : α) (as : List α) :
    Throughout step C s (a :: as) ↔
      ∀ s', step s a = some s' → C s a ∧ Throughout step C s' as := by
  constructor
  · intro hall s' hstep
    refine ⟨hall [] a as s s' rfl rfl hstep, fun pre b post t t' hsplit hrun htaken => ?_⟩
    refine hall (a :: pre) b post t t' (by rw [hsplit]; rfl) ?_ htaken
    rw [run, hstep]
    exact hrun
  · intro hall pre b post t t' hsplit hrun htaken
    rcases pre with _ | ⟨c, pre⟩
    · obtain ⟨rfl, rfl⟩ := List.cons.inj hsplit
      obtain rfl := Option.some.inj hrun
      exact (hall t' htaken).1
    · obtain ⟨rfl, rfl⟩ := List.cons.inj hsplit
      obtain ⟨s', hstep, hrun⟩ := Option.bind_eq_some_iff.mp hrun
      exact (hall s' hstep).2 pre b post t t' rfl hrun htaken

/-- What the steps that meet `C` keep, a run of such steps keeps. -/
theorem inv_of_throughout {P : σ → Prop} {C : σ → α → Prop}
    (hkeeps : ∀ s a s', P s → C s a → step s a = some s' → P s') {s s' : σ} {as : List α}
    (hs : P s) (hall : Throughout step C s as) (hrun : run step s as = some s') : P s' := by
  induction as generalizing s with
  | nil => exact Option.some.inj hrun ▸ hs
  | cons a as ih =>
      obtain ⟨t, hstep, hrun⟩ := (run_cons_eq_some_iff step).mp hrun
      obtain ⟨hC, hall⟩ := (throughout_cons step C s a as).mp hall t hstep
      exact ih (hkeeps s a t hs hC hstep) hall hrun

theorem inv_of_run {P : σ → Prop}
    (hkeeps : ∀ s a s', P s → step s a = some s' → P s') {s s' : σ} {as : List α}
    (hs : P s) (hrun : run step s as = some s') : P s' :=
  inv_of_throughout step (fun s a t hP _ => hkeeps s a t hP) hs
    (fun _ _ _ _ _ _ _ _ => trivial : Throughout step (fun _ _ => True) s as) hrun

/-- If an invariant implies `P`, is kept by the steps that meet `C`, and every
other step from it breaks `P`, then `P` holds throughout exactly the runs whose
steps all meet `C`. -/
theorem always_iff_throughout {P Inv : σ → Prop} {C : σ → α → Prop}
    (himplies : ∀ s, Inv s → P s)
    (hkeeps : ∀ s a s', Inv s → step s a = some s' → C s a → Inv s')
    (hbreaks : ∀ s a s', Inv s → step s a = some s' → ¬ C s a → ¬ P s')
    {s : σ} (hs : Inv s) (as : List α) :
    Always step P s as ↔ Throughout step C s as := by
  induction as generalizing s with
  | nil => exact iff_of_true ((always_nil step P s).mpr (himplies s hs)) (throughout_nil step C s)
  | cons a as ih =>
      rw [always_cons, throughout_cons, and_iff_right (himplies s hs)]
      refine forall_congr' fun s' => forall_congr' fun hstep => ?_
      by_cases hC : C s a
      · rw [ih (hkeeps s a s' hs hstep hC), and_iff_right hC]
      · refine iff_of_false (fun halways => hbreaks s a s' hs hstep hC ?_) fun h => hC h.1
        exact halways [] as s' rfl rfl

end Atp.Runs
