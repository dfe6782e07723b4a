import Mathlib

/-!
A sorted sequence cut into segments between consecutive elements, and when the
segments partition it as a given notion of distance asks for.
-/

namespace Atp.Segments

theorem isChain_and {α : Type*} {R S : α → α → Prop} {ts : List α} :
    (ts.IsChain fun a b => R a b ∧ S a b) ↔ ts.IsChain R ∧ ts.IsChain S := by
  simp only [List.isChain_iff_forall_rel_of_append_cons_cons]
  constructor
  · intro h
    exact ⟨fun _ _ _ _ heq => (h heq).1, fun _ _ _ _ heq => (h heq).2⟩
  · rintro ⟨hR, hS⟩ _ _ _ _ heq
    exact ⟨hR heq, hS heq⟩

variable {τ : Type*} [LinearOrder τ]

/-- The segments from `start` on, of which the first one has got to `last`. -/
def segments (cut : τ → τ → Bool) (start last : τ) : List τ → List (τ × τ)
  | [] => [(start, last)]
  | t :: ts =>
      if cut last t then (start, last) :: segments cut t t ts else segments cut start t ts

def Covers (s : τ × τ) (t : τ) : Prop := s.1 ≤ t ∧ t ≤ s.2

instance (s : τ × τ) (t : τ) : Decidable (Covers s t) := inferInstanceAs (Decidable (_ ∧ _))

/-- The segments run forward, consecutive ones are disjoint, every element is in
exactly one, and neighbours are in different ones exactly where they are far. -/
structure Partitions (far : τ → τ → Prop) (ts : List τ) (segs : List (τ × τ)) : Prop where
  forward : ∀ s ∈ segs, s.1 ≤ s.2
  disjoint : segs.IsChain fun s s' => ∀ t, ¬ (Covers s t ∧ Covers s' t)
  once : ∀ t ∈ ts, segs.countP (fun s => Covers s t) = 1
  apart : ts.IsChain fun a b => (¬ ∃ s ∈ segs, Covers s a ∧ Covers s b) ↔ far a b

variable {cut : τ → τ → Bool} {far : τ → τ → Prop} {start last : τ} {ts : List τ}

theorem segments_eq_cons (cut : τ → τ → Bool) (start : τ)
    (hsorted : (last :: ts).IsChain (· ≤ ·)) :
    ∃ stop rest, segments cut start last ts = (start, stop) :: rest ∧ last ≤ stop := by
  induction ts generalizing last with
  | nil => exact ⟨last, [], rfl, le_rfl⟩
  | cons t ts ih =>
      obtain ⟨hle, hsorted⟩ := List.isChain_cons_cons.mp hsorted
      rw [segments]
      split_ifs
      · exact ⟨last, _, rfl, le_rfl⟩
      · obtain ⟨stop, rest, heq, hstop⟩ := ih hsorted
        exact ⟨stop, rest, heq, hle.trans hstop⟩

theorem le_of_mem_segments (hstart : start ≤ last) (hsorted : (last :: ts).IsChain (· ≤ ·))
    {s : τ × τ} (hs : s ∈ segments cut start last ts) : start ≤ s.1 ∧ s.1 ≤ s.2 := by
  induction ts generalizing start last with
  | nil =>
      obtain rfl := List.mem_singleton.mp hs
      exact ⟨le_rfl, hstart⟩
  | cons t ts ih =>
      obtain ⟨hle, hsorted⟩ := List.isChain_cons_cons.mp hsorted
      rw [segments] at hs
      split_ifs at hs
      · rcases List.mem_cons.mp hs with rfl | hs
        · exact ⟨le_rfl, hstart⟩
        · obtain ⟨hfirst, hforward⟩ := ih le_rfl hsorted hs
          exact ⟨(hstart.trans hle).trans hfirst, hforward⟩
      · exact ih (hstart.trans hle) hsorted hs

/-- Consecutive segments are disjoint exactly where no cut is between equals. -/
theorem disjoint_segments_iff (hstart : start ≤ last)
    (hsorted : (last :: ts).IsChain (· ≤ ·)) :
    ((segments cut start last ts).IsChain fun s s' => ∀ t, ¬ (Covers s t ∧ Covers s' t)) ↔
      (last :: ts).IsChain fun a b => cut a b = true → a < b := by
  induction ts generalizing start last with
  | nil => exact iff_of_true (List.isChain_singleton _) (List.isChain_singleton _)
  | cons t ts ih =>
      obtain ⟨hle, hsorted⟩ := List.isChain_cons_cons.mp hsorted
      rw [segments, List.isChain_cons_cons]
      split_ifs with hcut
      · obtain ⟨stop, rest, heq, hstop⟩ := segments_eq_cons cut t hsorted
        have hhead : (∀ x, ¬ (Covers (start, last) x ∧ Covers (t, stop) x)) ↔ last < t := by
          constructor
          · intro hdisjoint
            apply lt_of_le_of_ne hle
            rintro rfl
            exact hdisjoint last ⟨⟨hstart, le_rfl⟩, le_rfl, hstop⟩
          · rintro hlt x ⟨⟨-, hx⟩, hx', -⟩
            exact absurd (hx'.trans hx) (not_le.mpr hlt)
        rw [← ih le_rfl hsorted, heq, List.isChain_cons_cons, hhead, imp_iff_right hcut]
      · rw [ih (hstart.trans hle) hsorted, and_iff_right fun h => absurd h hcut]

/-- Where every cut is strict, what a segment covers no other one does. -/
theorem countP_segments (hstart : start ≤ last) (hsorted : (last :: ts).IsChain (· ≤ ·))
    (hstrict : (last :: ts).IsChain fun a b => cut a b = true → a < b) {x : τ}
    (hx : start ≤ x ∧ x ≤ last ∨ x ∈ ts) :
    (segments cut start last ts).countP (fun s => Covers s x) = 1 := by
  induction ts generalizing start last with
  | nil =>
      have hx : Covers (start, last) x := hx.resolve_right List.not_mem_nil
      rw [segments, List.countP_singleton, if_pos (decide_eq_true hx)]
  | cons t ts ih =>
      obtain ⟨hle, hsorted⟩ := List.isChain_cons_cons.mp hsorted
      obtain ⟨hlt, hstrict⟩ := List.isChain_cons_cons.mp hstrict
      rw [segments]
      split_ifs with hcut
      · have hlt := hlt hcut
        have hrest : ∀ s ∈ segments cut t t ts, t ≤ s.1 := fun s hs =>
          (le_of_mem_segments le_rfl hsorted hs).1
        rcases hx with hx | hx
        · have hnone : (segments cut t t ts).countP (fun s => Covers s x) = 0 := by
            rw [List.countP_eq_zero]
            intro s hs hcovers
            have hcovers := of_decide_eq_true hcovers
            exact absurd ((hrest s hs).trans (hcovers.1.trans hx.2)) (not_le.mpr hlt)
          have hx : Covers (start, last) x := hx
          rw [List.countP_cons, hnone, if_pos (decide_eq_true hx)]
        · have hge : t ≤ x := by
            rcases List.mem_cons.mp hx with rfl | hx
            · exact le_rfl
            · exact List.rel_of_pairwise_cons (List.isChain_iff_pairwise.mp hsorted) hx
          have hnot : ¬ Covers (start, last) x := fun hcovers =>
            absurd (hge.trans hcovers.2) (not_le.mpr hlt)
          rw [List.countP_cons_of_neg (by rw [decide_eq_true_eq]; exact hnot)]
          apply ih le_rfl hsorted hstrict
          rcases List.mem_cons.mp hx with rfl | hx
          · exact .inl ⟨le_rfl, le_rfl⟩
          · exact .inr hx
      · apply ih (hstart.trans hle) hsorted hstrict
        rcases hx with hx | hx
        · exact .inl ⟨hx.1, hx.2.trans hle⟩
        · rcases List.mem_cons.mp hx with rfl | hx
          · exact .inl ⟨hstart.trans hle, le_rfl⟩
          · exact .inr hx

/-- Where every cut is strict, neighbours are in different segments exactly where
there is a cut between them. -/
theorem apart_segments_iff_cut (hstart : start ≤ last)
    (hsorted : (last :: ts).IsChain (· ≤ ·))
    (hstrict : (last :: ts).IsChain fun a b => cut a b = true → a < b)
    (before : List (τ × τ)) (hbefore : ∀ s ∈ before, s.2 < last) :
    (last :: ts).IsChain fun a b =>
      (¬ ∃ s ∈ before ++ segments cut start last ts, Covers s a ∧ Covers s b) ↔
        cut a b = true := by
  induction ts generalizing start last before with
  | nil => exact List.isChain_singleton _
  | cons t ts ih =>
      obtain ⟨hle, hsorted⟩ := List.isChain_cons_cons.mp hsorted
      obtain ⟨hlt, hstrict⟩ := List.isChain_cons_cons.mp hstrict
      rw [segments, List.isChain_cons_cons]
      split_ifs with hcut
      · have hlt := hlt hcut
        have hbefore' : ∀ s ∈ before ++ [(start, last)], s.2 < t := by
          intro s hs
          rcases List.mem_append.mp hs with hs | hs
          · exact (hbefore s hs).trans hlt
          · obtain rfl := List.mem_singleton.mp hs
            exact hlt
        constructor
        · refine iff_of_true ?_ hcut
          rintro ⟨s, hs, ha, hb⟩
          rw [List.append_cons] at hs
          rcases List.mem_append.mp hs with hs | hs
          · exact absurd hb.2 (not_le.mpr (hbefore' s hs))
          · have hge := (le_of_mem_segments le_rfl hsorted hs).1
            exact absurd (hge.trans ha.1) (not_le.mpr hlt)
        · rw [List.append_cons]
          exact ih le_rfl hsorted hstrict _ hbefore'
      · constructor
        · refine iff_of_false (not_not.mpr ?_) hcut
          obtain ⟨stop, rest, heq, hstop⟩ := segments_eq_cons cut start hsorted
          rw [heq]
          exact ⟨_, List.mem_append_right _ List.mem_cons_self,
            ⟨hstart, hle.trans hstop⟩, hstart.trans hle, hstop⟩
        · exact ih (hstart.trans hle) hsorted hstrict before fun s hs =>
            lt_of_lt_of_le (hbefore s hs) hle

/-- The segments partition the sequence if and only if its first two elements are
not far, and after them the cuts are where neighbours are far, which equal ones
are not. -/
theorem partitions_segments_iff (hstart : start ≤ last)
    (hsorted : (last :: ts).IsChain (· ≤ ·)) :
    Partitions far (start :: last :: ts) (segments cut start last ts) ↔
      ¬ far start last ∧
        (last :: ts).IsChain fun a b => (cut a b = true ↔ far a b) ∧ (far a b → a < b) := by
  have htogether : ∃ s ∈ segments cut start last ts, Covers s start ∧ Covers s last := by
    obtain ⟨stop, rest, heq, hstop⟩ := segments_eq_cons cut start hsorted
    rw [heq]
    exact ⟨_, List.mem_cons_self, ⟨le_rfl, hstart.trans hstop⟩, hstart, hstop⟩
  constructor
  · rintro ⟨-, hdisjoint, -, hapart⟩
    obtain ⟨hfirst, hapart⟩ := List.isChain_cons_cons.mp hapart
    have hstrict := (disjoint_segments_iff hstart hsorted).mp hdisjoint
    have hcut := apart_segments_iff_cut hstart hsorted hstrict [] (by simp)
    refine ⟨fun hfar => hfirst.mpr hfar htogether, ?_⟩
    have hboth := isChain_and.mpr ⟨isChain_and.mpr ⟨hapart, hcut⟩, hstrict⟩
    apply hboth.imp
    rintro a b ⟨⟨hfar, hcut⟩, hlt⟩
    have hiff := hcut.symm.trans hfar
    exact ⟨hiff, fun h => hlt (hiff.mpr h)⟩
  · rintro ⟨hnear, hchain⟩
    have hstrict : (last :: ts).IsChain fun a b => cut a b = true → a < b :=
      hchain.imp fun a b h hcut => h.2 (h.1.mp hcut)
    have hcut := apart_segments_iff_cut hstart hsorted hstrict [] (by simp)
    refine ⟨fun s hs => (le_of_mem_segments hstart hsorted hs).2,
      (disjoint_segments_iff hstart hsorted).mpr hstrict, ?_, ?_⟩
    · intro t ht
      apply countP_segments hstart hsorted hstrict
      rcases List.mem_cons.mp ht with rfl | ht
      · exact .inl ⟨le_rfl, hstart⟩
      · rcases List.mem_cons.mp ht with rfl | ht
        · exact .inl ⟨hstart, le_rfl⟩
        · exact .inr ht
    · rw [List.isChain_cons_cons]
      refine ⟨iff_of_false (not_not.mpr htogether) hnear, ?_⟩
      exact (isChain_and.mpr ⟨hcut, hchain⟩).imp fun a b h => h.1.trans h.2.1

end Atp.Segments
