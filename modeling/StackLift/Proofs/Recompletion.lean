/-
# Completing phis again

Completing phis may stop in the middle.  Then a phi is complete or nothing has flown into it, so it
can be tried again, with the same limit or another one.  Once it has succeeded there is nothing left
to do.

* `Graph.AllOrNothing` : a phi is complete, or nothing has flown into it;
* `Graph.Completable.completePhis_again` : completing what is complete changes nothing;
* `Graph.Built.completePhis_repeats` : what holds after any number of tries.
-/
import StackLift.Proofs.LeastDemand

namespace StackLift

namespace PhiCompletion

variable {g₀ : Graph} {s : State}

/-- Working off a queue of complete phis changes nothing. -/
theorem drain_of_complete {fuel : Nat} (h : Completing g₀ none s) (maxDepth : Int)
    (hall : ∀ b ∈ g₀.live, ∀ (k : Nat) v p, (s.graph.block b).phis[k]? = some v →
      (s.graph.definition v).phi? = some p → p.complete = true)
    (hfuel : s.queue.toList.length < fuel) :
    ∃ s', drain maxDepth fuel s = .ok () s' ∧ s'.graph = s.graph := by
  induction fuel generalizing s with
  | zero => cases hfuel
  | succ fuel ih =>
    obtain ⟨-, heq⟩ | ⟨v, queue, b, hb, slot, p, hqueue, hv, hp, ⟨hrest, -, heq⟩ |
      ⟨-, hincomplete, -⟩⟩ := drain_cases h maxDepth fuel
    · exact ⟨s, heq, rfl⟩
    · rw [hqueue, List.length_cons] at hfuel
      rw [heq]
      exact ih hrest hall (by dsimp only; omega)
    · rw [hall b hb slot v p hv hp] at hincomplete
      cases hincomplete

end PhiCompletion

namespace Graph

variable {g g' : Graph} {b : BlockId}

/-- Whether every entry slot has got a value from each predecessor, in their order, and is complete,
or has got none and is not. -/
def AllOrNothing (g : Graph) : Prop :=
  ∀ b ∈ g.live, ∀ v ∈ (g.block b).phis, ∃ p, (g.definition v).phi? = some p ∧
    (p.complete = true ∧ p.incomings.map (·.block) = (g.block b).preds ∨
      p.complete = false ∧ p.incomings = [])

/-- The blocks from which values flow in are those that give them. -/
theorem map_block_of_gives {k : Nat} {preds : List BlockId} {incomings : List Incoming}
    (h : List.Forall₂ (g.Gives k) preds incomings) : incomings.map (·.block) = preds := by
  induction h with
  | nil => rfl
  | cons hi _ ih => rw [List.map_cons, ih, hi.1]

namespace Completable

theorem allOrNothing (h : g.Completable) : g.AllOrNothing := by
  intro b hb v hv
  obtain ⟨k, hk⟩ := Array.mem_iff_getElem?.1 hv
  obtain ⟨-, -, p, hp, -⟩ := h.slotted b k v hk
  have hflows := h.settled b hb k v p hk hp
  refine ⟨p, hp, ?_⟩
  cases hcomplete : p.complete with
  | true =>
    rw [Flows, if_pos hcomplete] at hflows
    exact .inl ⟨rfl, map_block_of_gives hflows.2⟩
  | false =>
    rw [Flows, hcomplete] at hflows
    exact .inr ⟨rfl, hflows⟩

/-- What is needed to complete phis still holds between the steps. -/
theorem filling (h : g.Completable) (hfilling : Filling g none g') : g'.Completable where
  slotted := hfilling.slotted
  lt_size b hb := by
    rw [hfilling.live_eq] at hb
    exact hfilling.size_eq ▸ h.lt_size b hb
  preds_live b hb a ha := by
    rw [hfilling.live_eq] at hb ⊢
    rw [hfilling.preds_eq] at ha
    exact h.preds_live b hb a ha
  preds_nodup b hb := by
    rw [hfilling.live_eq] at hb
    rw [hfilling.preds_eq]
    exact h.preds_nodup b hb
  settled b hb k v p hv hp := by
    rw [hfilling.live_eq] at hb
    exact hfilling.settled b hb k v p hv (by simp) hp

/-- One try leaves a graph whose phis can be completed. -/
theorem afterCompletion (h : g.Completable) (maxDepth : Int) :
    (g.afterCompletion maxDepth).Completable ∧ g.PhisOnly (g.afterCompletion maxDepth) := by
  have hfilling : Filling g none (g.afterCompletion maxDepth) := by
    rcases h.completePhis_total maxDepth with ⟨r, hr⟩ | ⟨e, r, hr, hfilling, -⟩
    · rw [afterCompletion_of_ok hr]
      exact (h.completePhis_ok hr).1.filling
    · rw [afterCompletion_of_error hr]
      exact hfilling
  exact ⟨h.filling hfilling, hfilling.toPhisOnly⟩

/-- Any number of tries leave a graph whose phis can be completed. -/
theorem foldl_afterCompletion (h : g.Completable) (tries : List Int) :
    (tries.foldl Graph.afterCompletion g).Completable ∧
      g.PhisOnly (tries.foldl Graph.afterCompletion g) := by
  induction tries generalizing g with
  | nil => exact ⟨h, .refl g⟩
  | cons maxDepth tries ih =>
    obtain ⟨hnext, hgrown⟩ := h.afterCompletion maxDepth
    obtain ⟨hlast, hmore⟩ := ih hnext
    exact ⟨hlast, hgrown.trans hmore⟩

/-- Completing phis that are complete succeeds and changes nothing. -/
theorem completePhis_again (h : g.Completable)
    (hall : ∀ b ∈ g.live, ∀ (k : Nat) v p, (g.block b).phis[k]? = some v →
      (g.definition v).phi? = some p → p.complete = true) (maxDepth : Int) :
    ∃ r, g.completePhis maxDepth = .ok () r ∧ r.graph = g := by
  refine PhiCompletion.drain_of_complete h.completing maxDepth hall ?_
  rw [PhiCompletion.fuelFor]
  simp only [PhiCompletion.Queue.toList, List.reverse_nil, List.flatten_nil, List.append_nil]
  omega

theorem foldl_afterCompletion_again (h : g.Completable)
    (hall : ∀ b ∈ g.live, ∀ (k : Nat) v p, (g.block b).phis[k]? = some v →
      (g.definition v).phi? = some p → p.complete = true) (tries : List Int) :
    tries.foldl Graph.afterCompletion g = g := by
  induction tries with
  | nil => rfl
  | cons maxDepth tries ih =>
    obtain ⟨r, hr, hgraph⟩ := h.completePhis_again hall maxDepth
    rw [List.foldl_cons, afterCompletion_of_ok hr, hgraph]
    exact ih

end Completable

/-- Whatever was tried before, and whether it succeeded or not, completing the phis of a graph
succeeds or tells an error, and leaves no phi with a part of its values.  Once it succeeds, all phis
have what their predecessors are left with, and later tries succeed and change nothing. -/
theorem Built.completePhis_repeats (hbuilt : g.Built) (hpreds : g.PredsInside)
    (hopen : g.SlotsOpen) (tries : List Int) (maxDepth : Int) :
    let g₁ := tries.foldl Graph.afterCompletion g
    g.PhisOnly (g₁.afterCompletion maxDepth) ∧ (g₁.afterCompletion maxDepth).AllOrNothing ∧
      ((∃ e r, g₁.completePhis maxDepth = .error (.error e) r) ∨
        ∃ r, g₁.completePhis maxDepth = .ok () r ∧
          (∀ b ∈ g.live, ∀ (k : Nat) v, (r.graph.block b).phis[k]? = some v →
            r.graph.SlotFilled b k v) ∧
          ∀ (later : List Int) maxDepth', later.foldl Graph.afterCompletion r.graph = r.graph ∧
            ∃ r', r.graph.completePhis maxDepth' = .ok () r' ∧ r'.graph = r.graph) := by
  intro g₁
  obtain ⟨h₁, hgrown⟩ := (hbuilt.completable hpreds hopen).foldl_afterCompletion tries
  obtain ⟨h₂, hmore⟩ := h₁.afterCompletion maxDepth
  refine ⟨hgrown.trans hmore, h₂.allOrNothing, ?_⟩
  rcases h₁.completePhis_total maxDepth with ⟨r, hr⟩ | ⟨e, r, hr, -⟩
  · obtain ⟨hcompleting, hempty⟩ := h₁.completePhis_ok hr
    rw [afterCompletion_of_ok hr] at h₂
    have hall : ∀ b ∈ r.graph.live, ∀ (k : Nat) v p, (r.graph.block b).phis[k]? = some v →
        (r.graph.definition v).phi? = some p → p.complete = true := by
      intro b hb k v p hv hp
      obtain ⟨q, hq, -, hcomplete, -⟩ :=
        complete_of_completing hcompleting hempty (hcompleting.filling.live_eq ▸ hb) hv
      rwa [Option.some.inj (hp.symm.trans hq)]
    refine .inr ⟨r, hr, fun b hb k v hv => ?_, fun later maxDepth' => ?_⟩
    · exact slotFilled_of_completing hcompleting hempty (hgrown.live_eq ▸ hb) hv
    · exact ⟨h₂.foldl_afterCompletion_again hall later, h₂.completePhis_again hall maxDepth'⟩
  · exact .inl ⟨e, r, hr⟩

/-- A limit that is too low stops the first tries, which leave slots behind. -/
theorem completePhis_repeats_whirl : whirl.Built ∧ whirl.PredsInside ∧ whirl.SlotsOpen ∧
    (([0, 1].foldl Graph.afterCompletion whirl).afterCompletion 2).AllOrNothing ∧
    ∃ r, ([0, 1].foldl Graph.afterCompletion whirl).completePhis 2 = .ok () r ∧
      [0, 1].foldl Graph.afterCompletion r.graph = r.graph := by
  obtain ⟨-, hall, ⟨e, r, hr⟩ | ⟨r, hr, -, hlater⟩⟩ :=
    built_whirl.completePhis_repeats predsInside_whirl slotsOpen_whirl [0, 1] 2
  · cases hr
  · exact ⟨built_whirl, predsInside_whirl, slotsOpen_whirl, hall, r, hr, (hlater [0, 1] 0).1⟩

end Graph

end StackLift
