/-
# Completing phis comes to an end

Working off the queue of phis either completes all of them or finds a phi that cannot be completed.
No value flows in twice from one predecessor, since a block has each predecessor once.  The queue
becomes empty: a phi is completed once, only slots above the limit are completed, and each adds at
most all phis of each predecessor.

* `PhiCompletion.complete_cases` : a phi is completed unless there is nothing to complete it from;
* `PhiCompletion.drain_total` : what working off the queue comes to;
* `Graph.Completable.completePhis_cases` : the same from the beginning;
* `Graph.afterCompletion` : the graph that is left, whether all phis were completed or not;
* `Graph.SlotFilled` : what holds of every phi in the end;
* `Graph.verifyPhis_of_completing` : a check in the end finds nothing.
-/
import Mathlib.Data.Finset.Prod
import StackLift.Proofs.PhiCompletion

namespace StackLift

/-! ## Open slots -/

namespace Graph

variable {g g' : Graph} {b : BlockId}

/-- Whether a block has a phi for an entry slot that is complete. -/
def isSealed (g : Graph) (b : BlockId) (k : Nat) : Bool :=
  ((g.block b).phis[k]?.bind fun v => (g.definition v).phi?).any (·.complete)

theorem isSealed_iff (g : Graph) (b : BlockId) (k : Nat) : g.isSealed b k = true ↔
    ∃ v p, (g.block b).phis[k]? = some v ∧ (g.definition v).phi? = some p ∧ p.complete = true := by
  simp only [isSealed, Option.any_eq_true, Option.bind_eq_some_iff]
  constructor
  · rintro ⟨p, ⟨v, hv, hp⟩, hcomplete⟩
    exact ⟨v, p, hv, hp, hcomplete⟩
  · rintro ⟨v, p, hv, hp, hcomplete⟩
    exact ⟨p, ⟨v, hv, hp⟩, hcomplete⟩

theorem isSealed_eq_false {k : Nat} {v : ValueId} {p : Phi} (hv : (g.block b).phis[k]? = some v)
    (hp : (g.definition v).phi? = some p) (hcomplete : p.complete = false) :
    g.isSealed b k = false := by
  simp [isSealed, hv, hp, hcomplete]

/-- A phi that is made for an entry slot is not complete. -/
theorem isSealed_addSlots (h : g.Slotted) (b : BlockId) (line : Int) (n : Nat) (a : BlockId)
    (k : Nat) : (g.addSlots b line n).isSealed a k = g.isSealed a k := by
  have hext := (g.worksIn_addSlots b line n).toExtends
  rw [Bool.eq_iff_iff, isSealed_iff, isSealed_iff]
  constructor
  · rintro ⟨v, p, hv, hp, hcomplete⟩
    rcases phis_addSlots hv with hold | hnew
    · rw [hext.definition_eq v (h a k v hold).1] at hp
      exact ⟨v, p, hold, hp, hcomplete⟩
    · rcases phi?_addSlots hp with hold | hfresh
      · exact absurd (lt_of_phi?_eq_some hold) (Nat.not_lt_of_le hnew)
      · rw [hfresh] at hcomplete
        cases hcomplete
  · rintro ⟨v, p, hv, hp, hcomplete⟩
    refine ⟨v, p, hext.phis_mono a k v hv, ?_, hcomplete⟩
    rw [hext.definition_eq v (lt_of_phi?_eq_some hp), hp]

theorem isSealed_exitSlot (h : g.Slotted) (b : BlockId) (line : Int) (depth : Nat) (a : BlockId)
    (k : Nat) : (g.exitSlot b line depth).2.isSealed a k = g.isSealed a k := by
  rcases Nat.lt_or_ge depth (g.block b).stack.length with hlt | hge
  · rw [exitSlot_of_lt hlt]
  · rw [exitSlot_of_ge hge]
    exact isSealed_addSlots h b line _ a k

/-- Of the slots, only the one whose phi is changed may become complete or incomplete. -/
theorem isSealed_modifyPhi {v : ValueId} {p : Phi} (hp : (g.definition v).phi? = some p)
    (f : Phi → Phi) (a : BlockId) (k : Nat) : (g.modifyPhi v f).isSealed a k =
      if (g.block a).phis[k]? = some v then (f p).complete else g.isSealed a k := by
  simp only [isSealed, show (g.modifyPhi v f).block a = g.block a from rfl]
  cases (g.block a).phis[k]? with
  | none => rfl
  | some u =>
    by_cases hne : u = v
    · subst hne
      rw [if_pos rfl, Option.bind_some, definition_modifyPhi_self hp]
      rfl
    · rw [if_neg (hne <| Option.some.inj ·), Option.bind_some, definition_modifyPhi_of_ne hne,
        Option.bind_some]

/-- A value that flows into a phi does not make it complete. -/
theorem isSealed_putIncoming {v : ValueId} {p : Phi} (hp : (g.definition v).phi? = some p)
    (b : BlockId) (x : Operand) (a : BlockId) (k : Nat) :
    (g.putIncoming v b x).isSealed a k = g.isSealed a k := by
  rw [putIncoming, isSealed_modifyPhi hp]
  split
  · rename_i hv
    rw [isSealed, hv, Option.bind_some, hp, Option.any_some]
  · rfl

/-- The entry slots above a depth that have no complete phi. -/
def openSlots (g : Graph) (depth : Nat) : Finset (Nat × Nat) :=
  (Finset.range g.blocks.size ×ˢ Finset.range depth).filter fun slot =>
    g.isSealed slot.1 slot.2 = false

theorem card_openSlots_le (g : Graph) (depth : Nat) :
    (g.openSlots depth).card ≤ g.blocks.size * depth := by
  refine le_trans (Finset.card_filter_le _ _) ?_
  rw [Finset.card_product, Finset.card_range, Finset.card_range]

/-- Completing a phi leaves fewer slots open. -/
theorem card_openSlots_lt {depth k : Nat} (hsize : g'.blocks.size = g.blocks.size)
    (hmono : ∀ a j, g.isSealed a j = true → g'.isSealed a j = true) (hb : b < g.blocks.size)
    (hk : k < depth) (hopen : g.isSealed b k = false) (hsealed : g'.isSealed b k = true) :
    (g'.openSlots depth).card < (g.openSlots depth).card := by
  refine Finset.card_lt_card (Finset.ssubset_iff_of_subset ?_ |>.2 ⟨(b, k), ?_, ?_⟩)
  · rintro ⟨a, j⟩ ha
    obtain ⟨hrange, haj⟩ := Finset.mem_filter.1 ha
    rw [hsize] at hrange
    refine Finset.mem_filter.2 ⟨hrange, Bool.eq_false_of_not_eq_true fun hyes => ?_⟩
    rw [hmono a j hyes] at haj
    cases haj
  · simp [openSlots, hb, hk, hopen]
  · simp [openSlots, hsealed]

/-- More slots than any block gets while phis above a depth are completed. -/
def slotLimit (g : Graph) (depth : Nat) : Nat :=
  g.blocks.foldl (fun m b => max m (b.phis.size + b.used)) 0 + depth

theorem le_slotLimit (g : Graph) (b : BlockId) (depth : Nat) :
    (g.block b).phis.size + (g.block b).used + depth ≤ g.slotLimit depth := by
  have hmax : ∀ (l : List Block) (m : Nat),
      m ≤ l.foldl (fun m b => max m (b.phis.size + b.used)) m ∧
      ∀ x ∈ l, x.phis.size + x.used ≤ l.foldl (fun m b => max m (b.phis.size + b.used)) m := by
    intro l
    induction l with
    | nil => exact fun m => ⟨Nat.le_refl m, by simp⟩
    | cons y l ih =>
      intro m
      obtain ⟨hinit, hall⟩ := ih (max m (y.phis.size + y.used))
      refine ⟨Nat.le_trans (Nat.le_max_left ..) hinit, fun x hx => ?_⟩
      rcases List.mem_cons.1 hx with rfl | hx
      · exact Nat.le_trans (Nat.le_max_right ..) hinit
      · exact hall x hx
  rw [slotLimit, ← Array.foldl_toList]
  refine Nat.add_le_add_right ?_ depth
  by_cases hb : b < g.blocks.size
  · refine (hmax _ 0).2 _ ?_
    rw [block, Array.getD_eq_getD_getElem?, Array.getElem?_eq_getElem hb, Option.getD_some]
    exact Array.mem_toList_iff.2 (Array.getElem_mem hb)
  · rw [block_of_size_le (Nat.le_of_not_lt hb)]
    exact Nat.zero_le _

end Graph

/-! ## Steps -/

/-- Entry slots that are reached while a slot is asked for. -/
theorem Graph.size_phis_exitSlot {g : Graph} {a : BlockId} (ha : a < g.blocks.size) (line : Int)
    (depth : Nat) (b : BlockId) : ((g.exitSlot a line depth).2.block b).phis.size ≤
      max (g.block b).phis.size ((g.block b).used + depth + 1) := by
  rcases Nat.lt_or_ge depth (g.block a).stack.length with hlt | hge
  · rw [exitSlot_of_lt hlt]
    exact Nat.le_max_left ..
  · rw [exitSlot_of_ge hge]
    by_cases hab : b = a
    · subst hab
      obtain ⟨new, hsize, hself⟩ :=
        block_reach_self ha line ((g.block b).used + depth - (g.block b).stack.length)
      dsimp only
      rw [hself, Array.size_append, hsize]
      omega
    · rw [(g.worksIn_reach a line _).others b hab]
      exact Nat.le_max_left ..

/-- Nothing has flown into a phi from a block that was not asked. -/
theorem Graph.FedFrom.hasIncoming_eq {g : Graph} {a b : BlockId} {v : ValueId} {slot : Nat}
    {fed : List BlockId} (h : g.FedFrom b slot v fed) (ha : a ∉ fed) :
    g.hasIncoming v a = false := by
  obtain ⟨-, p, hp, hfed⟩ := h
  have hblocks : p.incomings.map (·.block) = fed := by
    generalize p.incomings = incomings at hfed
    induction hfed with
    | nil => rfl
    | cons hgives _ ih => rw [List.map_cons, hgives.1, ih fun hmem => ha (.tail _ hmem)]
  have hnone : p.incomings.find? (·.block == a) = none := by
    refine List.find?_eq_none.2 fun i hi heq => ha ?_
    rw [← hblocks, ← beq_iff_eq.1 heq]
    exact List.mem_map_of_mem hi
  rw [hasIncoming, hp, Option.any_some, incoming?, hnone]
  rfl

/-- Why the phi of a slot cannot be completed. -/
inductive Graph.Stuck (g : Graph) (maxDepth : Int) (b : BlockId) (slot : Nat) : StackError → Prop
  | underflow {v : ValueId} (hv : (g.block b).phis[slot]? = some v) (h : (g.block b).preds = []) :
    Stuck g maxDepth b slot (.underflow (g.offset b) slot (g.definition v).line)
  | tooDeep {v : ValueId} (hv : (g.block b).phis[slot]? = some v) (h : (g.block b).preds ≠ [])
      (hdeep : maxDepth ≤ slot) : Stuck g maxDepth b slot (.tooDeep (g.offset b) slot)

namespace PhiCompletion

variable {g₀ : Graph} {v : ValueId} {b : BlockId} {s s' s'' : State} {limit m n slot : Nat}

/-- What a step does to the phis that are to be looked at: no block has more than `limit` of them,
and at most `more` are put into the queue. -/
structure Enqueues (limit more : Nat) (s s' : State) : Prop where
  room : ∀ b, (s'.graph.block b).phis.size ≤ limit
  queue_le : s'.queue.toList.length ≤ s.queue.toList.length + more

theorem Enqueues.refl (hroom : ∀ b, (s.graph.block b).phis.size ≤ limit) : Enqueues limit 0 s s :=
  ⟨hroom, Nat.le_refl _⟩

theorem Enqueues.trans (h : Enqueues limit m s s') (h' : Enqueues limit n s' s'') :
    Enqueues limit (m + n) s s'' :=
  ⟨h'.room, by have := h.queue_le; have := h'.queue_le; omega⟩

section

variable (h₀ : g₀.Completable) (hb : b ∈ g₀.live)
include h₀ hb

/-- A predecessor that was not asked yet gives its value. -/
theorem exists_feed {depth : Nat} {pred : BlockId} {fed : List BlockId}
    (h : Completing g₀ (some v) s) (hfed : s.graph.FedFrom b slot v fed)
    (hpred : pred ∈ (g₀.block b).preds) (hnew : pred ∉ fed) (hslot : slot < depth)
    (hroom : ∀ a, (s.graph.block a).phis.size ≤ g₀.slotLimit depth) :
    ∃ s', feed v slot pred s = .ok () s' ∧
      Enqueues (g₀.slotLimit depth) (g₀.slotLimit depth) s s' ∧
      ∀ a k, s'.graph.isSealed a k = s.graph.isSealed a k := by
  have hlt : pred < s.graph.blocks.size :=
    h.filling.size_eq ▸ h₀.lt_size pred (h₀.preds_live b hb pred hpred)
  obtain ⟨hblock, hext⟩ := Graph.exitSlot_frame hlt (s.graph.lineOf pred) slot
  have hfed' := hfed.mono hext hblock
  obtain ⟨p, hp, -⟩ := hfed'.2
  obtain ⟨s', hok⟩ : ∃ s', feed v slot pred s = .ok () s' := by
    simp only [feed, Graph.exitSlotAt]
    rw [if_neg (by omega)]
    dsimp only
    rw [Int.toNat_natCast, hfed'.hasIncoming_eq hnew]
    exact ⟨_, rfl⟩
  obtain ⟨hgraph, hqueue, -⟩ := feed_ok hok
  rw [Int.toNat_natCast] at hgraph hqueue
  have hroom' : ∀ a, (s'.graph.block a).phis.size ≤ g₀.slotLimit depth := by
    intro a
    have hsize := Graph.size_phis_exitSlot hlt (s.graph.lineOf pred) slot a
    have hlimit := g₀.le_slotLimit a depth
    obtain ⟨phis, hfields⟩ := h.filling.fields a
    have hold := hroom a
    rw [hgraph]
    change ((s.graph.exitSlot pred (s.graph.lineOf pred) slot).2.block a).phis.size ≤ _
    rw [hfields] at hsize hold
    dsimp only at hsize hold
    omega
  refine ⟨s', hok, ⟨hroom', ?_⟩, ?_⟩
  · rw [hqueue]
    split
    · rw [Queue.toList_add, List.length_append, Array.length_toList]
      exact Nat.add_le_add_left (hroom' pred) _
    · exact Nat.le_add_right ..
  · intro a k
    rw [hgraph, Graph.isSealed_putIncoming hp, Graph.isSealed_exitSlot h.filling.slotted]

/-- All predecessors give their values. -/
theorem exists_forM_feed {depth : Nat} {preds fed : List BlockId}
    (h : Completing g₀ (some v) s) (hfed : s.graph.FedFrom b slot v fed)
    (hpreds : ∀ a ∈ preds, a ∈ (g₀.block b).preds) (hnodup : (fed ++ preds).Nodup)
    (hslot : slot < depth) (hroom : ∀ a, (s.graph.block a).phis.size ≤ g₀.slotLimit depth) :
    ∃ s', preds.forM (feed v slot) s = .ok () s' ∧
      Enqueues (g₀.slotLimit depth) (preds.length * g₀.slotLimit depth) s s' ∧
      ∀ a k, s'.graph.isSealed a k = s.graph.isSealed a k := by
  induction preds generalizing s fed with
  | nil =>
    rw [List.length_nil, Nat.zero_mul]
    exact ⟨s, rfl, .refl hroom, fun _ _ => rfl⟩
  | cons a preds ih =>
    have hmem := hpreds a List.mem_cons_self
    have hnew : a ∉ fed := fun hmem =>
      (List.nodup_append.1 hnodup).2.2 a hmem a List.mem_cons_self rfl
    obtain ⟨s₁, hfeed, hstep, hsealed⟩ := exists_feed h₀ hb h hfed hmem hnew hslot hroom
    obtain ⟨h₁, hfed₁⟩ := feed_completing h₀ hb h hfed hmem hfeed
    obtain ⟨s', hrest, hsteps, hsealed'⟩ := ih h₁ hfed₁
      (fun c hc => hpreds c (List.mem_cons_of_mem _ hc)) (by rwa [List.append_assoc]) hstep.room
    refine ⟨s', (bind_of_ok hfeed).trans hrest, ?_, fun c k => (hsealed' c k).trans (hsealed c k)⟩
    rw [List.length_cons, Nat.succ_mul, Nat.add_comm]
    exact hstep.trans hsteps

/-- A phi is completed, unless its block has no predecessor or its slot is too deep.  No other phi
is completed meanwhile. -/
theorem complete_cases {maxDepth : Int} {p : Phi} (h : Completing g₀ (some v) s)
    (hv : (s.graph.block b).phis[slot]? = some v)
    (hp : (s.graph.definition v).phi? = some p) (hempty : p.incomings = [])
    (hroom : ∀ a, (s.graph.block a).phis.size ≤ g₀.slotLimit maxDepth.toNat) :
    (∃ e, complete maxDepth v p s = .error (.error e) s ∧ s.graph.Stuck maxDepth b slot e) ∨
    ∃ s', complete maxDepth v p s = .ok () s' ∧ slot < maxDepth.toNat ∧
      (∀ a k, s'.graph.isSealed a k = true ↔ a = b ∧ k = slot ∨ s.graph.isSealed a k = true) ∧
      Enqueues (g₀.slotLimit maxDepth.toNat)
        (g₀.blocks.size * g₀.slotLimit maxDepth.toNat) s s' := by
  obtain ⟨-, hblock, p', hp', hslot⟩ := h.filling.slotted b slot v hv
  obtain rfl : p' = p := Option.some.inj (hp'.symm.trans hp)
  unfold complete
  rw [get_bind]
  dsimp only
  rw [hblock, hslot]
  by_cases hnone : (s.graph.block b).preds = []
  · refine .inl ⟨_, ?_, .underflow hv hnone⟩
    rw [if_pos (List.isEmpty_iff.2 hnone)]
    rfl
  rw [if_neg fun hnil => hnone (List.isEmpty_iff.1 hnil)]
  by_cases hdeep : maxDepth ≤ slot
  · refine .inl ⟨_, ?_, .tooDeep hv hnone hdeep⟩
    rw [if_pos hdeep]
    rfl
  rw [if_neg hdeep, h.filling.preds_eq]
  have hfed : s.graph.FedFrom b slot v [] := ⟨hv, p', hp, by rw [hempty]; exact .nil⟩
  have hnodup := h₀.preds_nodup b hb
  obtain ⟨s₁, hfeed, hsteps, hsealed⟩ := exists_forM_feed h₀ hb h hfed (fun _ ha => ha)
    (by rw [List.nil_append]; exact hnodup) (by omega : slot < maxDepth.toNat) hroom
  obtain ⟨h₁, hv₁, p₁, hp₁, -⟩ := forM_feed_completing h₀ hb h hfed (fun _ ha => ha) hfeed
  refine .inr ⟨{ s₁ with graph := s₁.graph.markComplete v }, bind_of_ok hfeed, by omega, ?_,
    hsteps.room, ?_⟩
  · intro a k
    dsimp only
    rw [Graph.markComplete, Graph.isSealed_modifyPhi hp₁, ← hsealed a k]
    split
    · -- a phi has a single block and a single slot
      rename_i hk
      obtain ⟨-, hblock₁, q, hq, hslot₁⟩ := h₁.filling.slotted b slot v hv₁
      obtain ⟨-, hblock₂, q', hq', hslot₂⟩ := h₁.filling.slotted a k v hk
      rw [hq] at hq'
      cases hq'
      have hkslot : k = slot := by omega
      exact iff_of_true rfl (.inl ⟨hblock₂.symm.trans hblock₁, hkslot⟩)
    · rename_i hk
      refine (or_iff_right ?_).symm
      rintro ⟨rfl, rfl⟩
      exact hk hv₁
  · refine Nat.le_trans hsteps.queue_le (Nat.add_le_add_left (Nat.mul_le_mul_right _ ?_) _)
    have hsub : (g₀.block b).preds ⊆ List.range g₀.blocks.size := fun a ha =>
      List.mem_range.2 (h₀.lt_size a (h₀.preds_live b hb a ha))
    simpa using (List.subperm_of_subset hnodup hsub).length_le

end

/-- Working off the queue completes all phis, or finds one that cannot be completed.  The phis that
it completes are above the limit. -/
theorem drain_total {maxDepth : Int} {fuel : Nat} (h₀ : g₀.Completable) (h : Completing g₀ none s)
    (hroom : ∀ a, (s.graph.block a).phis.size ≤ g₀.slotLimit maxDepth.toNat)
    (hfuel : s.queue.toList.length + (s.graph.openSlots maxDepth.toNat).card *
      (g₀.blocks.size * g₀.slotLimit maxDepth.toNat) < fuel) :
    (∃ s', drain maxDepth fuel s = .ok () s' ∧ ∀ a k, s'.graph.isSealed a k = true →
      k < maxDepth.toNat ∨ s.graph.isSealed a k = true) ∨
    ∃ e s', drain maxDepth fuel s = .error (.error e) s' ∧ g₀.Filling none s'.graph ∧
      (∀ e ∈ s'.events, e.step? = none) ∧
      ∃ b ∈ g₀.live, ∃ slot, s'.graph.Stuck maxDepth b slot e := by
  induction fuel generalizing s with
  | zero => cases hfuel
  | succ fuel ih =>
    obtain ⟨-, heq⟩ | ⟨v, queue, b, hb, slot, p, hqueue, hv, hp, ⟨hrest, -, heq⟩ |
      ⟨hopen, hincomplete, hincomings, heq⟩⟩ := drain_cases h maxDepth fuel
    · exact .inl ⟨s, heq, fun _ _ => .inr⟩
    · rw [heq]
      rw [hqueue, List.length_cons] at hfuel
      exact ih hrest hroom (by dsimp only; omega)
    · rw [heq]
      obtain ⟨e, hstop, hstuck⟩ | ⟨s₁, hstep, hslot, hsealed, hsteps⟩ :=
        complete_cases h₀ hb hopen hv hp hincomings hroom
      · exact .inr ⟨e, _, bind_of_error hstop, h.filling, h.quiet, b, hb, slot, hstuck⟩
      · rw [bind_of_ok hstep]
        have h₁ := complete_completing h₀ hb hopen hv hp hincomings hstep
        -- one slot less is open, which pays for what was put into the queue
        have hless := Graph.card_openSlots_lt (h₁.filling.size_eq.trans h.filling.size_eq.symm)
          (fun a k hk => (hsealed a k).2 (.inr hk)) (h.filling.size_eq ▸ h₀.lt_size b hb) hslot
          (Graph.isSealed_eq_false hv hp hincomplete) ((hsealed b slot).2 (.inl ⟨rfl, rfl⟩))
        have hlength := hsteps.queue_le
        rw [hqueue, List.length_cons] at hfuel
        have hmul := Nat.mul_le_mul_right (g₀.blocks.size * g₀.slotLimit maxDepth.toNat) hless
        rw [Nat.succ_mul] at hmul
        dsimp only at hlength hmul
        refine (ih h₁ hsteps.room (by omega)).imp_left ?_
        rintro ⟨s', hok, habove⟩
        refine ⟨s', hok, fun a k hk => ?_⟩
        rcases habove a k hk with hlt | hk
        · exact .inl hlt
        · rcases (hsealed a k).1 hk with ⟨-, rfl⟩ | hold
          · exact .inl hslot
          · exact .inr hold

end PhiCompletion

namespace Graph

variable {g : Graph}

/-- Completing the phis of a graph completes all of them, or finds one that cannot be.  The phis that
it completes are above the limit. -/
theorem Completable.completePhis_cases (h : g.Completable) (maxDepth : Int) :
    (∃ r, g.completePhis maxDepth = .ok () r ∧ ∀ a k, r.graph.isSealed a k = true →
      k < maxDepth.toNat ∨ g.isSealed a k = true) ∨
    ∃ e r, g.completePhis maxDepth = .error (.error e) r ∧ g.Filling none r.graph ∧
      (∀ e ∈ r.events, e.step? = none) ∧
      ∃ b ∈ g.live, ∃ slot, r.graph.Stuck maxDepth b slot e := by
  refine PhiCompletion.drain_total h h.completing (fun a => ?_) ?_
  · have := g.le_slotLimit a maxDepth.toNat
    dsimp only
    omega
  · have hcard := Nat.mul_le_mul_right (g.blocks.size * g.slotLimit maxDepth.toNat)
      (g.card_openSlots_le maxDepth.toNat)
    rw [PhiCompletion.fuelFor]
    simp only [PhiCompletion.Queue.toList, List.reverse_nil, List.flatten_nil, List.append_nil]
    rw [slotLimit] at hcard ⊢
    omega

theorem Completable.completePhis_total (h : g.Completable) (maxDepth : Int) :
    (∃ r, g.completePhis maxDepth = .ok () r) ∨
    ∃ e r, g.completePhis maxDepth = .error (.error e) r ∧ g.Filling none r.graph ∧
      (∀ e ∈ r.events, e.step? = none) ∧
      ∃ b ∈ g.live, ∃ slot, r.graph.Stuck maxDepth b slot e :=
  (h.completePhis_cases maxDepth).imp_left fun ⟨r, hr, _⟩ => ⟨r, hr⟩

/-- Where all phis were completed, every phi has got its values. -/
theorem complete_of_completing {g₀ : Graph} {r : PhiCompletion.State}
    (h : PhiCompletion.Completing g₀ none r) (hempty : r.queue.toList = []) {b : BlockId}
    (hb : b ∈ g₀.live) {k : Nat} {v : ValueId} (hv : (r.graph.block b).phis[k]? = some v) :
    ∃ p : Phi, (r.graph.definition v).phi? = some p ∧ p.slot = k ∧ p.complete = true ∧
      (r.graph.block b).preds ≠ [] ∧
      List.Forall₂ (r.graph.Gives k) (r.graph.block b).preds p.incomings := by
  obtain ⟨-, -, p, hp, hslot⟩ := h.filling.slotted b k v hv
  obtain ⟨q, hq, hcomplete⟩ : ∃ q, (r.graph.definition v).phi? = some q ∧ q.complete = true := by
    rcases h.waiting b hb k v hv with hnow | hqueued | hdone
    · cases hnow
    · rw [hempty] at hqueued
      cases hqueued
    · exact hdone
  obtain rfl : q = p := Option.some.inj (hq.symm.trans hp)
  have hflows := h.filling.settled b hb k v q hv (by simp) hq
  rw [Flows, if_pos hcomplete, hslot, Int.toNat_natCast] at hflows
  exact ⟨q, hq, hslot, hcomplete, hflows⟩

/-! ## What completing leaves -/

/-- The graph that completing its phis leaves behind, whether it succeeds or not. -/
def afterCompletion (g : Graph) (maxDepth : Int) : Graph :=
  match g.completePhis maxDepth with
  | .ok _ r => r.graph
  | .error _ r => r.graph

theorem afterCompletion_of_ok {maxDepth : Int} {r : PhiCompletion.State}
    (h : g.completePhis maxDepth = .ok () r) : g.afterCompletion maxDepth = r.graph := by
  rw [afterCompletion, h]

theorem afterCompletion_of_error {maxDepth : Int} {e : Stop StackError} {r : PhiCompletion.State}
    (h : g.completePhis maxDepth = .error e r) : g.afterCompletion maxDepth = r.graph := by
  rw [afterCompletion, h]

/-- What flows into a phi is what its predecessors are left with. -/
theorem incomings_eq_map {k : Nat} {preds : List BlockId} {incomings : List Incoming}
    (h : List.Forall₂ (g.Gives k) preds incomings) (line : Int) :
    incomings = preds.map fun a => ⟨a, (g.exitSlot a line k).1.1⟩ := by
  induction h with
  | nil => rfl
  | @cons a i preds incomings hi _ ih =>
    rw [List.map_cons, (exitSlot_of_exit? hi.2 line).1, ← ih, ← hi.1]

/-- Whether the phi of an entry slot is complete, and what flows into it from each predecessor, in
their order, is what that one is left with.  Asking the predecessors for it changes nothing. -/
def SlotFilled (g : Graph) (b : BlockId) (k : Nat) (v : ValueId) : Prop :=
  ∃ p, (g.definition v).phi? = some p ∧ p.slot = k ∧ p.complete = true ∧ ∀ line,
    p.incomings = (g.block b).preds.map (fun a => ⟨a, (g.exitSlot a line k).1.1⟩) ∧
    ∀ a ∈ (g.block b).preds, (g.exitSlot a line k).2 = g

theorem slotFilled_of_completing {g₀ : Graph} {r : PhiCompletion.State}
    (h : PhiCompletion.Completing g₀ none r) (hempty : r.queue.toList = []) {b : BlockId}
    (hb : b ∈ g₀.live) {k : Nat} {v : ValueId} (hv : (r.graph.block b).phis[k]? = some v) :
    r.graph.SlotFilled b k v := by
  obtain ⟨p, hp, hslot, hcomplete, -, hall⟩ := complete_of_completing h hempty hb hv
  refine ⟨p, hp, hslot, hcomplete, fun line => ⟨incomings_eq_map hall line, ?_⟩⟩
  intro a ha
  obtain ⟨x, -, hx⟩ := exists_incoming hall ha
  exact (exitSlot_of_exit? hx line).2

/-- Where all phis were completed, nothing is missing. -/
theorem verifyPhis_of_completing {g₀ : Graph} {r : PhiCompletion.State}
    (h : PhiCompletion.Completing g₀ none r) (hempty : r.queue.toList = []) :
    r.graph.verifyPhis = .ok () := by
  have hnone : r.graph.live.findSome? (fun b =>
      (r.graph.block b).phis.findSome? (r.graph.phiIssue? b)) = none := by
    refine List.findSome?_eq_none_iff.2 fun b hb => Array.findSome?_eq_none_iff.2 fun v hv => ?_
    obtain ⟨k, hk⟩ := Array.mem_iff_getElem?.1 hv
    obtain ⟨p, hp, -, hcomplete, -, hall⟩ :=
      complete_of_completing h hempty (h.filling.live_eq ▸ hb) hk
    rw [phiIssue?, hp]
    simp [hcomplete, hall.length_eq]
  rw [verifyPhis, hnone]

end Graph

end StackLift
