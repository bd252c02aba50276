/-
# Lifting comes to an end

The loops of a lift count down from numbers that never decide a result: each loop ends by itself
before the count is used up.  A walk goes on to higher offsets only, the worklist begins no walk
twice, the sweeps for the dominators come to a fixed point, and the queue of phis runs empty or
one of them cannot be completed.

* `Settles` : a loop ends by itself;
* `Lifter.walks` : the walks that were begun, and the offsets that were stepped in each;
* `Lifter.terminates` : all loops of a lift end by themselves.
-/
import StackLift.Proofs.Rejection
import StackLift.Proofs.Stability

namespace StackLift

/-! ## Loops that count down -/

section

variable {ε σ α ι : Type}

/-- Whether a loop ends by itself when it counts down from `n`: it is not cut off, and a higher
count makes no difference. -/
structure Settles (loop : Nat → EStateM (Stop ε) σ α) (n : Nat) (s : σ) : Prop where
  not_cut : ¬ IsCut (loop n s)
  eq : ∀ fuel, n ≤ fuel → loop fuel s = loop n s

/-- A loop that is not cut off ends by itself, if each round ends it or leads to another round,
whatever the count is. -/
theorem settles_of_rounds {loop : ι → Nat → EStateM (Stop ε) σ α}
    (hzero : ∀ i s, IsCut (loop i 0 s))
    (hround : ∀ i s, (∃ r, ∀ fuel, loop i (fuel + 1) s = r) ∨
      ∃ j s', ∀ fuel, loop i (fuel + 1) s = loop j fuel s')
    {n : Nat} {i : ι} {s : σ} (h : ¬ IsCut (loop i n s)) : Settles (loop i) n s := by
  refine ⟨h, ?_⟩
  induction n generalizing i s with
  | zero => exact absurd (hzero i s) h
  | succ n ih =>
    intro fuel hfuel
    cases fuel with
    | zero => omega
    | succ fuel =>
      obtain ⟨r, hr⟩ | ⟨j, s', hs'⟩ := hround i s
      · rw [hr, hr]
      · -- both counts go down by one
        rw [hs'] at h
        rw [hs', hs']
        exact ih h fuel (Nat.le_of_succ_le_succ hfuel)

/-- The same for a loop whose rounds differ in the state only. -/
theorem settles_of_states {loop : Nat → EStateM (Stop ε) σ α} (hzero : ∀ s, IsCut (loop 0 s))
    (hround : ∀ s, (∃ r, ∀ fuel, loop (fuel + 1) s = r) ∨
      ∃ s', ∀ fuel, loop (fuel + 1) s = loop fuel s')
    {n : Nat} {s : σ} (h : ¬ IsCut (loop n s)) : Settles loop n s := by
  have hrounds : ∀ (_ : Unit) (s : σ), (∃ r, ∀ fuel, loop (fuel + 1) s = r) ∨
      ∃ (_ : Unit) (s' : σ), ∀ fuel, loop (fuel + 1) s = loop fuel s' :=
    fun _ s => (hround s).imp_right fun ⟨s', hs'⟩ => ⟨(), s', hs'⟩
  exact settles_of_rounds (fun _ => hzero) hrounds (i := ()) h

end

/-! ## Walks that were told -/

/-- Walks with what an event tells about them, the last walk first: a walk begins, or an
instruction is stepped in the last one. -/
def Trace.record (walks : List (String × List Int)) (e : Trace.Event) :
    List (String × List Int) :=
  match e.start?, e.step? with
  | some name, _ => (name, []) :: walks
  | none, some (_, i) => walks.modifyHead fun w => (w.1, w.2 ++ [i.offset])
  | none, none => walks

/-- The walks that were begun, the last one first: the name of the block, and the offsets of the
instructions that were stepped. -/
def Lifter.walks (s : Lifter) : List (String × List Int) := s.events.toList.foldl Trace.record []

namespace Lifter

theorem walks_tell (s : Lifter) (e : Trace.Event) :
    (s.tell e).walks = Trace.record s.walks e := by
  unfold walks tell
  rw [Array.toList_push, List.foldl_append]
  rfl

theorem walks_tell_of_quiet (s : Lifter) {e : Trace.Event} (hstart : e.start? = none)
    (hstep : e.step? = none) : (s.tell e).walks = s.walks := by
  rw [walks_tell, Trace.record, hstart, hstep]

theorem walks_tell_of_start (s : Lifter) {e : Trace.Event} {name : String}
    (hstart : e.start? = some name) : (s.tell e).walks = (name, []) :: s.walks := by
  rw [walks_tell, Trace.record, hstart]

theorem walks_tell_of_step (s : Lifter) {e : Trace.Event} {name : String} {i : Instruction}
    (hstart : e.start? = none) (hstep : e.step? = some (name, i)) :
    (s.tell e).walks = s.walks.modifyHead fun w => (w.1, w.2 ++ [i.offset]) := by
  rw [walks_tell, Trace.record, hstart, hstep]

end Lifter

/-! ## Instructions -/

namespace Lift

open Lifter

/-- What an instruction does is no walk. -/
theorem stable_walks (c : Code) (walks : List (String × List Int)) :
    Stable c (fun _ => True) fun s => s.code = c ∧ s.walks = walks where
  code_eq _ hs := hs.1
  consts _ _ _ _ _ := trivial
  tell s _ hs hstart hstep := ⟨hs.1, (s.walks_tell_of_quiet hstart hstep).trans hs.2⟩
  line _ _ hs _ := hs
  mark _ _ hs := hs
  peek _ hs := hs
  pop _ hs := hs
  emit _ _ _ hs _ := hs
  ensure _ _ hs := hs
  terminate _ _ _ hs _ := hs

/-- The step of an instruction is told in the last walk, however it ends. -/
theorem step_walks (i : Instruction) (s : Lifter) : ¬ IsCut (step i s) ∧
    (after (step i s)).walks = s.walks.modifyHead fun w => (w.1, w.2 ++ [i.offset]) := by
  have htell : ∀ name line fields, (({ s with line }.tell (.about .instruction "inst"
      (("block", .text name) :: ("inst", .instruction i) :: fields))).walks =
        s.walks.modifyHead fun w => (w.1, w.2 ++ [i.offset])) := fun name line fields =>
    walks_tell_of_step { s with line } rfl rfl
  cases he : i.op.effect? with
  | none =>
    unfold step
    rw [he]
    exact ⟨not_isCut_error (by rintro ⟨⟩) _, htell _ _ _⟩
  | some e =>
    obtain ⟨s₁, hstep, hwalks⟩ : ∃ s₁, step i s = perform i e s₁ ∧
        s₁.walks = s.walks.modifyHead fun w => (w.1, w.2 ++ [i.offset]) := by
      unfold step
      rw [he]
      exact ⟨_, rfl, htell _ _ _⟩
    obtain ⟨hcut, ⟨-, hafter⟩, -⟩ := keeps_perform (stable_walks s₁.code s₁.walks) he s₁ ⟨rfl, rfl⟩
    rw [hstep]
    exact ⟨hcut, hafter.trans hwalks⟩

/-! ## Walking a block -/

/-- A walk ends with an instruction, or it goes on with the next one. -/
theorem walkFrom_round (find : Int → Option Instruction) (p : Int) (s : Lifter) :
    (∃ r, (∀ fuel, walkFrom find p (fuel + 1) s = r) ∧ ¬ IsCut r ∧
      ((after r).walks = s.walks ∨ ∃ i, find p = some i ∧
        (after r).walks = s.walks.modifyHead fun w => (w.1, w.2 ++ [i.offset]))) ∨
    ∃ i s', find p = some i ∧
      s'.walks = s.walks.modifyHead (fun w => (w.1, w.2 ++ [i.offset])) ∧
      ∀ fuel, walkFrom find p (fuel + 1) s = walkFrom find i.next fuel s' := by
  cases hi : find p with
  | none =>
    refine .inl ⟨.error (.error (.fallsOff (s.graph.offset s.current) p)) s, fun fuel => ?_,
      not_isCut_error (by rintro ⟨⟩) s, .inl rfl⟩
    rw [walkFrom, hi]
    rfl
  | some i =>
    obtain ⟨hcut, hwalks⟩ := step_walks i s
    cases hstep : step i s with
    | error stop s₁ =>
      rw [hstep] at hcut hwalks
      refine .inl ⟨.error stop s₁, fun fuel => ?_, hcut, .inr ⟨i, rfl, hwalks⟩⟩
      rw [walkFrom, hi]
      exact bind_of_error hstep
    | ok u s₁ =>
      rw [hstep] at hwalks
      -- a block that is left, or one that begins at the next offset, ends the walk
      have hon : ∀ fuel, walkFrom find p (fuel + 1) s = (get >>= fun s =>
          if (s.graph.block s.current).isTerminated then pure ()
          else (s.graph.find? i.next).elim (walkFrom find i.next fuel) jumpTo : Lift Unit) s₁ := by
        intro fuel
        rw [walkFrom, hi]
        refine (bind_of_ok hstep).trans ?_
        rw [get_bind, get_bind]
        cases s₁.graph.find? i.next <;> rfl
      by_cases hterm : (s₁.graph.block s₁.current).isTerminated = true
      · refine .inl ⟨.ok () s₁, fun fuel => ?_, not_isCut_ok () s₁, .inr ⟨i, rfl, hwalks⟩⟩
        rw [hon, get_bind, if_pos hterm]
        rfl
      · cases hfind : s₁.graph.find? i.next with
        | some b =>
          obtain ⟨hcut, ⟨-, hjump⟩, -⟩ :=
            keeps_jumpTo (stable_walks s₁.code s₁.walks) b s₁ ⟨rfl, rfl⟩
          refine .inl ⟨jumpTo b s₁, fun fuel => ?_, hcut, .inr ⟨i, rfl, hjump.trans hwalks⟩⟩
          rw [hon, get_bind, if_neg hterm, hfind]
          rfl
        | none =>
          refine .inr ⟨i, s₁, rfl, hwalks, fun fuel => ?_⟩
          rw [hon, get_bind, if_neg hterm, hfind]
          rfl

section

variable {c : Code} (hc : c.Sound)

include hc

/-- A walk is not cut off if there are less instructions left than it may step. -/
theorem not_isCut_walkFrom {fuel : Nat} {p : Int} {s : Lifter}
    (hfuel : (c.instructions.dropWhile (·.offset != p)).length < fuel) :
    ¬ IsCut (walkFrom c.at? p fuel s) := by
  induction fuel generalizing p s with
  | zero => cases hfuel
  | succ fuel ih =>
    obtain ⟨r, heq, hcut, -⟩ | ⟨i, s₁, hi, -, heq⟩ := walkFrom_round c.at? p s
    · rw [heq]
      exact hcut
    · obtain ⟨hmem, rfl⟩ := (hc.at?_eq_some_iff p i).1 hi
      rw [heq]
      apply ih
      rw [hc.laidOut.dropWhile_eq_cons hmem, List.length_cons] at hfuel
      exact Nat.lt_of_succ_lt_succ hfuel

/-- The walk of a block ends by itself. -/
theorem settles_walkFrom (p : Int) (s : Lifter) :
    Settles (walkFrom c.at? p) (c.instructions.length + 1) s := by
  apply settles_of_rounds
  · exact fun p s => ⟨s, rfl⟩
  · intro p s
    obtain ⟨r, heq, -⟩ | ⟨i, s₁, -, -, heq⟩ := walkFrom_round c.at? p s
    · exact .inl ⟨r, heq⟩
    · exact .inr ⟨i.next, s₁, heq⟩
  · apply not_isCut_walkFrom hc
    exact Nat.lt_succ_of_le (List.dropWhile_sublist _).length_le

/-- The offsets that are stepped in a walk ascend, however it ends. -/
theorem walkFrom_walks (fuel : Nat) {p : Int} {s : Lifter} {name : String} {os : List Int}
    {ws : List (String × List Int)} (hwalks : s.walks = (name, os) :: ws)
    (hascend : os.Pairwise (· < ·)) (hlt : ∀ q ∈ os, q < p) :
    ∃ os', (after (walkFrom c.at? p fuel s)).walks = (name, os') :: ws ∧
      os'.Pairwise (· < ·) := by
  induction fuel generalizing p s os with
  | zero => exact ⟨os, hwalks, hascend⟩
  | succ fuel ih =>
    have hconcat : ∀ i, c.at? p = some i → (os ++ [i.offset]).Pairwise (· < ·) := by
      intro i hi
      obtain ⟨-, rfl⟩ := (hc.at?_eq_some_iff p i).1 hi
      refine List.pairwise_append.2 ⟨hascend, List.pairwise_singleton _ _, fun q hq o ho => ?_⟩
      obtain rfl := List.mem_singleton.1 ho
      exact hlt q hq
    obtain ⟨r, heq, -, hends | ⟨i, hi, hends⟩⟩ | ⟨i, s₁, hi, hs₁, heq⟩ := walkFrom_round c.at? p s
    · rw [heq, hends]
      exact ⟨os, hwalks, hascend⟩
    · rw [heq, hends, hwalks]
      exact ⟨os ++ [i.offset], rfl, hconcat i hi⟩
    · rw [heq]
      rw [hwalks] at hs₁
      refine ih hs₁ (hconcat i hi) fun q hq => ?_
      obtain ⟨hmem, rfl⟩ := (hc.at?_eq_some_iff p i).1 hi
      have hnext := hc.laidOut.offset_lt_next hmem
      rcases List.mem_append.1 hq with hq | hq
      · exact Int.lt_trans (hlt q hq) hnext
      · obtain rfl := List.mem_singleton.1 hq
        exact hnext

end

/-- The walk of a block is told as one walk, with ascending offsets. -/
theorem walk_walks {c : Code} (hc : c.Sound) (o : Int) (s : Lifter) :
    ∃ os, (after (walk c.at? o s)).walks = (blockName o, os) :: s.walks ∧
      os.Pairwise (· < ·) := by
  obtain ⟨b, s₁, s₂, e, hensure, -, he, henter, hrest⟩ := walk_cases c.at? o s
  have hs₂ : s₂.walks = (blockName o, []) :: s.walks := by
    obtain ⟨⟨-, hs₁⟩, -⟩ :=
      (keeps_ensure (stable_walks s.code s.walks) o).of_ok hensure ⟨rfl, rfl⟩
    have hkeeps : ∀ c walks, Keeps (fun s => s.code = c ∧ s.walks = walks) (fun _ => True)
        (if o = 0 then pushArguments else pure ()) := by
      intro c walks
      split
      · exact keeps_pushArguments (stable_walks c walks)
      · exact keeps_pure trivial
    obtain ⟨⟨-, hs₂⟩, -⟩ := (hkeeps _ _).of_ok henter ⟨rfl, rfl⟩
    rw [hs₂, walks_tell_of_start _ he, ← hs₁]
    rfl
  obtain ⟨os, hwalks, hascend⟩ := walkFrom_walks hc (s₂.code.instructions.length + 1) hs₂
    List.Pairwise.nil (p := o) fun q hq => absurd hq List.not_mem_nil
  refine ⟨os, ?_, hascend⟩
  obtain ⟨s₃, e', hfrom, hstep, hstart, heq⟩ | ⟨stop, s₃, hfrom, heq⟩ := hrest
  · rw [hfrom] at hwalks
    rw [heq]
    exact (s₃.walks_tell_of_quiet hstart hstep).trans hwalks
  · rw [hfrom] at hwalks
    rw [heq]
    exact hwalks

/-! ## The worklist -/

/-- Taking an offset off the worklist ends the traversal, or it goes on. -/
theorem traverse_round (find : Int → Option Instruction) (s : Lifter) :
    (∃ r, ∀ fuel, traverse find (fuel + 1) s = r) ∨
      ∃ s', ∀ fuel, traverse find (fuel + 1) s = traverse find fuel s' := by
  obtain ⟨r, hends, -⟩ | ⟨pending, hon⟩ | ⟨o, pending, processed, hon⟩ := traverse_rounds find s
  · exact .inl ⟨r, hends⟩
  · exact .inr ⟨_, hon⟩
  · cases hwalk : walk find o { s with pending, processed } with
    | ok u s₁ => exact .inr ⟨s₁, fun fuel => (hon fuel).trans (bind_of_ok hwalk)⟩
    | error stop s₁ =>
      exact .inl ⟨.error stop s₁, fun fuel => (hon fuel).trans (bind_of_error hwalk)⟩

/-- Walks none of which was begun twice, each with ascending offsets. -/
structure Orderly (walks : List (String × List Int)) : Prop where
  once : (walks.map (·.1)).Nodup
  ascending : ∀ w ∈ walks, w.2.Pairwise (· < ·)

/-- Walks of blocks at different offsets are orderly if their offsets ascend. -/
theorem orderly_of_names {walks : List (String × List Int)} {done : List Int} (hnodup : done.Nodup)
    (hnames : walks.map (·.1) = (done.map blockName).reverse)
    (hascending : ∀ w ∈ walks, w.2.Pairwise (· < ·)) : Orderly walks := by
  refine ⟨?_, hascending⟩
  rw [hnames]
  apply List.pairwise_reverse.2
  apply List.pairwise_map.2
  exact hnodup.imp fun hne heq => hne (blockName_inj heq).symm

/-- The worklist begins no walk twice, however the traversal ends. -/
theorem traverse_walks {c : Code} (hc : c.Sound) {done : List Int} {s : Lifter}
    (h : Progress c done none s) (hsteps : s.steps = c.stepsOf done)
    (hnames : s.walks.map (·.1) = (done.map blockName).reverse)
    (hascending : ∀ w ∈ s.walks, w.2.Pairwise (· < ·)) (fuel : Nat) :
    Orderly (after (traverse c.at? fuel s)).walks := by
  induction fuel generalizing done s with
  | zero => exact orderly_of_names (by simpa using h.marks.nodup) hnames hascending
  | succ fuel ih =>
    obtain ⟨-, heq⟩ | ⟨o, ho, ⟨hseen, heq⟩ | ⟨hnot, heq⟩⟩ := traverse_cases hc h fuel
    · rw [heq]
      exact orderly_of_names (by simpa using h.marks.nodup) hnames hascending
    · rw [heq]
      exact ih (h.drop hseen) hsteps hnames hascending
    · rw [heq]
      obtain ⟨os, hwalks, hos⟩ := walk_walks hc o { s with
        pending := s.pending.clearBit o.toNat
        processed := s.processed.setBit o.toNat }
      -- one more walk was told, whether it succeeds or not
      have hnames' : ((blockName o, os) :: s.walks).map (·.1) =
          ((done ++ [o]).map blockName).reverse := by
        simp only [List.map_cons, List.map_append, List.map_nil, List.reverse_append,
          List.reverse_cons, List.reverse_nil, List.nil_append, List.singleton_append, hnames]
      have hascending' : ∀ w ∈ (blockName o, os) :: s.walks, w.2.Pairwise (· < ·) := by
        intro w hw
        rcases List.mem_cons.1 hw with rfl | hw
        · exact hos
        · exact hascending w hw
      cases hwalk : walk c.at? o { s with
          pending := s.pending.clearBit o.toNat
          processed := s.processed.setBit o.toNat } with
      | ok u s₁ =>
        obtain ⟨h₁, hsteps₁, -⟩ := walk_progress hc h ho hnot hsteps rfl hwalk
        rw [hwalk] at hwalks
        rw [bind_of_ok hwalk]
        exact ih h₁ hsteps₁ (hwalks ▸ hnames') (hwalks ▸ hascending')
      | error stop s₁ =>
        have hmarks : Marks c done s.pending s.processed := by simpa using h.marks
        rw [hwalk] at hwalks
        rw [bind_of_error hwalk]
        exact hwalks ▸ orderly_of_names (hmarks.begin ho hnot).nodup hnames' hascending'

end Lift

/-! ## Sweeps -/

namespace Dominators

/-- A sweep that changes nothing leaves the sets as they are. -/
theorem sweep_of_unchanged {sets : Array BitSet} {rows : List (Nat × List Nat)}
    (h : (sweep sets rows).2 = false) : sweep sets rows = (sets, false) := by
  induction rows with
  | nil => rfl
  | cons row rows ih =>
    rw [sweep] at h ⊢
    split at h
    · rw [if_pos ‹_›]
      exact ih h
    · cases h

/-- Sweeps of which the last one changed nothing have come to a fixed point, and more of them make
no difference. -/
theorem iterate_settled {rows : List (Nat × List Nat)} {sets : Array BitSet} {n : Nat}
    (h : (iterate rows sets n).2.getLast? = some false) :
    sweep (iterate rows sets n).1 rows = ((iterate rows sets n).1, false) ∧
      ∀ fuel, n ≤ fuel → iterate rows sets fuel = iterate rows sets n := by
  induction n generalizing sets with
  | zero => cases h
  | succ n ih =>
    by_cases hchanged : (sweep sets rows).2 = true
    · rw [iterate_succ, if_pos hchanged] at h ⊢
      have hlast : (iterate rows (sweep sets rows).1 n).2.getLast? = some false := by
        cases hmore : (iterate rows (sweep sets rows).1 n).2 with
        | nil =>
          rw [hmore] at h
          cases h
        | cons b more =>
          rw [hmore] at h
          exact h
      obtain ⟨hfixed, hmono⟩ := ih hlast
      refine ⟨hfixed, fun fuel hfuel => ?_⟩
      obtain ⟨fuel, rfl⟩ : ∃ k, fuel = k + 1 := ⟨fuel - 1, by omega⟩
      rw [iterate_succ, if_pos hchanged, hmono fuel (Nat.le_of_succ_le_succ hfuel)]
    · have hsame := sweep_of_unchanged (Bool.eq_false_iff.2 hchanged)
      rw [iterate_succ, if_neg hchanged]
      refine ⟨?_, fun fuel hfuel => ?_⟩
      · rw [hsame]
        exact hsame
      · obtain ⟨fuel, rfl⟩ : ∃ k, fuel = k + 1 := ⟨fuel - 1, by omega⟩
        rw [iterate_succ, if_neg hchanged]

end Dominators

/-! ## The queue of phis -/

namespace PhiCompletion

/-- Taking a phi off the queue ends the completion, or it goes on. -/
theorem drain_round (maxDepth : Int) (s : State) :
    (∃ r, ∀ fuel, drain maxDepth (fuel + 1) s = r) ∨
      ∃ s', ∀ fuel, drain maxDepth (fuel + 1) s = drain maxDepth fuel s' := by
  cases hnext : s.queue.next? with
  | none =>
    refine .inl ⟨.ok () s, fun fuel => ?_⟩
    rw [drain, get_bind, hnext]
    rfl
  | some next =>
    obtain ⟨v, queue⟩ := next
    cases hphi : (s.graph.definition v).phi? with
    | none =>
      refine .inl ⟨.error (.fault .outOfRange) { s with queue }, fun fuel => ?_⟩
      rw [drain, get_bind, hnext]
      simp only [hphi]
      rfl
    | some p =>
      cases hcomplete : p.complete with
      | true =>
        refine .inr ⟨{ s with queue }, fun fuel => ?_⟩
        rw [drain, get_bind, hnext]
        simp only [hphi, hcomplete]
        rfl
      | false =>
        have hon : ∀ fuel, drain maxDepth (fuel + 1) s =
            (complete maxDepth v p >>= fun _ => drain maxDepth fuel) { s with queue } := by
          intro fuel
          rw [drain, get_bind, hnext]
          simp only [hphi, hcomplete]
          rfl
        cases hstep : complete maxDepth v p { s with queue } with
        | ok u s₁ => exact .inr ⟨s₁, fun fuel => (hon fuel).trans (bind_of_ok hstep)⟩
        | error stop s₁ =>
          exact .inl ⟨.error stop s₁, fun fuel => (hon fuel).trans (bind_of_error hstep)⟩

end PhiCompletion

/-- The queue of phis comes to an end by itself. -/
theorem Graph.Completable.settles_drain {g : Graph} (h : g.Completable) (maxDepth : Int) :
    Settles (PhiCompletion.drain maxDepth) (PhiCompletion.fuelFor g maxDepth)
      ⟨g, { front := PhiCompletion.allPhis g }, #[]⟩ := by
  apply settles_of_states (fun s => ⟨s, rfl⟩) (PhiCompletion.drain_round maxDepth)
  show ¬ IsCut (g.completePhis maxDepth)
  obtain ⟨r, heq⟩ | ⟨e, r, heq, -⟩ := h.completePhis_total maxDepth
  · rw [heq]
    exact not_isCut_ok _ _
  · rw [heq]
    exact not_isCut_error (by rintro ⟨⟩) _

/-! ## All loops -/

namespace Lifter

variable {c : Code} {options : LiftOptions} {s : Lifter}

theorem IsOpened.walks_eq (h : IsOpened c options s) : s.walks = [] := by
  have hnone : ∀ l : List Trace.Event, (∀ e ∈ l, e.kind = .opens) →
      l.foldl Trace.record [] = [] := by
    intro l
    induction l with
    | nil => exact fun _ => rfl
    | cons e l ih =>
      intro hl
      have hstart : e.start? = none := by
        unfold Trace.Event.start?
        rw [hl e List.mem_cons_self]
      have hstep : e.step? = none := by
        unfold Trace.Event.step?
        rw [hl e List.mem_cons_self]
      rw [List.foldl_cons, Trace.record, hstart, hstep]
      exact ih fun e he => hl e (List.mem_cons_of_mem _ he)
  exact hnone _ fun e he => h.opens e (Array.mem_toList_iff.1 he)

/-- Whether all loops of the lift of a function end by themselves. -/
structure Terminates (c : Code) (options : LiftOptions) : Prop where
  /-- A lift is not cut off. -/
  lift : ¬ IsCut (ofCode c options).lift
  /-- A walk ends by itself, wherever it begins. -/
  walk : ∀ o s, Settles (Lift.walkFrom c.at? o) (c.instructions.length + 1) s
  /-- The worklist of a lifter that was just made runs empty by itself; -/
  worklist : ∀ s, IsOpened c options s → Settles (Lift.traverse c.at?) (Lift.traverseFuel c) s
  /-- no walk is begun twice, and in each walk the offsets ascend, also if it fails. -/
  orderly : ∀ s, IsOpened c options s → ∀ fuel,
    Lift.Orderly (after (Lift.traverse c.at? fuel s)).walks
  /-- When all blocks are walked, the sweeps come to a fixed point, -/
  sweeps : ∀ s s', IsOpened c options s →
    Lift.traverse c.at? (Lift.traverseFuel c) s = .ok () s' → ∃ sets changes,
      Dominators.sweep sets (Dominators.rows s'.graph) = (sets, false) ∧
      ∀ fuel, s'.graph.live.length * s'.graph.live.length < fuel →
        Dominators.checkedIterate (Dominators.rows s'.graph) (Dominators.start s'.graph) fuel =
          .ok (sets, changes)
  /-- and the queue of phis runs empty by itself, or one of them cannot be completed. -/
  phis : ∀ s s', IsOpened c options s →
    Lift.traverse c.at? (Lift.traverseFuel c) s = .ok () s' →
    ∃ s'', Lift.findDominators s' = .ok () s'' ∧
      Settles (PhiCompletion.drain (Lift.depthLimit c))
        (PhiCompletion.fuelFor s''.graph (Lift.depthLimit c))
        ⟨s''.graph, { front := PhiCompletion.allPhis s''.graph }, #[]⟩ ∧
      ((∃ r, s''.graph.completePhis (Lift.depthLimit c) = .ok () r ∧ r.queue.toList = []) ∨
        ∃ e r, s''.graph.completePhis (Lift.depthLimit c) = .error (.error e) r)

theorem IsOpened.settles_traverse (h : IsOpened c options s) (hc : c.Sound) :
    Settles (Lift.traverse c.at?) (Lift.traverseFuel c) s := by
  apply settles_of_states (fun s => ⟨s, rfl⟩) (Lift.traverse_round c.at?)
  rintro ⟨s', hstop⟩
  have hcovered : Lift.Covered s.pending 1 :=
    ⟨[0], Nat.le_refl 1, fun o ho => List.mem_singleton.2 (h.eq_zero_of_holds ho)⟩
  refine (Lift.traverse_halts hc h.progress.1 h.progress.2 h.steps_eq hcovered ?_ hstop).ne_endless
    rfl
  rw [Lift.traverseFuel, List.length_nil]
  omega

theorem IsOpened.traversed {s' : Lifter} (h : IsOpened c options s) (hc : c.Sound) {fuel : Nat}
    (hok : Lift.traverse c.at? fuel s = .ok () s') :
    s'.options = options ∧ ∃ done, s'.graph.Traversed c done := by
  obtain ⟨done, hprogress, hrooted, -, hoptions, hnone⟩ :=
    Lift.traverse_progress hc h.progress.1 h.progress.2 h.steps_eq hok
  exact ⟨hoptions.trans h.options_eq, done, hprogress.traversed hrooted hnone⟩

end Lifter

namespace Graph.Traversed

variable {c : Code} {done : List Int} {g : Graph}

/-- The sweeps over the blocks of a function come to a fixed point. -/
theorem iterate_settled (h : g.Traversed c done) (hc : c.Sound) : ∃ sets changes,
    Dominators.sweep sets (Dominators.rows g) = (sets, false) ∧
      ∀ fuel, g.live.length * g.live.length < fuel →
        Dominators.checkedIterate (Dominators.rows g) (Dominators.start g) fuel =
          .ok (sets, changes) := by
  have hord := h.divided.wellFormed.ordered
  have hlast : (Dominators.iterate (Dominators.rows g) (Dominators.start g)
      (g.live.length * g.live.length + 1)).2.getLast? = some false :=
    (Dominators.approximation_solve hord h.predsInside).2.2
  obtain ⟨hfixed, hmore⟩ := Dominators.iterate_settled hlast
  refine ⟨_, (Dominators.iterate (Dominators.rows g) (Dominators.start g)
    (g.live.length * g.live.length + 1)).2, hfixed, fun fuel hfuel => ?_⟩
  rw [Dominators.checkedIterate_eq (hord.length_live_le (h.inRange hc))
    (fun row hrow => Dominators.lt_of_mem_rows hrow) fuel (Dominators.seated_start g),
    hmore fuel hfuel]

end Graph.Traversed

/-- All loops of a lift end by themselves. -/
theorem Lifter.terminates {l : Listing} {c : Code} (hsize : l.IsAddressable)
    (hbuild : l.build = .ok c) (options : LiftOptions) : Terminates c options := by
  have hc := Listing.sound_of_build hsize hbuild
  refine ⟨?_, Lift.settles_walkFrom hc, fun s h => h.settles_traverse hc, fun s h fuel => ?_,
    fun s s' h hok => ?_, fun s s' h hok => ?_⟩
  · rintro ⟨s, hstop⟩
    obtain hhalts | ⟨e, -, -, -, -, heq, -⟩ := lift_error hc hstop
    · exact hhalts.ne_endless rfl
    · cases heq
  · apply Lift.traverse_walks hc h.progress.1 h.steps_eq
    · rw [h.walks_eq]
      rfl
    · rw [h.walks_eq]
      exact fun w hw => absurd hw List.not_mem_nil
  · obtain ⟨-, done, htraversed⟩ := h.traversed hc hok
    exact htraversed.iterate_settled hc
  · obtain ⟨-, done, htraversed⟩ := h.traversed hc hok
    obtain ⟨s₂, hfind, -, -, -, hgraph, -⟩ := Lift.exists_findDominators
      htraversed.divided.wellFormed.ordered htraversed.predsInside (htraversed.inRange hc)
    have hcompletable : s₂.graph.Completable := by
      rw [hgraph]
      exact htraversed.completable_kept hc _
    refine ⟨s₂, hfind, hcompletable.settles_drain _, ?_⟩
    obtain ⟨r, hr⟩ | ⟨e, r, hr, -⟩ := hcompletable.completePhis_total (Lift.depthLimit c)
    · exact .inl ⟨r, hr, (hcompletable.completePhis_ok hr).2⟩
    · exact .inr ⟨e, r, hr⟩

/-- They also end for a loop that takes a value each time, whose phis ask for ever deeper slots. -/
theorem Lifter.terminates_greedy :
    Listing.greedy.IsAddressable ∧ ∃ c, Listing.greedy.build = .ok c ∧ Terminates c {} := by
  have hstops : Listing.greedy.stops (· == .error (.stack (.tooDeep 0 3))) = true := by
    simp only [Listing.stops, Lifter.lift, Lift.all, Code.getElem?_index]
    decide +kernel
  obtain ⟨c, -, -, hbuild, -, -⟩ := Listing.exists_of_stops hstops
  have hsize : Listing.greedy.IsAddressable := by decide +kernel
  exact ⟨hsize, c, hbuild, Lifter.terminates hsize hbuild {}⟩

end StackLift
