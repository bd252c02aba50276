/-
# Finished blocks and blocks to come

While blocks are walked, the graph holds finished blocks, blocks to come, and the one that is being
walked.  A finished block was stepped through its whole run, is left as the last instruction of the
run tells, and the machine with one stack can follow it.

* `Graph.Divided` : the graph while blocks are walked;
* `Lifter.Progress` : the same with the marks of what is to be walked;
* `Lifter.Finished` : the block that was being walked is finished.
-/
import StackLift.Proofs.Stepping
import StackLift.Proofs.WellFormed

namespace StackLift

/-! ## Runs of blocks -/

namespace Code

/-- The run of the block at an offset. -/
def blockRun (c : Code) (o : Int) : List Instruction := c.runFrom c.isLabel o

theorem blockRun_eq (c : Code) (o : Int) : c.blockRun o = c.runFrom c.isLabel o := rfl

/-- The arguments that are pushed where a block is entered. -/
def argsAt (c : Code) (o : Int) : List String := if o = 0 then c.signature.args else []

/-- Whether an offset is the body of a loop, the header of which is at the end of one of the
blocks at the given offsets. -/
def isLoopBody (c : Code) (done : List Int) (o : Int) : Bool :=
  done.any fun p => (c.blockRun p).any fun i => i.op.effect? == some .forLoop && i.next == o

theorem isLoopBody_iff (c : Code) (done : List Int) (o : Int) : c.isLoopBody done o = true ↔
    ∃ p ∈ done, ∃ i ∈ c.blockRun p, i.op.effect? = some .forLoop ∧ i.next = o := by
  simp [isLoopBody]

/-- Only the last instruction of a run can be the header of a loop. -/
theorem Sound.getLast?_of_forLoop {c : Code} (hc : c.Sound) {o : Int} {i : Instruction}
    (hi : i ∈ c.blockRun o) (hfor : i.op.effect? = some .forLoop) :
    (c.blockRun o).getLast? = some i := by
  rcases hc.runFrom_before hi with hlast | ⟨hflow, -⟩
  · exact hlast
  · rw [Opcode.flow_eq_of_effect? hfor] at hflow
    cases hflow

theorem Sound.isLoopBody_concat {c : Code} (hc : c.Sound) (done : List Int) {p : Int}
    {i : Instruction} (hlast : (c.blockRun p).getLast? = some i) (o : Int) :
    c.isLoopBody (done ++ [p]) o = true ↔
      c.isLoopBody done o = true ∨ i.op.effect? = some .forLoop ∧ i.next = o := by
  rw [isLoopBody_iff, isLoopBody_iff]
  have hmem := List.mem_of_getLast? hlast
  constructor
  · rintro ⟨q, hq, j, hj, hfor, hnext⟩
    rcases List.mem_append.1 hq with hq | hq
    · exact .inl ⟨q, hq, j, hj, hfor, hnext⟩
    · rw [List.mem_singleton] at hq
      subst hq
      obtain rfl : j = i := Option.some.inj ((hc.getLast?_of_forLoop hj hfor).symm.trans hlast)
      exact .inr ⟨hfor, hnext⟩
  · rintro (⟨q, hq, hj⟩ | ⟨hfor, hnext⟩)
    · exact ⟨q, List.mem_append_left _ hq, hj⟩
    · exact ⟨p, List.mem_append_right _ (List.mem_singleton_self p), i, hmem, hfor, hnext⟩

theorem Sound.isLoopBody_concat_eq {c : Code} (hc : c.Sound) (done : List Int) {p : Int}
    {i : Instruction} (hlast : (c.blockRun p).getLast? = some i) {o : Int}
    (ho : ¬ (i.op.effect? = some .forLoop ∧ i.next = o)) :
    c.isLoopBody (done ++ [p]) o = c.isLoopBody done o := by
  rw [Bool.eq_iff_iff, hc.isLoopBody_concat done hlast]
  exact or_iff_left ho

/-- No loop has its body at the entry. -/
theorem Sound.isLoopBody_zero {c : Code} (hc : c.Sound) (done : List Int) :
    c.isLoopBody done 0 = false := by
  rw [← Bool.not_eq_true, isLoopBody_iff]
  rintro ⟨p, -, i, hi, -, hnext⟩
  have := hc.next_inRange (Code.mem_of_mem_runFrom hi)
  omega

/-- What is stepped in the blocks at the given offsets. -/
def stepsOf (c : Code) (done : List Int) : List (String × Instruction) :=
  done.flatMap fun o => (c.blockRun o).map fun i => (blockName o, i)

end Code

/-! ## Finished blocks and blocks to come -/

namespace Graph

variable {c : Code} {done done' : List Int} {g g' : Graph} {b : BlockId}

/-- Whether a block was walked through its run, and left after its last instruction by a
terminator. -/
structure LeftBy (c : Code) (done : List Int) (g : Graph) (b : BlockId) (i : Instruction)
    (t : Terminator) (iterator : Option Operand) : Prop where
  last : (c.blockRun (g.offset b)).getLast? = some i
  terminator_eq : (g.block b).terminator = some t
  succs_eq : (g.block b).succs = t.targets.eraseDups
  successors : ∀ o, (∃ a ∈ t.targets, g.offset a = o) ↔ o ∈ i.successors
  finishes : g.Finishes b (c.argsAt (g.offset b)) (c.isLoopBody done (g.offset b))
    (c.blockRun (g.offset b)) t iterator
  /-- The header of a loop gave the body the next element of its iterator. -/
  primes : i.op.effect? = some .forLoop → ∃ v a u, iterator = some v ∧ a ∈ g.live ∧
    g.offset a = i.next ∧ (g.block a).body[0]? = some u ∧
    (g.definition u).expr = some (.call (some (.operator .iterNext)) [v] [])

/-- Whether a block was walked. -/
def Walked (c : Code) (done : List Int) (g : Graph) (b : BlockId) : Prop :=
  ∃ i t iterator, LeftBy c done g b i t iterator

/-- Whether a block was not walked yet.  If it is the body of a loop it has the next element of
the iterator, and otherwise nothing. -/
structure Unwalked (c : Code) (done : List Int) (g : Graph) (b : BlockId) : Prop where
  terminator_eq : (g.block b).terminator = none
  succs_eq : (g.block b).succs = []
  phis_eq : (g.block b).phis = #[]
  used_eq : (g.block b).used = 0
  fresh : c.isLoopBody done (g.offset b) = false →
    (g.block b).body = #[] ∧ (g.block b).stack = []
  primed : c.isLoopBody done (g.offset b) = true →
    ∃ u, (g.block b).body = #[u] ∧ (g.block b).stack = [some u]

theorem LeftBy.targets_live {i : Instruction} {t : Terminator} {iterator : Option Operand}
    (h : LeftBy c done g b i t iterator) (hwf : g.WellFormed) {a : BlockId} (ha : a ∈ t.targets) :
    a ∈ g.live := by
  refine hwf.succs_live b a ?_
  rw [h.succs_eq]
  exact List.mem_eraseDups.2 ha

/-- A block that was walked stays so while other blocks change. -/
theorem Walked.mono (h : Walked c done g b) (hwf : g.WellFormed) (hb : b ∈ g.live)
    (hext : g.Extends g') (hkeeps : Keeps b g g')
    (hloop : c.isLoopBody done' (g.offset b) = c.isLoopBody done (g.offset b)) :
    Walked c done' g' b := by
  obtain ⟨i, t, iterator, h⟩ := h
  obtain ⟨preds, hblock⟩ := hkeeps
  have hoffset {a : BlockId} (ha : a ∈ g.live) := hwf.offset_eq hext ha
  refine ⟨i, t, iterator, ?_, ?_, ?_, ?_, ?_, ?_⟩
  · rw [hoffset hb]
    exact h.last
  · rw [hblock]
    exact h.terminator_eq
  · rw [hblock]
    exact h.succs_eq
  · intro o
    rw [← h.successors]
    refine exists_congr fun a => and_congr_right fun ha => ?_
    rw [hoffset (h.targets_live hwf ha)]
  · rw [hoffset hb, hloop]
    exact h.finishes.of_extends hwf.typed hext (by rw [hblock]) (by rw [hblock]) (by rw [hblock])
      (by rw [hblock])
  · intro hfor
    obtain ⟨v, a, u, hv, ha, hoff, hbody, hexpr⟩ := h.primes hfor
    refine ⟨v, a, u, hv, hext.live_subset a ha, (hoffset ha).trans hoff,
      hext.body_mono a 0 u hbody, ?_⟩
    rw [hext.definition_eq u (hwf.typed.body a 0 u hbody).1, hexpr]

/-- A block to come stays so while other blocks change. -/
theorem Unwalked.mono (h : Unwalked c done g b) (hwf : g.WellFormed) (hb : b ∈ g.live)
    (hext : g.Extends g') (hkeeps : Keeps b g g')
    (hloop : c.isLoopBody done' (g.offset b) = c.isLoopBody done (g.offset b)) :
    Unwalked c done' g' b := by
  obtain ⟨preds, hblock⟩ := hkeeps
  have hoffset := hwf.offset_eq hext hb
  refine ⟨?_, ?_, ?_, ?_, ?_, ?_⟩
  · rw [hblock]
    exact h.terminator_eq
  · rw [hblock]
    exact h.succs_eq
  · rw [hblock]
    exact h.phis_eq
  · rw [hblock]
    exact h.used_eq
  · rw [hblock, hoffset, hloop]
    exact h.fresh
  · rw [hblock, hoffset, hloop]
    exact h.primed

/-- A block without anything in it is one to come. -/
theorem unwalked_of_blank {o : Int} (hblock : g.block b = { offset := o })
    (hloop : c.isLoopBody done o = false) : Unwalked c done g b := by
  refine ⟨?_, ?_, ?_, ?_, fun _ => ?_, fun hyes => ?_⟩
  · rw [hblock]
  · rw [hblock]
  · rw [hblock]
  · rw [hblock]
  · rw [hblock]
    exact ⟨rfl, rfl⟩
  · rw [offset, hblock, hloop] at hyes
    cases hyes

/-- A block to come gets the next element of the iterator when the header of its loop is
finished. -/
theorem Unwalked.emit (h : Unwalked c done g b) (hb : b < g.blocks.size)
    (hfresh : c.isLoopBody done (g.offset b) = false)
    (hloop : c.isLoopBody done' (g.offset b) = true) (line : Int) (e : Expr) :
    Unwalked c done' (g.emit b line e) b := by
  obtain ⟨hbody, hstack⟩ := h.fresh hfresh
  have hblock := block_emit_self hb line e
  rw [hbody, hstack] at hblock
  refine ⟨?_, ?_, ?_, ?_, fun hno => ?_, fun _ => ⟨g.definitions.size, ?_, ?_⟩⟩
  · rw [hblock]
    exact h.terminator_eq
  · rw [hblock]
    exact h.succs_eq
  · rw [hblock]
    exact h.phis_eq
  · rw [hblock]
    exact h.used_eq
  · rw [(g.worksIn_emit b line e).offset_eq, hloop] at hno
    cases hno
  · rw [hblock]
    rfl
  · rw [hblock]

/-- A block that is followed to its end was walked once it is left, whatever is done then in other
blocks. -/
theorem Terminated.walked {g₁ : Graph} {i : Instruction} {t : Terminator}
    {iterator : Option Operand} (h : Terminated b t g g₁) (hwf : g.WellFormed) (hb : b ∈ g.live)
    (hext : g₁.Extends g') (hblock : g'.block b = g₁.block b)
    (hlast : (c.blockRun (g.offset b)).getLast? = some i)
    (htargets : ∀ a ∈ t.targets, a ∈ g.live)
    (hsuccessors : ∀ o, (∃ a ∈ t.targets, g.offset a = o) ↔ o ∈ i.successors)
    (hfinishes : g.Finishes b (c.argsAt (g.offset b)) (c.isLoopBody done (g.offset b))
      (c.blockRun (g.offset b)) t iterator)
    (hloop : c.isLoopBody done' (g.offset b) = c.isLoopBody done (g.offset b))
    (hprimes : i.op.effect? = some .forLoop → ∃ v a u, iterator = some v ∧ a ∈ g'.live ∧
      g'.offset a = i.next ∧ (g'.block a).body[0]? = some u ∧
      (g'.definition u).expr = some (.call (some (.operator .iterNext)) [v] [])) :
    g'.Walked c done' b := by
  obtain ⟨preds, line, hself⟩ := h.self
  have hext' := h.toExtends.trans hext
  have hoffset {a : BlockId} (ha : a ∈ g.live) := hwf.offset_eq hext' ha
  refine ⟨i, t, iterator, ?_, ?_, ?_, ?_, ?_, hprimes⟩
  · rw [hoffset hb]
    exact hlast
  · rw [hblock, hself]
  · rw [hblock, hself]
  · intro o
    rw [← hsuccessors]
    exact exists_congr fun a => and_congr_right fun ha => by rw [hoffset (htargets a ha)]
  · rw [hoffset hb, hloop]
    exact hfinishes.of_extends hwf.typed hext' (by rw [hblock, hself]) (by rw [hblock, hself])
      (by rw [hblock, hself]) (by rw [hblock, hself])

/-- What holds of the graph while blocks are walked: the blocks at the offsets `done` are finished,
and `now` is the block that is being walked, if there is one. -/
structure Divided (c : Code) (done : List Int) (now : Option BlockId) (g : Graph) : Prop where
  wellFormed : g.WellFormed
  starts : ∀ b ∈ g.live, c.Starts (g.offset b)
  label_block : ∀ o ∈ c.labels, ∃ b ∈ g.live, g.offset b = o
  walked : ∀ o ∈ done, ∃ b ∈ g.live, g.offset b = o ∧ g.Walked c done b
  unwalked : ∀ b ∈ g.live, now ≠ some b → g.offset b ∉ done → g.Unwalked c done b
  now_live : ∀ b, now = some b → b ∈ g.live
  now_open : ∀ b, now = some b → (g.block b).terminator = none ∧ (g.block b).succs = []
  now_not_done : ∀ b, now = some b → g.offset b ∉ done

namespace Divided

variable {now : Option BlockId}

/-- The offset of a finished block is not that of the block that is being walked. -/
theorem ne_now (h : Divided c done now g) {o : Int} (ho : o ∈ done) {a : BlockId}
    (ha : g.offset a = o) : now ≠ some a := by
  intro heq
  exact h.now_not_done a heq (ha ▸ ho)

/-- There is a block wherever the body of a loop is. -/
theorem exists_of_isLoopBody (h : Divided c done now g) (hc : c.Sound) {o : Int}
    (ho : c.isLoopBody done o = true) : ∃ a ∈ g.live, g.offset a = o := by
  obtain ⟨p, hp, i, hi, hfor, rfl⟩ := (c.isLoopBody_iff done o).1 ho
  obtain ⟨b, -, rfl, j, t, iterator, hleft⟩ := h.walked p hp
  obtain rfl : i = j := Option.some.inj ((hc.getLast?_of_forLoop hi hfor).symm.trans hleft.last)
  obtain ⟨v, a, u, -, ha, hoff, -⟩ := hleft.primes hfor
  exact ⟨a, ha, hoff⟩

/-- Work in the block that is being walked leaves the others alone. -/
theorem advances (h : Divided c done (some b) g) (hwork : Advances b g g') :
    Divided c done (some b) g' := by
  have hext := hwork.toExtends
  have hoffset := hwork.offset_eq
  have hlive := hwork.live_eq
  have hkeeps : ∀ a, a ≠ b → Keeps a g g' := fun a ha => .of_eq (hwork.others a ha)
  have hlt := (h.wellFormed.mem_live_iff b).1 (h.now_live b rfl)
  refine ⟨h.wellFormed.advances hwork hlt, ?_, ?_, ?_, ?_, ?_, ?_, ?_⟩
  · intro a ha
    rw [hoffset]
    exact h.starts a (hlive ▸ ha)
  · intro o ho
    obtain ⟨a, ha, hoff⟩ := h.label_block o ho
    exact ⟨a, hlive ▸ ha, (hoffset a).trans hoff⟩
  · intro o ho
    obtain ⟨a, ha, hoff, hwalked⟩ := h.walked o ho
    have hne : a ≠ b := fun heq => h.ne_now ho hoff (congrArg some heq.symm)
    exact ⟨a, hlive ▸ ha, (hoffset a).trans hoff,
      hwalked.mono h.wellFormed ha hext (hkeeps a hne) rfl⟩
  · intro a ha hne hnot
    rw [hlive] at ha
    rw [hoffset] at hnot
    exact (h.unwalked a ha hne hnot).mono h.wellFormed ha hext
      (hkeeps a fun heq => hne (congrArg some heq.symm)) rfl
  · intro a ha
    rw [hlive]
    exact h.now_live a ha
  · intro a ha
    rw [hwork.terminator_eq, hwork.succs_eq]
    exact h.now_open a ha
  · intro a ha
    rw [hoffset]
    exact h.now_not_done a ha

/-- A new block is one to come. -/
theorem ensured (h : Divided c done now g) (hc : c.Sound) {o : Int} (ho : c.Starts o)
    (he : Ensured o g g' b) : Divided c done now g' := by
  have hext := he.toExtends
  have hoffset {a : BlockId} (ha : a ∈ g.live) := h.wellFormed.offset_eq hext ha
  refine ⟨he.wellFormed, ?_, ?_, ?_, ?_, ?_, ?_, ?_⟩
  · intro a ha
    rcases he.new a ha with ha | hnew
    · rw [hoffset ha]
      exact h.starts a ha
    · rw [offset, hnew]
      exact ho
  · intro p hp
    obtain ⟨a, ha, hoff⟩ := h.label_block p hp
    exact ⟨a, hext.live_subset a ha, (hoffset ha).trans hoff⟩
  · intro p hp
    obtain ⟨a, ha, hoff, hwalked⟩ := h.walked p hp
    exact ⟨a, hext.live_subset a ha, (hoffset ha).trans hoff,
      hwalked.mono h.wellFormed ha hext (.of_eq (he.old a ha)) rfl⟩
  · intro a ha hne hnot
    by_cases hold : a ∈ g.live
    · rw [hoffset hold] at hnot
      exact (h.unwalked a hold hne hnot).mono h.wellFormed hold hext (.of_eq (he.old a hold)) rfl
    · have hnew := (he.new a ha).resolve_left hold
      have hoff : g'.offset a = o := by rw [offset, hnew]
      refine unwalked_of_blank hnew ?_
      -- there would have been a block already if this one were the body of a loop
      rw [← Bool.not_eq_true]
      intro hloop
      obtain ⟨d, hd, hdoff⟩ := h.exists_of_isLoopBody hc hloop
      have := he.wellFormed.ordered.eq_of_offset_eq ha (hext.live_subset d hd)
        (hoff.trans (hdoff.symm.trans (hoffset hd).symm))
      exact hold (this ▸ hd)
  · exact fun a ha => hext.live_subset a (h.now_live a ha)
  · intro a ha
    rw [he.old a (h.now_live a ha)]
    exact h.now_open a ha
  · intro a ha
    rw [hoffset (h.now_live a ha)]
    exact h.now_not_done a ha

/-- A block to come becomes the one that is being walked. -/
theorem begin (h : Divided c done none g) (hb : b ∈ g.live) (hnot : g.offset b ∉ done) :
    Divided c done (some b) g := by
  have hunwalked := h.unwalked b hb (by simp) hnot
  refine ⟨h.wellFormed, h.starts, h.label_block, h.walked, fun a ha _ => h.unwalked a ha (by simp),
    ?_, ?_, ?_⟩
  · rintro a ⟨⟩
    exact hb
  · rintro a ⟨⟩
    exact ⟨hunwalked.terminator_eq, hunwalked.succs_eq⟩
  · rintro a ⟨⟩
    exact hnot

/-- The block that was being walked becomes a finished one.  The others stay, but for the body of a
loop if the block is its header. -/
theorem finish (h : Divided c done (some b) g) (hc : c.Sound) {i : Instruction}
    (hlast : (c.blockRun (g.offset b)).getLast? = some i) (hwf : g'.WellFormed)
    (hext : g.Extends g') (hlive : g'.live = g.live)
    (hwalked : g'.Walked c (done ++ [g.offset b]) b)
    (hothers : ∀ a ∈ g.live, a ≠ b →
      (g.offset a = i.next ∧ g.offset a ∉ done ∧ g'.Unwalked c (done ++ [g.offset b]) a) ∨
      (¬ (i.op.effect? = some .forLoop ∧ i.next = g.offset a) ∧ Keeps a g g')) :
    Divided c (done ++ [g.offset b]) none g' := by
  have hoffset {a : BlockId} (ha : a ∈ g.live) := h.wellFormed.offset_eq hext ha
  have hb := h.now_live b rfl
  refine ⟨hwf, ?_, ?_, ?_, ?_, by rintro a ⟨⟩, by rintro a ⟨⟩, by rintro a ⟨⟩⟩
  · intro a ha
    rw [hlive] at ha
    rw [hoffset ha]
    exact h.starts a ha
  · intro o ho
    obtain ⟨a, ha, hoff⟩ := h.label_block o ho
    exact ⟨a, hlive ▸ ha, (hoffset ha).trans hoff⟩
  · intro o ho
    rcases List.mem_append.1 ho with ho | ho
    · obtain ⟨a, ha, rfl, hold⟩ := h.walked o ho
      have hne : a ≠ b := fun heq => h.ne_now ho rfl (congrArg some heq.symm)
      refine ⟨a, hlive ▸ ha, hoffset ha, ?_⟩
      rcases hothers a ha hne with ⟨-, hnot, -⟩ | ⟨hno, hkeeps⟩
      · exact absurd ho hnot
      · exact hold.mono h.wellFormed ha hext hkeeps (hc.isLoopBody_concat_eq done hlast hno)
    · rw [List.mem_singleton] at ho
      exact ⟨b, hlive ▸ hb, (hoffset hb).trans ho.symm, hwalked⟩
  · intro a ha _ hnot
    rw [hlive] at ha
    rw [hoffset ha, List.mem_append, List.mem_singleton, not_or] at hnot
    have hne : a ≠ b := fun heq => hnot.2 (heq ▸ rfl)
    rcases hothers a ha hne with ⟨-, -, hbody⟩ | ⟨hno, hkeeps⟩
    · exact hbody
    · exact (h.unwalked a ha (fun heq => hne (Option.some.inj heq).symm) hnot.1).mono h.wellFormed
        ha hext hkeeps (hc.isLoopBody_concat_eq done hlast hno)

/-- The body of a loop is not that of a loop with another header. -/
theorem isLoopBody_next (h : Divided c done (some b) g) (hc : c.Sound) {i : Instruction}
    (hlast : (c.blockRun (g.offset b)).getLast? = some i) : c.isLoopBody done i.next = false := by
  have hmem := List.mem_of_getLast? hlast
  rw [← Bool.not_eq_true, Code.isLoopBody_iff]
  rintro ⟨p, hp, j, hj, -, hnext⟩
  obtain ⟨a, ha, rfl, -⟩ := h.walked p hp
  obtain rfl : j = i := hc.laidOut.eq_of_next_eq (Code.mem_of_mem_runFrom hj)
    (Code.mem_of_mem_runFrom hmem) hnext
  -- two blocks would have the same header at their ends
  have heq := hc.start_eq_of_mem_runFrom (h.starts a ha) (h.starts b (h.now_live b rfl)) hj hmem
  exact h.now_not_done b rfl (heq ▸ hp)

/-- The header of a loop becomes a finished block when the body gets the next element of the
iterator. -/
theorem finishLoop (h : Divided c done (some b) g) (hc : c.Sound) {i : Instruction}
    (hlast : (c.blockRun (g.offset b)).getLast? = some i) (hfor : i.op.effect? = some .forLoop)
    {cond v : Operand} {body exit : BlockId} (hbody : body ∈ g.live)
    (hnext : g.offset body = i.next) (hexit : exit ∈ g.live) (htarget : g.offset exit = i.target)
    (hne : body ≠ b) (hnot : g.offset body ∉ done)
    (hfinishes : g.Finishes b (c.argsAt (g.offset b)) (c.isLoopBody done (g.offset b))
      (c.blockRun (g.offset b)) (.branch cond body exit) (some v))
    {g₁ : Graph} (hterm : Terminated b (.branch cond body exit) g g₁) (line : Int) :
    Divided c (done ++ [g.offset b]) none
      (g₁.emit body line (.call (some (.operator .iterNext)) [v] [])) := by
  have hwf := h.wellFormed
  have hb := h.now_live b rfl
  have hsucc : i.successors = [i.target, i.next] := by
    rw [Instruction.successors, Opcode.flow_eq_of_effect? hfor]
    rfl
  have hlt : body < g₁.blocks.size :=
    (hterm.wellFormed.mem_live_iff body).1 (hterm.live_eq ▸ hbody)
  have hphi : ∀ p, Expr.call (some (.operator .iterNext)) [v] [] ≠ .phi p := by rintro p ⟨⟩
  have hadvances := g₁.advances_emit body line hphi
  have hext := hterm.toExtends.trans hadvances.toExtends
  -- the body had nothing yet, so it has one value now
  have hfresh : c.isLoopBody done (g₁.offset body) = false := by
    rw [hwf.offset_eq hterm.toExtends hbody, hnext]
    exact h.isLoopBody_next hc hlast
  have hunwalked : Unwalked c done g₁ body :=
    (h.unwalked body hbody (fun heq => hne (Option.some.inj heq).symm) hnot).mono hwf hbody
      hterm.toExtends (hterm.others body hne) rfl
  have hvalue : ((g₁.emit body line (.call (some (.operator .iterNext)) [v] [])).block body).body =
      #[g₁.definitions.size] := by
    rw [block_emit_self hlt, (hunwalked.fresh hfresh).1]
    rfl
  refine h.finish hc hlast (hterm.wellFormed.advances hadvances hlt) hext
    (hadvances.live_eq.trans hterm.live_eq) ?_ fun a ha hab => ?_
  · have hnotself : ¬ (i.op.effect? = some .forLoop ∧ i.next = g.offset b) := fun hyes =>
      hne (hwf.ordered.eq_of_offset_eq hbody hb (hnext.trans hyes.2))
    refine hterm.walked hwf hb hadvances.toExtends (hadvances.others b hne.symm) hlast ?_ ?_
      hfinishes (hc.isLoopBody_concat_eq done hlast hnotself) ?_
    · simp [Terminator.targets, hbody, hexit]
    · intro o
      rw [hsucc]
      simp [Terminator.targets, hnext, htarget, eq_comm, or_comm]
    · refine fun _ => ⟨v, body, g₁.definitions.size, rfl, ?_,
        (hwf.offset_eq hext hbody).trans hnext, by rw [hvalue]; rfl,
        by rw [definition_emit, if_pos rfl]⟩
      rw [hadvances.live_eq, hterm.live_eq]
      exact hbody
  · -- of the other blocks only the body has changed
    by_cases habody : a = body
    · subst habody
      refine .inl ⟨hnext, hnot, hunwalked.emit hlt hfresh ?_ line _⟩
      rw [hwf.offset_eq hterm.toExtends hbody, hc.isLoopBody_concat done hlast]
      exact .inr ⟨hfor, hnext.symm⟩
    · refine .inr ⟨fun hyes => ?_, (hterm.others a hab).trans (.of_eq (hadvances.others a habody))⟩
      exact habody (hwf.ordered.eq_of_offset_eq ha hbody (hyes.2.symm.trans hnext.symm))

end Divided

end Graph

/-! ## Progress -/

/-- What holds of the offsets to be walked and of those at which a walk has begun, in the order
`seen`. -/
structure Marks (c : Code) (seen : List Int) (pending processed : BitSet) : Prop where
  pending_base : pending.base = 0
  processed_base : processed.base = 0
  starts : ∀ o, pending.Holds o → c.Starts o
  reaches : ∀ o, pending.Holds o ∨ processed.Holds o → c.Reaches o
  processed_iff : ∀ o, processed.Holds o ↔ o ∈ seen
  nodup : seen.Nodup
  entry : pending.Holds 0 ∨ processed.Holds 0

/-- A walk begins at an offset to be walked. -/
theorem Marks.begin {c : Code} {seen : List Int} {pending processed : BitSet}
    (h : Marks c seen pending processed) {o : Int} (ho : pending.Holds o)
    (hnot : ¬ processed.Holds o) :
    Marks c (seen ++ [o]) (pending.clearBit o.toNat) (processed.setBit o.toNat) := by
  have hclear := BitSet.holds_clearBit (s := pending) ho.1
  have hset := BitSet.holds_setBit (s := processed) ho.1
  refine ⟨h.pending_base, h.processed_base, ?_, ?_, ?_, ?_, ?_⟩
  · exact fun p hp => h.starts p ((hclear p).1 hp).1
  · rintro p (hp | hp)
    · exact h.reaches p (.inl ((hclear p).1 hp).1)
    · rcases (hset p).1 hp with rfl | hp
      · exact h.reaches p (.inl ho)
      · exact h.reaches p (.inr hp)
  · intro p
    rw [hset, h.processed_iff, List.mem_append, List.mem_singleton, or_comm]
  · rw [List.nodup_append]
    refine ⟨h.nodup, by simp, ?_⟩
    rintro p hp q hq rfl
    exact hnot (List.mem_singleton.1 hq ▸ (h.processed_iff p).2 hp)
  · by_cases hzero : (0 : Int) = o
    · exact .inr ((hset 0).2 (.inl hzero))
    · exact h.entry.imp (fun hp => (hclear 0).2 ⟨hp, hzero⟩) fun hp => (hset 0).2 (.inr hp)

/-- What holds while blocks are walked: those at the offsets `done` are finished, and `now` is the
one that is being walked, if there is one. -/
structure Lifter.Progress (c : Code) (done : List Int) (now : Option BlockId) (s : Lifter) :
    Prop where
  code_eq : s.code = c
  divided : s.graph.Divided c done now
  marks : Marks c (done ++ now.toList.map s.graph.offset) s.pending s.processed
  marked : ∀ b, ∀ a ∈ (s.graph.block b).succs,
    s.pending.Holds (s.graph.offset a) ∨ s.processed.Holds (s.graph.offset a)

/-- Whether only what control reaches from the end of the block at an offset was marked between two
states.  If the header of a loop is there, the body was not walked yet. -/
structure Lifter.Discovers (c : Code) (o : Int) (s s' : Lifter) : Prop where
  processed_eq : s'.processed = s.processed
  last_cases : ∃ i, (c.blockRun o).getLast? = some i ∧
    (∀ p, s'.pending.Holds p → s.pending.Holds p ∨ p ∈ i.successors) ∧
    (i.op.effect? = some .forLoop → ¬ s.processed.Holds i.next)

theorem Lifter.Discovers.of_eq {c : Code} {o : Int} {s s₁ s' : Lifter} (h : Discovers c o s₁ s')
    (hpending : s₁.pending = s.pending) (hprocessed : s₁.processed = s.processed) :
    Discovers c o s s' :=
  ⟨h.processed_eq.trans hprocessed, hpending ▸ hprocessed ▸ h.last_cases⟩

/-- Whether the block `b` at an offset, which was being walked in one state, is finished in
another one. -/
structure Lifter.Finished (c : Code) (done : List Int) (b : BlockId) (o : Int) (s s' : Lifter) :
    Prop where
  progress : s'.Progress c (done ++ [o]) none
  within : s.Within s'
  discovers : Discovers c o s s'
  isTerminated : (s'.graph.block b).isTerminated = true

theorem Lifter.Finished.of_aside {c : Code} {done : List Int} {b : BlockId} {o : Int}
    {s s₁ s' : Lifter} (h : Finished c done b o s₁ s') (haside : s.Aside s₁) :
    Finished c done b o s s' :=
  ⟨h.progress, haside.toWithin.trans h.within,
    h.discovers.of_eq haside.pending_eq haside.processed_eq, h.isTerminated⟩

namespace Lifter.Progress

variable {c : Code} {now : Option BlockId} {done : List Int} {s s' : Lifter} {b : BlockId}

/-- Progress depends on the graph and the marks only. -/
theorem of_eq (h : Progress c done now s) (hcode : s'.code = s.code) (hgraph : s'.graph = s.graph)
    (hpending : s'.pending = s.pending) (hprocessed : s'.processed = s.processed) :
    Progress c done now s' := by
  refine ⟨hcode.trans h.code_eq, hgraph ▸ h.divided, ?_, ?_⟩
  · rw [hgraph, hpending, hprocessed]
    exact h.marks
  · rw [hgraph, hpending, hprocessed]
    exact h.marked

/-- Work in the block that is being walked is progress. -/
theorem advances (h : Progress c done (some b) s) (haside : s.Aside s')
    (hwork : Graph.Advances b s.graph s'.graph) : Progress c done (some b) s' := by
  refine ⟨haside.code_eq.trans h.code_eq, h.divided.advances hwork, ?_, ?_⟩
  · rw [haside.pending_eq, haside.processed_eq, funext hwork.offset_eq]
    exact h.marks
  · intro a d hd
    rw [hwork.succs_eq] at hd
    rw [haside.pending_eq, haside.processed_eq, hwork.offset_eq]
    exact h.marked a d hd

/-- Asking for a block is progress. -/
theorem ensure (h : Progress c done now s) (hc : c.Sound) {o : Int} (ho : c.Starts o)
    (hok : Lift.ensure o s = .ok b s') :
    Progress c done now s' ∧ s.Aside s' ∧ Graph.Ensured o s.graph s'.graph b := by
  obtain ⟨haside, hgraph, rfl⟩ := Lift.ensure_ok hok
  have hensured : Graph.Ensured o s.graph s'.graph (s.graph.ensure o).1 :=
    hgraph ▸ h.divided.wellFormed.ensure o
  have hoffset {a : BlockId} (ha : a ∈ s.graph.live) :=
    h.divided.wellFormed.offset_eq hensured.toExtends ha
  refine ⟨⟨haside.code_eq.trans h.code_eq, h.divided.ensured hc ho hensured, ?_, ?_⟩, haside,
    hensured⟩
  · have hnow : now.toList.map s'.graph.offset = now.toList.map s.graph.offset := by
      cases now with
      | none => rfl
      | some a => simp [hoffset (h.divided.now_live a rfl)]
    rw [haside.pending_eq, haside.processed_eq, hnow]
    exact h.marks
  · intro a d hd
    have hold := hensured.mem_succs hd
    rw [haside.pending_eq, haside.processed_eq, hoffset (h.divided.wellFormed.succs_live a d hold)]
    exact h.marked a d hold

/-- An offset at which a walk has begun need not be marked. -/
theorem drop (h : Progress c done now s) {o : Int} (ho : s.processed.Holds o) :
    Progress c done now { s with pending := s.pending.clearBit o.toNat } := by
  have hclear := BitSet.holds_clearBit (s := s.pending) ho.1
  have hsplit : ∀ {p}, s.pending.Holds p ∨ s.processed.Holds p →
      (s.pending.clearBit o.toNat).Holds p ∨ s.processed.Holds p := by
    intro p hp
    by_cases heq : p = o
    · exact .inr (heq ▸ ho)
    · exact hp.imp_left fun hp => (hclear p).2 ⟨hp, heq⟩
  refine ⟨h.code_eq, h.divided, ⟨h.marks.pending_base, h.marks.processed_base, ?_, ?_,
    h.marks.processed_iff, h.marks.nodup, hsplit h.marks.entry⟩,
    fun b a ha => hsplit (h.marked b a ha)⟩
  · exact fun p hp => h.marks.starts p ((hclear p).1 hp).1
  · exact fun p hp => h.marks.reaches p (hp.imp_left fun hp => ((hclear p).1 hp).1)

/-- The walk of a block to come begins. -/
theorem begin (h : Progress c done none s) (hc : c.Sound) {o : Int} (ho : s.pending.Holds o)
    (hnot : ¬ s.processed.Holds o)
    (hok : Lift.ensure o { s with
      pending := s.pending.clearBit o.toNat
      processed := s.processed.setBit o.toNat } = .ok b s') :
    Progress c done (some b) s' ∧ s'.options = s.options ∧ s'.steps = s.steps ∧
      s'.graph.offset b = o ∧ s'.graph.Unwalked c done b := by
  obtain ⟨haside, hgraph, rfl⟩ := Lift.ensure_ok hok
  have hensured : Graph.Ensured o s.graph s'.graph (s.graph.ensure o).1 :=
    hgraph ▸ h.divided.wellFormed.ensure o
  have hmarks : Marks c done s.pending s.processed := by simpa using h.marks
  have hdivided := h.divided.ensured hc (hmarks.starts o ho) hensured
  have hnotdone : s'.graph.offset (s.graph.ensure o).1 ∉ done := by
    rw [hensured.offset_eq]
    exact fun hyes => hnot ((hmarks.processed_iff o).2 hyes)
  refine ⟨⟨haside.code_eq.trans h.code_eq, hdivided.begin hensured.mem_live hnotdone, ?_, ?_⟩,
    haside.options_eq, haside.steps_eq, hensured.offset_eq,
    hdivided.unwalked _ hensured.mem_live (by simp) hnotdone⟩
  · rw [haside.pending_eq, haside.processed_eq]
    simpa [hensured.offset_eq] using hmarks.begin ho hnot
  · intro d a ha
    rw [haside.pending_eq, haside.processed_eq, BitSet.holds_clearBit ho.1,
      BitSet.holds_setBit ho.1]
    by_cases heq : s'.graph.offset a = o
    · exact .inr (.inl heq)
    · have hold := hensured.mem_succs ha
      rw [h.divided.wellFormed.offset_eq hensured.toExtends
        (h.divided.wellFormed.succs_live d a hold)] at heq ⊢
      exact (h.marked d a hold).imp (fun hp => ⟨hp, heq⟩) .inr

/-- Marking blocks that control reaches is progress. -/
theorem schedules (h : Progress c done now s) (hc : c.Sound) {bs : List BlockId}
    (hbs : ∀ a ∈ bs, a ∈ s.graph.live ∧ c.Reaches (s.graph.offset a))
    (hok : Lift.Schedules bs s s') :
    Progress c done now s' ∧ s' = { s with pending := s'.pending } ∧
      ∀ o, s'.pending.Holds o ↔ s.pending.Holds o ∨ ∃ a ∈ bs, s.graph.offset a = o := by
  induction hok with
  | nil s => exact ⟨h, rfl, by simp⟩
  | @cons a bs s s₁ s' hsched _ ih =>
    obtain ⟨ha, hreach⟩ := hbs a List.mem_cons_self
    have hstart := h.divided.starts a ha
    have hrange := hc.inRange_of_starts hstart
    obtain ⟨pending, hinsert, rfl⟩ := Lift.schedule_ok hsched
    rw [BitSet.insert_of_inRange h.marks.pending_base hrange] at hinsert
    cases hinsert
    have hholds := BitSet.holds_setBit (s := s.pending) hrange.1
    have h₁ : Progress c done now
        { s with pending := s.pending.setBit (s.graph.offset a).toNat } := by
      refine ⟨h.code_eq, h.divided, ⟨h.marks.pending_base, h.marks.processed_base, ?_, ?_,
        h.marks.processed_iff, h.marks.nodup, ?_⟩, ?_⟩
      · intro o ho
        rcases (hholds o).1 ho with rfl | ho
        · exact hstart
        · exact h.marks.starts o ho
      · rintro o (ho | ho)
        · rcases (hholds o).1 ho with rfl | ho
          · exact hreach
          · exact h.marks.reaches o (.inl ho)
        · exact h.marks.reaches o (.inr ho)
      · exact h.marks.entry.imp_left fun ho => (hholds 0).2 (.inr ho)
      · intro d e he
        exact (h.marked d e he).imp_left fun ho => (hholds _).2 (.inr ho)
    obtain ⟨h', heq, hiff⟩ := ih h₁ fun d hd => hbs d (List.mem_cons_of_mem _ hd)
    refine ⟨h', heq, fun o => ?_⟩
    rw [hiff, hholds, List.exists_mem_cons_iff, eq_comm, or_assoc, or_left_comm]

/-- Leaving the block that is being walked marks its targets and connects them. -/
theorem leaves (h : Progress c done (some b) s) (hc : c.Sound) (hcurrent : s.current = b)
    {t : Terminator}
    (ht : ∀ a ∈ t.targets, a ∈ s.graph.live ∧ c.Reaches (s.graph.offset a))
    (hok : Lift.Leaves t s s') :
    Graph.Terminated b t s.graph s'.graph ∧ s.Within s' ∧ s'.processed = s.processed ∧
      (∀ o, s'.pending.Holds o → s.pending.Holds o ∨ ∃ a ∈ t.targets, s.graph.offset a = o) ∧
      Marks c (done ++ [s.graph.offset b]) s'.pending s'.processed ∧
      ∀ d, ∀ a ∈ (s'.graph.block d).succs,
        s'.pending.Holds (s.graph.offset a) ∨ s'.processed.Holds (s.graph.offset a) := by
  obtain ⟨s₁, hsched, hterm⟩ := hok
  obtain ⟨h₁, heq, hiff⟩ := h.schedules hc ht hsched
  obtain ⟨graph, hgraph, rfl⟩ := Lift.terminate_ok hterm
  have hgraph₁ : s₁.graph = s.graph := by rw [heq]
  have hcurrent₁ : s₁.current = b := by rw [heq]; exact hcurrent
  rw [hgraph₁, hcurrent₁] at hgraph
  have hterminated := h.divided.wellFormed.terminate (h.divided.now_live b rfl)
    (h.divided.now_open b rfl).2 (fun a ha => (ht a ha).1) hgraph
  refine ⟨hterminated, by rw [heq]; exact ⟨rfl, rfl, rfl, rfl⟩, by rw [heq],
    fun o => (hiff o).1, ?_, ?_⟩
  · have := h₁.marks
    rwa [hgraph₁] at this
  · intro d a ha
    by_cases hd : d = b
    · -- the edges of the block itself lead to what was just marked
      subst hd
      obtain ⟨preds, line, hself⟩ := hterminated.self
      rw [hself, List.mem_eraseDups] at ha
      exact .inl ((hiff _).2 (.inr ⟨a, ha, rfl⟩))
    · obtain ⟨preds, hother⟩ := hterminated.others d hd
      rw [hother] at ha
      have := h₁.marked d a (by rw [hgraph₁]; exact ha)
      rwa [hgraph₁] at this

/-- Control reaches the block that is being walked. -/
theorem reaches_now (h : Progress c done (some b) s) : c.Reaches (s.graph.offset b) :=
  h.marks.reaches _ (.inr ((h.marks.processed_iff _).2 (by simp)))

/-- Control reaches the successors of the last instruction of the block that is being walked. -/
theorem reaches_successor (h : Progress c done (some b) s) (hc : c.Sound) {i : Instruction}
    (hlast : (c.blockRun (s.graph.offset b)).getLast? = some i) {o : Int}
    (ho : o ∈ i.successors) : c.Reaches o := by
  have hmem := List.mem_of_getLast? hlast
  exact .step (hc.reaches_of_mem_runFrom h.reaches_now hmem)
    (hc.at?_offset (Code.mem_of_mem_runFrom hmem)) ho

/-- The block that was being walked is finished when the graph tells so and its targets are
marked. -/
theorem finished (h : Progress c done (some b) s)
    (hdivided : s'.graph.Divided c (done ++ [s.graph.offset b]) none)
    (hext : s.graph.Extends s'.graph) (hlive : s'.graph.live = s.graph.live)
    (hwithin : s.Within s') (hdiscovers : Discovers c (s.graph.offset b) s s')
    (hmarks : Marks c (done ++ [s.graph.offset b]) s'.pending s'.processed)
    (hmarked : ∀ d, ∀ a ∈ (s'.graph.block d).succs,
      s'.pending.Holds (s.graph.offset a) ∨ s'.processed.Holds (s.graph.offset a))
    (hterm : (s'.graph.block b).terminator.isSome = true) :
    Finished c done b (s.graph.offset b) s s' := by
  refine ⟨⟨hwithin.code_eq.trans h.code_eq, hdivided, by simpa using hmarks, ?_⟩, hwithin,
    hdiscovers, hterm⟩
  intro d a ha
  rw [h.divided.wellFormed.offset_eq hext (hlive ▸ hdivided.wellFormed.succs_live d a ha)]
  exact hmarked d a ha

/-- A block that ends with another instruction than the header of a loop is finished when it is
left. -/
theorem finish (h : Progress c done (some b) s) (hc : c.Sound) (hcurrent : s.current = b)
    {i : Instruction} (hlast : (c.blockRun (s.graph.offset b)).getLast? = some i)
    (hfor : i.op.effect? ≠ some .forLoop) {t : Terminator}
    (htargets : ∀ a ∈ t.targets, a ∈ s.graph.live)
    (hsuccessors : ∀ o, (∃ a ∈ t.targets, s.graph.offset a = o) ↔ o ∈ i.successors)
    (hfinishes : s.graph.Finishes b (c.argsAt (s.graph.offset b))
      (c.isLoopBody done (s.graph.offset b)) (c.blockRun (s.graph.offset b)) t none)
    (hok : Lift.Leaves t s s') :
    Finished c done b (s.graph.offset b) s s' := by
  have hreaches : ∀ a ∈ t.targets, a ∈ s.graph.live ∧ c.Reaches (s.graph.offset a) :=
    fun a ha => ⟨htargets a ha, h.reaches_successor hc hlast ((hsuccessors _).1 ⟨a, ha, rfl⟩)⟩
  obtain ⟨hterm, hwithin, hprocessed, hpending, hmarks, hmarked⟩ :=
    h.leaves hc hcurrent hreaches hok
  have hext := hterm.toExtends
  have hwalked : s'.graph.Walked c (done ++ [s.graph.offset b]) b :=
    hterm.walked h.divided.wellFormed (h.divided.now_live b rfl) (.refl _) rfl hlast htargets
      hsuccessors hfinishes (hc.isLoopBody_concat_eq done hlast fun hyes => hfor hyes.1)
      fun hyes => absurd hyes hfor
  have hdivided := h.divided.finish hc hlast hterm.wellFormed hext hterm.live_eq hwalked
    fun a _ hne => .inr ⟨fun hyes => hfor hyes.1, hterm.others a hne⟩
  refine h.finished hdivided hext hterm.live_eq hwithin
    ⟨hprocessed, i, hlast, fun o ho => ?_, fun hyes => absurd hyes hfor⟩ hmarks hmarked ?_
  · exact (hpending o ho).imp_right (hsuccessors o).1
  · obtain ⟨preds, line, hself⟩ := hterm.self
    rw [hself]
    rfl

/-- A block that ends with the header of a loop is finished when it is left and the body has the
next element of the iterator. -/
theorem finishLoop (h : Progress c done (some b) s) (hc : c.Sound) (hcurrent : s.current = b)
    {i : Instruction} (hlast : (c.blockRun (s.graph.offset b)).getLast? = some i)
    (hfor : i.op.effect? = some .forLoop) {cond v : Operand} {body exit : BlockId}
    (hbody : body ∈ s.graph.live) (hnext : s.graph.offset body = i.next)
    (hexit : exit ∈ s.graph.live) (htarget : s.graph.offset exit = i.target)
    (hnew : ¬ s.processed.Holds (s.graph.offset body))
    (hfinishes : s.graph.Finishes b (c.argsAt (s.graph.offset b))
      (c.isLoopBody done (s.graph.offset b)) (c.blockRun (s.graph.offset b))
      (.branch cond body exit) (some v))
    {s₁ : Lifter} (hok : Lift.Leaves (.branch cond body exit) s s₁)
    (hpush : Lift.pushIn body (.call (some (.operator .iterNext)) [v] []) s₁ = .ok () s') :
    Finished c done b (s.graph.offset b) s s' := by
  have hsucc : i.successors = [i.target, i.next] := by
    rw [Instruction.successors, Opcode.flow_eq_of_effect? hfor]
    rfl
  have hreaches : ∀ a ∈ (Terminator.branch cond body exit).targets,
      a ∈ s.graph.live ∧ c.Reaches (s.graph.offset a) := by
    intro a ha
    rcases List.mem_cons.1 ha with rfl | ha
    · exact ⟨hbody, h.reaches_successor hc hlast (by rw [hsucc, hnext]; simp)⟩
    · obtain rfl := List.mem_singleton.1 ha
      exact ⟨hexit, h.reaches_successor hc hlast (by rw [hsucc, htarget]; simp)⟩
  obtain ⟨hterm, hwithin, hprocessed, hpending, hmarks, hmarked⟩ :=
    h.leaves hc hcurrent hreaches hok
  obtain ⟨haside, hgraph⟩ := Lift.pushIn_ok hpush
  have hne : body ≠ b := fun heq => hnew (heq ▸ (h.marks.processed_iff _).2 (by simp))
  have hnot : s.graph.offset body ∉ done := fun hyes =>
    hnew ((h.marks.processed_iff _).2 (List.mem_append_left _ hyes))
  have hdivided := h.divided.finishLoop hc hlast hfor hbody hnext hexit htarget hne hnot hfinishes
    hterm s₁.line
  have hwork := s₁.graph.worksIn_emit body s₁.line (.call (some (.operator .iterNext)) [v] [])
  rw [← hgraph] at hdivided hwork
  refine h.finished hdivided (hterm.toExtends.trans hwork.toExtends)
    (hwork.live_eq.trans hterm.live_eq) (hwithin.trans haside.toWithin)
    ⟨haside.processed_eq.trans hprocessed, i, hlast, fun o ho => ?_, fun _ => hnext ▸ hnew⟩ ?_ ?_ ?_
  · rw [haside.pending_eq] at ho
    refine (hpending o ho).imp_right ?_
    rintro ⟨a, ha, rfl⟩
    rw [hsucc]
    rcases List.mem_cons.1 ha with rfl | ha
    · simp [hnext]
    · simp [List.mem_singleton.1 ha, htarget]
  · rw [haside.pending_eq, haside.processed_eq]
    exact hmarks
  · intro d a ha
    rw [hwork.succs_eq] at ha
    rw [haside.pending_eq, haside.processed_eq]
    exact hmarked d a ha
  · obtain ⟨preds, line, hself⟩ := hterm.self
    rw [hwork.terminator_eq, hself]
    rfl

end Lifter.Progress

end StackLift
