/-
# Blocks have one stack among them

Each block has a stack of its own, and phis for what it takes from below.  Along a path they do what
a machine does that has one stack for all blocks: an operand that stands in a block is, through the
phis, what the machine found there.

* `Lifter.run` : the machine on a path;
* `Graph.resolve` : what a value stands for on a path;
* `Lifter.agrees_of_run` : both agree at every visit of a block.
-/
import StackLift.Proofs.Passes

namespace StackLift

/-! ## The machine on a path -/

/-- Where the machine is after a path, the last block first.  It begins with an empty stack, and
stops where it finds too little on it. -/
def Lifter.run (s : Lifter) : List BlockId → Option Flat
  | [] => some { visit := 0, stack := [] }
  | b :: rest => (s.run rest).bind fun f =>
    Flat.runBlock (s.code.argsAt (s.graph.offset b)) (s.entersLoop b) (s.stepsIn b)
      { visit := rest.length, stack := f.stack }

/-- The token that a value stands for at the end of a path.  A phi stands for what flows into it
from the block before, and a value of the block for one of the last visit.  A value of another block
stands for what it stood for before. -/
def Graph.resolve (g : Graph) : List BlockId → ValueId → Option Token
  | [], _ => none
  | b :: rest, v =>
    if v ∈ (g.block b).phis then do
      let p ← (g.definition v).phi?
      let u ← (← incoming? p (← rest.head?))
      g.resolve rest u
    else
      match (g.block b).body.toList.idxOf? v with
      | some k => some ⟨rest.length, k⟩
      | none => g.resolve rest v

/-- Whether an operand stands for a token at the end of a path. -/
def Graph.Resolves (g : Graph) (path : List BlockId) (v : Operand) (t : Token) : Prop :=
  v.bind (g.resolve path) = some t

/-- Whether the last block of a path is the header of the loop that has a block as its body. -/
def Lifter.ComesFromHeader (s : Lifter) (b : BlockId) (rest : List BlockId) : Prop :=
  ∃ a ∈ rest.head?, ∃ i ∈ s.stepsIn a, i.op.effect? = some .forLoop ∧ i.next = s.graph.offset b

/-- Whether the operands that stand in a block are those that the machine had at a visit of it. -/
structure Lifter.Agrees (s : Lifter) (b : BlockId) (rest : List BlockId) (f : Flat) : Prop where
  count : f.made.length = (s.graph.block b).body.size
  /-- For the next element of an iterator that is so if the header was visited before. -/
  made : ∀ (k : Nat) v uses, (s.graph.block b).body[k]? = some v → f.made[k]? = some uses →
    (k = 0 → s.entersLoop b = true → s.ComesFromHeader b rest) →
    ∃ e, (s.graph.definition v).expr = some e ∧
      List.Forall₂ (s.graph.Resolves (b :: rest)) e.operands uses
  next : s.entersLoop b = true → ∃ v x, (s.graph.block b).body[0]? = some v ∧
    (s.graph.definition v).expr = some (.call (some (.operator .iterNext)) [x] [])
  left : ∃ t, (s.graph.block b).terminator = some t ∧
    (t = .retVoid ∨ List.Forall₂ (s.graph.Resolves (b :: rest)) t.operands f.left)

/-! ## Resolving -/

namespace Graph

variable {g : Graph} {b : BlockId} {rest : List BlockId} {v : ValueId}

/-- A value of the last block stands for one of the last visit. -/
theorem Typed.resolve_body (h : g.Typed) {k : Nat} (hv : (g.block b).body[k]? = some v) :
    g.resolve (b :: rest) v = some ⟨rest.length, k⟩ := by
  obtain ⟨-, -, hnone⟩ := h.body b k v hv
  have hnot : v ∉ (g.block b).phis := by
    intro hmem
    obtain ⟨j, hj⟩ := Array.mem_iff_getElem?.1 hmem
    obtain ⟨-, -, p, hp, -⟩ := h.phi b j v hj
    rw [hnone] at hp
    cases hp
  have hidx : (g.block b).body.toList.idxOf? v = some k := by
    obtain ⟨hk, rfl⟩ := List.getElem?_eq_some_iff.1 (Array.getElem?_toList.trans hv)
    refine List.idxOf?_eq_some_iff.2 ⟨hk, rfl, fun j hj => Nat.ne_of_lt ?_⟩
    exact List.pairwise_iff_getElem.1 (h.ascending b) j k (Nat.lt_trans hj hk) hk hj
  rw [resolve, if_neg hnot, hidx]

/-- A phi of the last block stands for what flows into it. -/
theorem resolve_phi {k : Nat} {p : Phi} {a : BlockId} {u : ValueId}
    (hv : (g.block b).phis[k]? = some v) (hp : (g.definition v).phi? = some p)
    (hu : incoming? p a = some (some u)) :
    g.resolve (b :: a :: rest) v = g.resolve (a :: rest) u := by
  rw [resolve, if_pos (Array.mem_of_getElem? hv), hp]
  simp only [List.head?_cons, Option.bind_eq_bind, Option.bind_some, hu]

/-- A value that is not of the last block stands for what it stood for before. -/
theorem Typed.resolve_of_ne (h : g.Typed) (hne : (g.definition v).block ≠ b) :
    g.resolve (b :: rest) v = g.resolve rest v := by
  have hphis : v ∉ (g.block b).phis := by
    intro hmem
    obtain ⟨j, hj⟩ := Array.mem_iff_getElem?.1 hmem
    exact hne (h.phi b j v hj).2.1
  have hbody : (g.block b).body.toList.idxOf? v = none := by
    rw [List.idxOf?_eq_none_iff]
    intro hmem
    obtain ⟨j, hj⟩ := List.mem_iff_getElem?.1 hmem
    exact hne (h.body b j v (by simpa using hj)).2.1
  rw [resolve, if_neg hphis, hbody]

end Graph

/-! ## Visits -/

/-- What the machine makes at a visit is never lost. -/
theorem Flat.prefix_made_of_step {f f' : Flat} {i : Instruction} (h : f.step i = some f') :
    f.made <+: f'.made := by
  cases moves_of_step h with
  | stay | leave _ _ => exact List.prefix_rfl
  | make _ _ _ | header _ _ => exact List.prefix_append _ _

theorem Flat.prefix_made_of_foldlM {f f' : Flat} {run : List Instruction}
    (h : run.foldlM Flat.step f = some f') : f.made <+: f'.made := by
  induction run generalizing f with
  | nil =>
    cases h
    exact List.prefix_rfl
  | cons i run ih =>
    rw [List.foldlM_cons] at h
    obtain ⟨f₁, hstep, hrun⟩ := Option.bind_eq_some_iff.1 h
    exact (prefix_made_of_step hstep).trans (ih hrun)

namespace Lifter

/-- The machine gets along the beginning of a path if it gets along the whole of it. -/
theorem run_of_suffix {s : Lifter} {path path' : List BlockId} {f : Flat} (h : path' <:+ path)
    (hrun : s.run path = some f) : ∃ f', s.run path' = some f' := by
  induction path generalizing f with
  | nil =>
    obtain rfl := List.suffix_nil.1 h
    exact ⟨f, hrun⟩
  | cons b rest ih =>
    rcases List.suffix_cons_iff.1 h with rfl | h
    · exact ⟨f, hrun⟩
    · obtain ⟨f₁, hrest, -⟩ := Option.bind_eq_some_iff.1 hrun
      exact ih h hrest

end Lifter

/-- The beginning of a path is a path. -/
theorem Graph.Trail.of_suffix {g : Graph} {e b : BlockId} {rest path : List BlockId}
    (h : g.Trail e path) (hsuffix : b :: rest <:+ path) : g.Trail e (b :: rest) := by
  induction h with
  | entry =>
    rcases List.suffix_cons_iff.1 hsuffix with heq | hnil
    · cases heq
      exact .entry
    · cases List.suffix_nil.1 hnil
  | step h ha ih =>
    rcases List.suffix_cons_iff.1 hsuffix with heq | hsuffix
    · cases heq
      exact .step h ha
    · exact ih hsuffix

namespace Lifter.Surveyed

variable {c : Code} {done : List Int} {g : Graph} {s : Lifter} {e b : BlockId}
  {rest : List BlockId}

/-- A path leads along blocks that were walked. -/
theorem walked_of_trail (h : Surveyed c done g s) (he : e ∈ g.live) (hzero : g.offset e = 0)
    (htrail : g.Trail e (b :: rest)) : b ∈ g.live ∧ g.offset b ∈ done := by
  cases htrail with
  | entry => exact ⟨he, hzero ▸ h.traversed.entry_done⟩
  | @step a _ _ _ ha =>
    exact ⟨h.traversed.divided.wellFormed.succs_live a b ha, h.traversed.succs_done a b ha⟩

/-- What the machine does at a visit of a block that was walked. -/
theorem run_cons (h : Surveyed c done g s) (ho : g.offset b ∈ done) {f : Flat}
    (hrest : s.run rest = some f) :
    s.run (b :: rest) = Flat.runBlock (c.argsAt (g.offset b)) (c.isLoopBody done (g.offset b))
      (c.blockRun (g.offset b)) { visit := rest.length, stack := f.stack } := by
  rw [Lifter.run, hrest, Option.bind_some, h.code_eq, h.offset_eq, h.entersLoop_eq,
    h.stepsIn_eq ho]

/-- Whether the phis of the last block stand for what is in the entry slots. -/
def Fills (g : Graph) (b : BlockId) (rest : List BlockId) (entry : List Token) : Prop :=
  ∀ (k : Nat) v t, (g.block b).phis[k]? = some v → entry[k]? = some t →
    g.resolve (b :: rest) v = some t

/-- An operand that stands for a token in a block does so on the path. -/
theorem resolves_of_denotes (h : Surveyed c done g s) {entry : List Token}
    (hfills : Fills s.graph b rest entry) {v : Operand} {t : Token}
    (hv : (g.block b).Denotes rest.length entry v t) : s.graph.Resolves (b :: rest) v t := by
  obtain ⟨u, rfl, ⟨k, hk, rfl⟩ | ⟨k, hk, ht⟩⟩ := hv
  · exact h.feeding.typed.resolve_body (h.body_eq b ▸ hk)
  · exact hfills k u t (h.phis_mono hk) ht

/-- What a block is left with is on the machine's stack. -/
theorem resolves_of_exit? (h : Surveyed c done g s) {entry : List Token} {looped : Bool} {f : Flat}
    (hfills : Fills s.graph b rest entry) (hmirrors : g.Mirrors b looped rest.length entry f)
    {k : Nat} {x : Operand} {t : Token} (hx : s.graph.exit? b k = some x)
    (ht : f.stack[k]? = some t) : s.graph.Resolves (b :: rest) x t := by
  obtain ⟨phis, hblock⟩ := h.block_eq b
  obtain ⟨top, hstack, hall⟩ := hmirrors.stack
  have hlen := hall.length_eq
  simp only [Graph.exit?, hblock] at hx
  split at hx
  · -- the slot is on the stack of the block, and otherwise in the block's own entry slots
    rename_i hlt
    rw [hstack, List.getElem?_append_left (hlen ▸ hlt)] at ht
    obtain ⟨hkx, rfl⟩ := List.getElem?_eq_some_iff.1 hx
    obtain ⟨hkt, rfl⟩ := List.getElem?_eq_some_iff.1 ht
    exact h.resolves_of_denotes hfills (hall.get hkx hkt)
  · rename_i hge
    obtain ⟨v, hv, rfl⟩ := Option.map_eq_some_iff.1 hx
    rw [hstack, List.getElem?_append_right (by omega), List.getElem?_drop] at ht
    refine hfills _ v t (by rw [hblock]; exact hv) ?_
    rw [← ht]
    congr 1
    omega

/-- Where the machine is at the end of a path, and what it had at the beginning of the last
visit. -/
theorem visit_of_run (h : Surveyed c done g s) (hb : b ∈ g.live) (ho : g.offset b ∈ done) {f : Flat}
    (hrun : s.run (b :: rest) = some f) :
    ∃ f₀ i t iterator, s.run rest = some f₀ ∧ g.LeftBy c done b i t iterator ∧
      g.Mirrors b (c.isLoopBody done (g.offset b)) rest.length f₀.stack f ∧
      (t = .retVoid ∨
        List.Forall₂ ((g.block b).Denotes rest.length f₀.stack) t.operands f.left) ∧
      ∀ v, iterator = some v → ∃ top below, f.stack = top :: below ∧
        (g.block b).Denotes rest.length f₀.stack v top := by
  obtain ⟨f₀, hrest, -⟩ := Option.bind_eq_some_iff.1 hrun
  obtain ⟨i, t, iterator, hleft⟩ := h.traversed.walked hb ho
  rw [h.run_cons ho hrest] at hrun
  obtain ⟨hsome, hnone⟩ := hleft.finishes rest.length f₀.stack
  have henough : (g.block b).phis.size ≤ f₀.stack.length := by
    refine Nat.le_of_not_lt fun hlt => ?_
    rw [hnone hlt] at hrun
    cases hrun
  obtain ⟨f', hf', hmirrors, hops, hiterator⟩ := hsome henough
  obtain rfl : f' = f := Option.some.inj (hf'.symm.trans hrun)
  exact ⟨f₀, i, t, iterator, hrest, hleft, hmirrors, hops, hiterator⟩

end Lifter.Surveyed

namespace Lifter.Lifted

open Surveyed

variable {c : Code} {done : List Int} {g : Graph} {s : Lifter} {e b : BlockId}
  {rest : List BlockId}

/-- Into the phis of a block that was walked flows what the block before is left with. -/
theorem exists_incoming (h : Lifted c done g s) (hc : c.Sound) {a : BlockId}
    (ha : b ∈ (g.block a).succs) {k : Nat} {v : ValueId}
    (hv : (s.graph.block b).phis[k]? = some v) :
    ∃ p x, (s.graph.definition v).phi? = some p ∧ Graph.incoming? p a = some x ∧
      s.graph.exit? a k = some x := by
  have hwf := h.traversed.divided.wellFormed
  have hlive : b ∈ s.graph.live :=
    (h.mem_live_iff hc b).2 ⟨hwf.succs_live a b ha, .inr (h.traversed.succs_done a b ha)⟩
  have hpred : a ∈ (s.graph.block b).preds := by
    obtain ⟨phis, hblock⟩ := h.block_eq b
    rw [hblock]
    exact (hwf.edge_iff a b).1 ha
  obtain ⟨-, p, hp, hincoming⟩ := h.feeding.incoming h.verified hlive hv
  obtain ⟨x, hx, hexit⟩ := hincoming a hpred
  exact ⟨p, x, hp, hx, hexit⟩

/-- Along a path, phis stand for what the machine has on its stack when it enters a block. -/
theorem fills_of_trail (h : Lifted c done g s) (hc : c.Sound) (he : e ∈ g.live)
    (hzero : g.offset e = 0) {path : List BlockId} (htrail : g.Trail e path) {f : Flat}
    (hpath : path = b :: rest) (hrest : s.run rest = some f) :
    Fills s.graph b rest f.stack := by
  induction htrail generalizing b rest f with
  | entry =>
    cases hpath
    cases hrest
    intro k v t _ ht
    cases ht
  | @step a b' rest' htrail ha ih =>
    cases hpath
    obtain ⟨ha', hao⟩ := h.walked_of_trail he hzero htrail
    obtain ⟨f₀, i, t, iterator, hrest', -, hmirrors, -, -⟩ := h.visit_of_run ha' hao hrest
    intro k v t hv ht
    -- the phi takes the slot in which the block before is left with the same token
    obtain ⟨p, x, hp, hx, hexit⟩ := h.exists_incoming hc ha hv
    have hresolves := h.resolves_of_exit? (ih rfl hrest') hmirrors hexit ht
    obtain ⟨u, rfl, hu⟩ := Option.bind_eq_some_iff.1 hresolves
    rw [Graph.resolve_phi hv hp hx, hu]

/-! ## Loops -/

/-- The header of a loop is at the end of its block, and gave the body its first value. -/
theorem body_of_header (h : Lifted c done g s) (hc : c.Sound) {i j : Instruction} {t : Terminator}
    {iterator : Option Operand} {a : BlockId} (hleft : g.LeftBy c done a j t iterator)
    (hi : i ∈ c.blockRun (g.offset a)) (hfor : i.op.effect? = some .forLoop) (hb : b ∈ g.live)
    (hnext : i.next = g.offset b) :
    ∃ v u, iterator = some v ∧ (s.graph.block b).body[0]? = some u ∧
      (s.graph.definition u).expr = some (.call (some (.operator .iterNext)) [v] []) := by
  have hwf := h.traversed.divided.wellFormed
  obtain rfl : i = j := Option.some.inj ((hc.getLast?_of_forLoop hi hfor).symm.trans hleft.last)
  obtain ⟨v, d, u, hv, hd, hoff, hbody, hexpr⟩ := hleft.primes hfor
  obtain rfl := hwf.ordered.eq_of_offset_eq hd hb (hoff.trans hnext)
  obtain ⟨hlt, -, hphi⟩ := hwf.typed.body d 0 u hbody
  refine ⟨v, u, hv, by rwa [h.body_eq], ?_⟩
  rw [h.definition_eq hlt hphi, hexpr]

/-- An operand that stands for a token in a block is a value of the block. -/
theorem block_of_denotes (h : Lifted c done g s) {n : Nat} {entry : List Token} {v : ValueId}
    {t : Token} (hv : (g.block b).Denotes n entry (some v) t) :
    (s.graph.definition v).block = b := by
  obtain ⟨u, hu, ⟨k, hk, -⟩ | ⟨k, hk, -⟩⟩ := hv
  · cases hu
    exact (h.feeding.typed.body b k v (h.body_eq b ▸ hk)).2.1
  · cases hu
    exact (h.feeding.typed.phi b k v (h.phis_mono hk)).2.1

/-- In the body of a loop, the machine first takes the next element of the iterator on top. -/
theorem made_of_loop (h : Lifted c done g s) (hc : c.Sound) (ho : g.offset b ∈ done)
    (hloop : c.isLoopBody done (g.offset b) = true) {f₀ f : Flat} (hrest : s.run rest = some f₀)
    (hrun : s.run (b :: rest) = some f) : f.made[0]? = some (f₀.stack.take 1) := by
  have hargs : c.argsAt (g.offset b) = [] := by
    refine if_neg fun hzero => ?_
    rw [hzero, hc.isLoopBody_zero] at hloop
    cases hloop
  rw [h.run_cons ho hrest, hargs, hloop] at hrun
  obtain ⟨later, hmade⟩ := Flat.prefix_made_of_foldlM hrun
  rw [← hmade]
  rfl

/-- The first value of the body of a loop is the next element of the header's iterator, if the
header was visited before. -/
theorem made_of_header (h : Lifted c done g s) (hc : c.Sound) (he : e ∈ g.live)
    (hzero : g.offset e = 0) (htrail : g.Trail e (b :: rest)) {f : Flat}
    (hrun : s.run (b :: rest) = some f) (hloop : c.isLoopBody done (g.offset b) = true)
    (hheader : s.ComesFromHeader b rest) :
    ∃ u x uses, (s.graph.block b).body[0]? = some u ∧ f.made[0]? = some uses ∧
      (s.graph.definition u).expr = some x ∧
      List.Forall₂ (s.graph.Resolves (b :: rest)) x.operands uses := by
  obtain ⟨hb, ho⟩ := h.walked_of_trail he hzero htrail
  obtain ⟨a, ha, i, hi, hfor, hnext⟩ := hheader
  cases htrail with
  | entry => cases ha
  | @step a' _ rest htrail hsucc =>
    cases ha
    obtain ⟨ha, hao⟩ := h.walked_of_trail he hzero htrail
    rw [h.stepsIn_eq hao] at hi
    rw [h.offset_eq] at hnext
    obtain ⟨f₀, hrest, -⟩ := Option.bind_eq_some_iff.1 hrun
    obtain ⟨f₁, j, t, iterator, hrest', hleft, -, -, hiterator⟩ := h.visit_of_run ha hao hrest
    obtain ⟨v, u, rfl, hu, hexpr⟩ := h.body_of_header hc hleft hi hfor hb hnext
    obtain ⟨top, below, hstack, hdenotes⟩ := hiterator v rfl
    have hfills := h.fills_of_trail hc he hzero htrail rfl hrest'
    have hresolves := h.resolves_of_denotes hfills hdenotes
    have hmade := h.made_of_loop hc ho hloop hrest hrun
    refine ⟨u, _, [top], hu, by rw [hmade, hstack]; rfl, hexpr, .cons ?_ .nil⟩
    -- the iterator is a value of the header, which is not the body
    obtain ⟨w, rfl, hw⟩ := Option.bind_eq_some_iff.1 hresolves
    have hne : (s.graph.definition w).block ≠ b := by
      rw [h.block_of_denotes hdenotes]
      rintro rfl
      exact Int.ne_of_lt (hc.lt_next_of_mem_runFrom hi) hnext.symm
    exact (h.feeding.typed.resolve_of_ne hne).trans hw

/-- At a visit of a block the machine has the operands that stand in the block. -/
theorem agrees (h : Lifted c done g s) (hc : c.Sound) (he : e ∈ g.live) (hzero : g.offset e = 0)
    (htrail : g.Trail e (b :: rest)) {f : Flat} (hrun : s.run (b :: rest) = some f) :
    s.Agrees b rest f := by
  obtain ⟨hb, ho⟩ := h.walked_of_trail he hzero htrail
  obtain ⟨f₀, i, t, iterator, hrest, hleft, hmirrors, hops, -⟩ := h.visit_of_run hb ho hrun
  have hfills := h.fills_of_trail hc he hzero htrail rfl hrest
  have hresolves : ∀ v t, (g.block b).Denotes rest.length f₀.stack v t →
      s.graph.Resolves (b :: rest) v t := fun v t => h.resolves_of_denotes hfills
  obtain ⟨phis, hblock⟩ := h.block_eq b
  refine ⟨?_, ?_, ?_, t, ?_, ?_⟩
  · rw [h.body_eq]
    exact hmirrors.count
  · intro k v uses hv huses hheader
    rw [h.entersLoop_eq] at hheader
    by_cases hfirst : k = 0 ∧ c.isLoopBody done (g.offset b) = true
    · -- the header made this value, with the operand that it had
      obtain ⟨rfl, hloop⟩ := hfirst
      obtain ⟨u, x, uses', hu, huses', hexpr, hall⟩ :=
        h.made_of_header hc he hzero htrail hrun hloop (hheader rfl hloop)
      obtain rfl : u = v := Option.some.inj (hu.symm.trans hv)
      obtain rfl : uses' = uses := Option.some.inj (huses'.symm.trans huses)
      exact ⟨x, hexpr, hall⟩
    · rw [h.body_eq] at hv
      obtain ⟨x, hexpr, hall⟩ :=
        hmirrors.made k v uses (fun hloop hk => hfirst ⟨hk, hloop⟩) hv huses
      obtain ⟨hlt, -, hphi⟩ := h.traversed.divided.wellFormed.typed.body b k v hv
      exact ⟨x, by rw [h.definition_eq hlt hphi, hexpr], hall.imp hresolves⟩
  · intro hloop
    rw [h.entersLoop_eq, Code.isLoopBody_iff] at hloop
    obtain ⟨p, hp, j, hj, hfor, hnext⟩ := hloop
    obtain ⟨a, -, rfl, j', t', iterator', hleft'⟩ := h.traversed.divided.walked p hp
    obtain ⟨x, v, -, hv, hexpr⟩ := h.body_of_header hc hleft' hj hfor hb hnext
    exact ⟨v, x, hv, hexpr⟩
  · rw [hblock]
    exact hleft.terminator_eq
  · exact hops.imp_right fun hall => hall.imp hresolves

end Lifter.Lifted

/-! ## All visits -/

/-- On every path along which the machine finds enough on its stack, the operands that stand in the
blocks are, at every visit, those that the machine has. -/
theorem Lifter.agrees_of_run {l : Listing} {c : Code} {options : LiftOptions} {s : Lifter}
    (hsize : l.IsAddressable) (hbuild : l.build = .ok c)
    (hlift : (Lifter.ofCode c options).lift = .ok () s) :
    ∃ e, s.graph.entry? = some e ∧ ∀ path f, s.graph.Trail e path → s.run path = some f →
      ∀ b rest, b :: rest <:+ path → ∃ f', s.run (b :: rest) = some f' ∧ s.Agrees b rest f' := by
  have hc := Listing.sound_of_build hsize hbuild
  obtain ⟨-, done, g, h⟩ := Lifter.lift_ok hc hlift
  obtain ⟨e, he, hzero⟩ := h.traversed.exists_entry
  refine ⟨e, (h.entry?_eq_some_iff hc e).2 ⟨he, hzero⟩, ?_⟩
  intro path f htrail hrun b rest hvisit
  obtain ⟨f', hrun'⟩ := Lifter.run_of_suffix hvisit hrun
  exact ⟨f', hrun', h.agrees hc he hzero ((h.trail_iff.1 htrail).of_suffix hvisit) hrun'⟩

/-- The machine goes through the loop, from the header to the body and back. -/
theorem Lifter.agrees_loop : Listing.loop.IsAddressable ∧ ∃ c s f, Listing.loop.build = .ok c ∧
    (Lifter.ofCode c {}).lift = .ok () s ∧ s.graph.entry? = some 3 ∧
    s.graph.Trail 3 [0, 4, 0, 3] ∧ s.run [4, 0, 3] = some f ∧ s.entersLoop 4 = true ∧
    s.Agrees 4 [0, 3] f := by
  have hlifts : Listing.loop.lifts (fun s => s.graph.entry? = some 3 ∧
      0 ∈ (s.graph.block 3).succs ∧ 4 ∈ (s.graph.block 0).succs ∧ 0 ∈ (s.graph.block 4).succs ∧
      s.entersLoop 4 = true ∧ (s.run [0, 4, 0, 3]).isSome = true) = true := by
    simp only [Listing.lifts, Lifter.lift, Lift.all, Code.getElem?_index]
    decide +kernel
  obtain ⟨c, s, hbuild, hlift, hcheck⟩ := Listing.exists_of_lifts hlifts
  obtain ⟨hentry, hhead, hbody, hback, hloop, hsome⟩ := of_decide_eq_true hcheck
  obtain ⟨f, hrun⟩ := Option.isSome_iff_exists.1 hsome
  have hsize : Listing.loop.IsAddressable := by decide +kernel
  have htrail : s.graph.Trail 3 [0, 4, 0, 3] := .step (.step (.step .entry hhead) hbody) hback
  obtain ⟨e, he, hall⟩ := Lifter.agrees_of_run hsize hbuild hlift
  obtain rfl : 3 = e := Option.some.inj (hentry.symm.trans he)
  obtain ⟨f', hrun', hagrees⟩ := hall _ f htrail hrun 4 [0, 3] (List.suffix_cons _ _)
  exact ⟨hsize, c, s, f', hbuild, hlift, hentry, htrail, hrun', hloop, hagrees⟩

end StackLift
