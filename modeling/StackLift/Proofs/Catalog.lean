/-
# The order of blocks is never out of date

Blocks are asked for by offset or all in order, and are made and removed in between.  What was
answered so far tells which blocks are there: those that were given for an offset and not removed.
A graph keeps them in order all the time.  A catalog keeps them in a table without any order, and
puts them in order only when it is asked for that; it keeps the list until a block is made or
removed.  Both give the same answers, which are those that the history of calls allows.

* `History.Live`, `History.InOrder` : the blocks that are there, told by the answers so far;
* `History.Allows` : the answers that a history allows, one rule for each;
* `Graph.reply`, `Catalog.reply` : the answers of a graph and those of a catalog;
* `History.Tells.allows`, `History.Tells.reply` : what one call to a graph does;
* `Catalog.Shows.reply` : a catalog answers a call like a graph;
* `Catalog.history_right` : all answers of both are the same, and right.
-/
import StackLift.Proofs.Checks
import StackLift.Proofs.Forgetting

namespace StackLift

/-! ## Calls and histories -/

/-- A call that asks for blocks, or changes which blocks there are or may be removed. -/
inductive BlockCall
  /-- Asks for the block at an offset, which is made if there is none. -/
  | block (offset : Int)
  | lookup (offset : Int)
  | has (offset : Int)
  | remove (b : BlockId)
  | connect (b next : BlockId)
  | blocks
  | last
  | entry
  | count
  | stripDead
  deriving DecidableEq, Repr

/-- The answer to a call. -/
inductive BlockAnswer
  | block (b : BlockId)
  | found (b : Option BlockId)
  | has (yes : Bool)
  | done
  | refused (i : Inconsistency)
  | blocks (bs : List BlockId)
  | count (n : Nat)
  deriving DecidableEq, Repr

namespace BlockCall

/-- The block that a call gets for an offset. -/
def gives : BlockCall → BlockAnswer → List (Int × BlockId)
  | block offset, .block b => [(offset, b)]
  | _, _ => []

/-- The blocks that a call removes. -/
def removes : BlockCall → BlockAnswer → List BlockId
  | remove b, .done => [b]
  | stripDead, .blocks bs => bs
  | _, _ => []

/-- The blocks that a call connects. -/
def joins : BlockCall → List BlockId
  | connect b next => [b, next]
  | _ => []

end BlockCall

/-- Calls with their answers, the last one first. -/
abbrev History := List (BlockCall × BlockAnswer)

namespace History

/-- The blocks that were given for offsets. -/
def given (h : History) : List (Int × BlockId) := h.flatMap fun e => e.1.gives e.2

/-- The blocks that were removed. -/
def removed (h : History) : List BlockId := h.flatMap fun e => e.1.removes e.2

/-- Whether a block was given for an offset and not removed. -/
def Live (h : History) (o : Int) (b : BlockId) : Prop := (o, b) ∈ given h ∧ b ∉ removed h

/-- Whether a block was ever given. -/
def Known (h : History) (b : BlockId) : Prop := ∃ o, (o, b) ∈ given h

/-- Whether a block was connected to another one after it was first given. -/
def Connected (b : BlockId) : History → Prop
  | [] => False
  | e :: h => b ∈ e.1.joins ∧ Known h b ∨ Connected b h

/-- Whether a list has the blocks that are there, each once, in ascending order of offset. -/
def InOrder (h : History) (bs : List BlockId) : Prop :=
  bs.Nodup ∧ ∃ es : List (Int × BlockId), es.Pairwise (fun x y => x.1 < y.1) ∧
    (∀ o b, (o, b) ∈ es ↔ Live h o b) ∧ bs = es.map Prod.snd

/-- The answers that a history allows. -/
inductive Allows (h : History) : BlockCall → BlockAnswer → Prop
  /-- The block at an offset stays the same until it is removed. -/
  | same {o : Int} {b : BlockId} (hb : Live h o b) : Allows h (.block o) (.block b)
  /-- A block that is made was never given before. -/
  | new {o : Int} {b : BlockId} (hnone : ∀ a, ¬ Live h o a) (hb : ¬ Known h b) :
      Allows h (.block o) (.block b)
  | lookup {o : Int} {x : Option BlockId} (hx : ∀ b, x = some b ↔ Live h o b) :
      Allows h (.lookup o) (.found x)
  | has {o : Int} {yes : Bool} (hyes : yes = true ↔ ∃ b, Live h o b) :
      Allows h (.has o) (.has yes)
  | removed {o : Int} {b : BlockId} (hb : Live h o b) (hfree : ¬ Connected b h) :
      Allows h (.remove b) .done
  /-- A block that is not there cannot be removed. -/
  | foreign {o : Int} {b : BlockId} (hb : ∀ o, ¬ Live h o b) (hfree : ¬ Connected b h) :
      Allows h (.remove b) (.refused (.removeForeign o))
  /-- A block with edges cannot be removed. -/
  | attached {o : Int} {preds succs : List Int} {b : BlockId} (hb : Connected b h) :
      Allows h (.remove b) (.refused (.removeConnected o preds succs))
  | connected {b next : BlockId} : Allows h (.connect b next) .done
  | blocks {bs : List BlockId} (hbs : InOrder h bs) : Allows h .blocks (.blocks bs)
  | last {bs : List BlockId} (hbs : InOrder h bs) : Allows h .last (.found bs.getLast?)
  | entry {x : Option BlockId} (hx : ∀ b, x = some b ↔ Live h 0 b) : Allows h .entry (.found x)
  | count {bs : List BlockId} (hbs : InOrder h bs) : Allows h .count (.count bs.length)
  /-- The dead blocks but for the entry are removed, in order. -/
  | stripDead {bs dead : List BlockId} (hbs : InOrder h bs) (hsub : dead.Sublist bs)
      (hdead : ∀ b, b ∈ dead ↔ (∃ o, o ≠ 0 ∧ Live h o b) ∧ ¬ Connected b h) :
      Allows h .stripDead (.blocks dead)

/-- Whether every answer is one that the history before it allows. -/
def Right : History → Prop
  | [] => True
  | e :: h => Allows h e.1 e.2 ∧ Right h

end History

/-! ## Graphs -/

/-- An answer if something was done, or the refusal of it, which changes nothing. -/
def BlockAnswer.settle {σ : Type} (answer : BlockAnswer) (s : σ) :
    Except Inconsistency σ → BlockAnswer × σ
  | .ok s' => (answer, s')
  | .error i => (.refused i, s)

namespace Graph

/-- The answer of a graph to a call, and the graph after it. -/
def reply (g : Graph) : BlockCall → BlockAnswer × Graph
  | .block offset => (.block (g.ensure offset).1, (g.ensure offset).2)
  | .lookup offset => (.found (g.find? offset), g)
  | .has offset => (.has (g.has offset), g)
  | .remove b => BlockAnswer.done.settle g (g.remove b)
  | .connect b next => (.done, g.connect b next)
  | .blocks => (.blocks g.live, g)
  | .last => (.found g.last?, g)
  | .entry => (.found g.entry?, g)
  | .count => (.count g.live.length, g)
  | .stripDead => (BlockAnswer.blocks g.deadBlocks).settle g g.removeDead

/-- A history with one more call to a graph, and the graph after it. -/
def record (r : History × Graph) (call : BlockCall) : History × Graph :=
  ((call, (r.2.reply call).1) :: r.1, (r.2.reply call).2)

/-- The history of calls to the graph without blocks. -/
def history (calls : List BlockCall) : History := (calls.foldl record ([], .empty)).1

end Graph

/-! ## Catalogs -/

/-- A way to go through a table: all its entries, in any order. -/
structure Iteration where
  order : List (Int × BlockId) → List (Int × BlockId)
  perm : ∀ table, (order table).Perm table

/-- Blocks in a table, and a list of them in order if there is one. -/
structure Catalog where
  /-- All blocks ever made.  The table tells which of them are there. -/
  made : Graph := .empty
  table : List (Int × BlockId) := []
  view : Option (List BlockId) := none

namespace Catalog

/-- The block at an offset. -/
def lookup (c : Catalog) (o : Int) : Option BlockId := c.table.lookup o

/-- The catalog with a new block at an offset. -/
def add (c : Catalog) (o : Int) : Catalog where
  made := { c.made with blocks := c.made.blocks.push { offset := o } }
  table := (o, c.made.blocks.size) :: c.table
  view := none

/-- The catalog without what stands at the offset of a block. -/
def discard (c : Catalog) (b : BlockId) : Catalog :=
  { c with table := c.table.filter fun e => e.1 ≠ c.made.offset b, view := none }

/-- The catalog without a block that has no edges left. -/
def remove (c : Catalog) (b : BlockId) : Except Inconsistency Catalog :=
  let x := c.made.block b
  if x.isDead then
    if c.lookup x.offset = some b then .ok (c.discard b) else .error (.removeForeign x.offset)
  else .error (.removeConnected x.offset (x.preds.map c.made.offset) (x.succs.map c.made.offset))

/-- All blocks in order: the list that was kept, or else the blocks as the table is gone through,
sorted by offset. -/
def blocks (c : Catalog) (it : Iteration) : List BlockId :=
  c.view.getD (((it.order c.table).map Prod.snd).mergeSort fun a b =>
    decide (c.made.offset a ≤ c.made.offset b))

/-- The catalog that keeps the list of all blocks. -/
def keep (c : Catalog) (it : Iteration) : Catalog := { c with view := some (c.blocks it) }

/-- The dead blocks but for the entry, in order. -/
def deadBlocks (c : Catalog) (it : Iteration) : List BlockId :=
  (c.blocks it).filter fun b => c.lookup 0 ≠ some b && (c.made.block b).isDead

/-- The answer of a catalog to a call, and the catalog after it, given how the table is gone
through. -/
def reply (c : Catalog) (it : Iteration) : BlockCall → BlockAnswer × Catalog
  | .block offset =>
    (c.lookup offset).elim (.block c.made.blocks.size, c.add offset) fun b => (.block b, c)
  | .lookup offset => (.found (c.lookup offset), c)
  | .has offset => (.has (c.lookup offset).isSome, c)
  | .remove b => BlockAnswer.done.settle c (c.remove b)
  | .connect b next => (.done, { c with made := c.made.connect b next })
  | .blocks => (.blocks (c.blocks it), c.keep it)
  | .last => (.found (c.blocks it).getLast?, c.keep it)
  | .entry => (.found (c.lookup 0), c)
  | .count => (.count c.table.length, c)
  | .stripDead =>
    (BlockAnswer.blocks (c.deadBlocks it)).settle (c.keep it)
      ((c.deadBlocks it).foldlM remove (c.keep it))

/-- A history with one more call to a catalog, and the catalog after it. -/
def record (r : History × Catalog) (call : BlockCall × Iteration) : History × Catalog :=
  ((call.1, (r.2.reply call.2 call.1).1) :: r.1, (r.2.reply call.2 call.1).2)

/-- The history of calls to the catalog without blocks, given how the table is gone through at each
call. -/
def history (calls : List (BlockCall × Iteration)) : History := (calls.foldl record ([], {})).1

end Catalog

/-! ## What a history tells about a graph -/

namespace Graph

theorem isEmpty_addNew (a : BlockId) (l : List BlockId) : (addNew a l).isEmpty = false := by
  rw [List.isEmpty_eq_false_iff_exists_mem]
  exact ⟨a, (mem_addNew a a l).2 (.inl rfl)⟩

/-- Two blocks that are connected are not dead, and nothing else changes. -/
theorem isDead_connect (g : Graph) (b n a : BlockId) :
    ((g.connect b n).block a).isDead = false ↔
      a ∈ [b, n] ∧ a < g.blocks.size ∨ (g.block a).isDead = false := by
  rw [connect, block_modifyBlock, size_modifyBlock, block_modifyBlock]
  split
  · rename_i hn
    refine iff_of_true ?_ (.inl ⟨?_, hn.1 ▸ hn.2⟩)
    · simp [Block.isDead, isEmpty_addNew]
    · simp [hn.1]
  · rename_i hn
    split
    · rename_i hb
      refine iff_of_true ?_ (.inl ⟨?_, hb.1 ▸ hb.2⟩)
      · simp [Block.isDead, isEmpty_addNew]
      · simp [hb.1]
    · rename_i hb
      refine (or_iff_right ?_).symm
      rintro ⟨hmem, hsize⟩
      rcases List.mem_pair.1 hmem with rfl | rfl
      · exact hb ⟨rfl, hsize⟩
      · exact hn ⟨rfl, hsize⟩

theorem offset_connect (g : Graph) (b n a : BlockId) : (g.connect b n).offset a = g.offset a := by
  rw [offset, connect, block_modifyBlock, block_modifyBlock, offset]
  split <;> split <;> rfl

theorem offset_addBlock (g : Graph) (o : Int) (a : BlockId) :
    (g.addBlock o).offset a = if a = g.blocks.size then o else g.offset a := by
  rw [offset, block_addBlock]
  split <;> rfl

theorem perm_insertByOffset (f : BlockId → Int) (b : BlockId) (l : List BlockId) :
    (insertByOffset f b l).Perm (b :: l) := by
  induction l with
  | nil => exact .refl _
  | cons a l ih =>
    rw [insertByOffset]
    split
    · exact .refl _
    · exact (ih.cons a).trans (.swap b a l)

end Graph

namespace History

variable {h : History} {g : Graph} {o : Int} {b : BlockId}

/-- Whether a history tells which blocks of a graph were made, removed and connected. -/
structure Tells (h : History) (g : Graph) : Prop where
  ordered : g.Ordered
  lt_size : ∀ b ∈ g.live, b < g.blocks.size
  mem_given_iff : ∀ o b, (o, b) ∈ given h ↔ b < g.blocks.size ∧ g.offset b = o
  mem_removed_iff : ∀ b, b ∈ removed h ↔ b < g.blocks.size ∧ b ∉ g.live
  connected_iff : ∀ b, Connected b h ↔ (g.block b).isDead = false

theorem tells_empty : Tells [] .empty where
  ordered := .nil
  lt_size _ hb := absurd hb List.not_mem_nil
  mem_given_iff _ _ := iff_of_false List.not_mem_nil fun hb => Nat.not_lt_zero _ hb.1
  mem_removed_iff _ := iff_of_false List.not_mem_nil fun hb => Nat.not_lt_zero _ hb.1
  connected_iff _ := iff_of_false id fun hb => Bool.false_ne_true hb.symm

namespace Tells

theorem live_iff (ht : Tells h g) : Live h o b ↔ b ∈ g.live ∧ g.offset b = o := by
  rw [Live, ht.mem_given_iff, ht.mem_removed_iff]
  constructor
  · rintro ⟨⟨hlt, ho⟩, hnot⟩
    exact ⟨not_not.1 fun hlive => hnot ⟨hlt, hlive⟩, ho⟩
  · rintro ⟨hlive, ho⟩
    exact ⟨⟨ht.lt_size b hlive, ho⟩, fun hnot => hnot.2 hlive⟩

theorem known_iff (ht : Tells h g) : Known h b ↔ b < g.blocks.size := by
  rw [Known]
  constructor
  · rintro ⟨o, ho⟩
    exact ((ht.mem_given_iff o b).1 ho).1
  · intro hlt
    exact ⟨g.offset b, (ht.mem_given_iff _ b).2 ⟨hlt, rfl⟩⟩

theorem find?_iff (ht : Tells h g) : g.find? o = some b ↔ Live h o b := by
  rw [ht.ordered.find?_eq_some_iff, ht.live_iff]

/-- The blocks of a graph are there, in order. -/
theorem inOrder (ht : Tells h g) : InOrder h g.live := by
  refine ⟨ht.ordered.nodup, g.live.map fun b => (g.offset b, b),
    List.pairwise_map.2 ht.ordered, ?_, ?_⟩
  · intro o b
    rw [ht.live_iff, List.mem_map]
    constructor
    · rintro ⟨a, ha, heq⟩
      cases heq
      exact ⟨ha, rfl⟩
    · rintro ⟨hb, rfl⟩
      exact ⟨b, hb, rfl⟩
  · rw [List.map_map]
    exact (List.map_id _).symm

/-- The dead blocks of a graph are those that were never connected, but for the entry. -/
theorem mem_deadBlocks_iff (ht : Tells h g) :
    b ∈ g.deadBlocks ↔ (∃ o, o ≠ 0 ∧ Live h o b) ∧ ¬ Connected b h := by
  rw [Graph.deadBlocks, List.mem_filter, ht.connected_iff, Bool.and_eq_true, decide_eq_true_eq,
    Bool.not_eq_false]
  constructor
  · rintro ⟨hb, hentry, hdead⟩
    refine ⟨⟨g.offset b, fun hzero => hentry ?_, ht.live_iff.2 ⟨hb, rfl⟩⟩, hdead⟩
    exact ht.ordered.entry?_eq_some_iff.2 ⟨hb, hzero⟩
  · rintro ⟨⟨o, ho, hlive⟩, hdead⟩
    obtain ⟨hb, rfl⟩ := ht.live_iff.1 hlive
    exact ⟨hb, fun hentry => ho (ht.ordered.entry?_eq_some_iff.1 hentry).2, hdead⟩

/-- A graph answers what its history allows. -/
theorem allows (ht : Tells h g) (call : BlockCall) : Allows h call (g.reply call).1 := by
  cases call with
  | block o =>
    rw [Graph.reply, Graph.ensure]
    cases hfind : g.find? o with
    | some b => exact .same (ht.find?_iff.1 hfind)
    | none =>
      refine .new (fun a ha => ?_) fun hknown => Nat.lt_irrefl _ (ht.known_iff.1 hknown)
      rw [← ht.find?_iff, hfind] at ha
      cases ha
  | lookup o => exact .lookup fun b => ht.find?_iff
  | has o =>
    refine .has ?_
    rw [Graph.has, Option.isSome_iff_exists]
    exact exists_congr fun b => ht.find?_iff
  | remove b =>
    rw [Graph.reply, Graph.remove]
    by_cases hdead : (g.block b).isDead = true
    · have hfree : ¬ Connected b h := by
        rw [ht.connected_iff, hdead]
        exact Bool.noConfusion
      rw [if_pos hdead]
      by_cases hb : b ∈ g.live
      · rw [if_pos hb]
        exact .removed (ht.live_iff.2 ⟨hb, rfl⟩) hfree
      · rw [if_neg hb]
        exact .foreign (fun o ho => hb (ht.live_iff.1 ho).1) hfree
    · rw [if_neg hdead]
      exact .attached ((ht.connected_iff b).2 (Bool.eq_false_iff.2 hdead))
  | connect b n => exact .connected
  | blocks => exact .blocks ht.inOrder
  | last => exact .last ht.inOrder
  | entry => exact .entry fun b => ht.find?_iff
  | count => exact .count ht.inOrder
  | stripDead =>
    -- none of the dead blocks is refused, as they are different blocks
    rw [Graph.reply, Graph.removeDead_eq ht.ordered.nodup]
    exact .stripDead ht.inOrder List.filter_sublist fun b => ht.mem_deadBlocks_iff

/-- A call that gives, removes and connects nothing tells nothing new. -/
theorem quiet (ht : Tells h g) {e : BlockCall × BlockAnswer} (hgives : e.1.gives e.2 = [])
    (hremoves : e.1.removes e.2 = []) (hjoins : e.1.joins = []) : Tells (e :: h) g where
  ordered := ht.ordered
  lt_size := ht.lt_size
  mem_given_iff o b := by
    rw [given, List.flatMap_cons, hgives, List.nil_append]
    exact ht.mem_given_iff o b
  mem_removed_iff b := by
    rw [removed, List.flatMap_cons, hremoves, List.nil_append]
    exact ht.mem_removed_iff b
  connected_iff b := by
    rw [Connected, hjoins, ← ht.connected_iff]
    exact or_iff_right fun hb => List.not_mem_nil hb.1

/-- The block at an offset is given. -/
theorem ensure (ht : Tells h g) (o : Int) :
    Tells ((.block o, .block (g.ensure o).1) :: h) (g.ensure o).2 := by
  have hconnected : ∀ b (x : BlockAnswer), Connected b ((.block o, x) :: h) ↔ Connected b h :=
    fun b x => or_iff_right fun hb => List.not_mem_nil hb.1
  rw [Graph.ensure]
  cases hfind : g.find? o with
  | some b =>
    obtain ⟨hb, ho⟩ := (ht.ordered.find?_eq_some_iff o).1 hfind
    refine ⟨ht.ordered, ht.lt_size, ?_, ht.mem_removed_iff, ?_⟩
    · intro o' a
      change (o', a) ∈ (o, b) :: given h ↔ _
      rw [List.mem_cons, ht.mem_given_iff, Prod.mk.injEq]
      refine or_iff_right_of_imp ?_
      rintro ⟨rfl, rfl⟩
      exact ⟨ht.lt_size a hb, ho⟩
    · intro a
      rw [hconnected, ht.connected_iff]
  | none =>
    -- the number of the new block is one that was not given before
    dsimp only
    refine ⟨ht.ordered.addBlock ht.lt_size hfind, ?_, ?_, ?_, ?_⟩
    · intro a ha
      rw [Graph.size_addBlock, Nat.lt_succ_iff_lt_or_eq]
      exact ((Graph.mem_live_addBlock g o a).1 ha).symm.imp_left (ht.lt_size a)
    · intro o' a
      change (o', a) ∈ (o, g.blocks.size) :: given h ↔ _
      rw [List.mem_cons, ht.mem_given_iff, Prod.mk.injEq, Graph.size_addBlock,
        Graph.offset_addBlock, Nat.lt_succ_iff_lt_or_eq]
      by_cases ha : a = g.blocks.size
      · simp [ha, eq_comm]
      · simp [ha]
    · intro a
      change a ∈ removed h ↔ _
      rw [ht.mem_removed_iff, Graph.size_addBlock, Graph.mem_live_addBlock, not_or,
        Nat.lt_succ_iff_lt_or_eq]
      constructor
      · rintro ⟨hlt, hnot⟩
        exact ⟨.inl hlt, Nat.ne_of_lt hlt, hnot⟩
      · rintro ⟨hlt, hne, hnot⟩
        exact ⟨hlt.resolve_right hne, hnot⟩
    · intro a
      rw [hconnected, ht.connected_iff, Graph.block_addBlock]
      split
      · rename_i ha
        rw [ha, Graph.block_of_size_le (Nat.le_refl _)]
        rfl
      · rfl

/-- Blocks that are removed are no longer there. -/
theorem shrink (ht : Tells h g) {e : BlockCall × BlockAnswer} {live : List BlockId}
    (hgives : e.1.gives e.2 = []) (hjoins : e.1.joins = []) (hsub : live.Sublist g.live)
    (hremoves : ∀ b, b ∈ e.1.removes e.2 ↔ b ∈ g.live ∧ b ∉ live) :
    Tells (e :: h) { g with live } where
  ordered := ht.ordered.sublist hsub
  lt_size b hb := ht.lt_size b (hsub.subset hb)
  mem_given_iff o b := by
    rw [given, List.flatMap_cons, hgives, List.nil_append]
    exact ht.mem_given_iff o b
  mem_removed_iff b := by
    rw [removed, List.flatMap_cons, List.mem_append, hremoves]
    change _ ∨ b ∈ removed h ↔ _
    rw [ht.mem_removed_iff]
    constructor
    · rintro (⟨hb, hnot⟩ | ⟨hlt, hnot⟩)
      · exact ⟨ht.lt_size b hb, hnot⟩
      · exact ⟨hlt, fun hb => hnot (hsub.subset hb)⟩
    · rintro ⟨hlt, hnot⟩
      by_cases hb : b ∈ g.live
      · exact .inl ⟨hb, hnot⟩
      · exact .inr ⟨hlt, hb⟩
  connected_iff b := by
    rw [Connected, hjoins]
    exact (or_iff_right fun hb => List.not_mem_nil hb.1).trans (ht.connected_iff b)

theorem connect (ht : Tells h g) (b n : BlockId) :
    Tells ((.connect b n, .done) :: h) (g.connect b n) where
  ordered := ht.ordered.imp fun hac => by rwa [Graph.offset_connect, Graph.offset_connect]
  lt_size a ha := by
    rw [Graph.size_connect]
    exact ht.lt_size a ha
  mem_given_iff o a := by
    rw [Graph.size_connect, Graph.offset_connect]
    exact ht.mem_given_iff o a
  mem_removed_iff a := by
    rw [Graph.size_connect]
    exact ht.mem_removed_iff a
  connected_iff a := by
    rw [Graph.isDead_connect, Connected, ht.known_iff, ht.connected_iff]
    rfl

/-- After a call, the history with the call in it tells what it told before. -/
theorem reply (ht : Tells h g) (call : BlockCall) :
    Tells ((call, (g.reply call).1) :: h) (g.reply call).2 := by
  cases call with
  | block o => exact ht.ensure o
  | remove b =>
    rw [Graph.reply]
    cases hok : g.remove b with
    | error i => exact ht.quiet rfl rfl rfl
    | ok g' =>
      obtain ⟨-, hb, rfl⟩ := Graph.remove_eq_ok_iff.1 hok
      refine ht.shrink rfl rfl List.erase_sublist fun a => ?_
      change a ∈ [b] ↔ _
      rw [List.mem_singleton, ht.ordered.nodup.mem_erase_iff]
      constructor
      · rintro rfl
        exact ⟨hb, fun ha => ha.1 rfl⟩
      · rintro ⟨ha, hnot⟩
        exact not_not.1 fun hne => hnot ⟨hne, ha⟩
  | connect b n => exact ht.connect b n
  | stripDead =>
    rw [Graph.reply, Graph.removeDead_eq ht.ordered.nodup, BlockAnswer.settle, Graph.stripDead_eq]
    refine ht.shrink rfl rfl (Graph.foldl_erase_sublist _) fun a => ?_
    change a ∈ g.deadBlocks ↔ _
    rw [Graph.mem_foldl_erase ht.ordered.nodup]
    constructor
    · intro ha
      exact ⟨(List.mem_filter.1 ha).1, fun hnot => hnot.2 ha⟩
    · rintro ⟨ha, hnot⟩
      exact not_not.1 fun hdead => hnot ⟨ha, hdead⟩
  | lookup o => exact ht.quiet rfl rfl rfl
  | has o => exact ht.quiet rfl rfl rfl
  | blocks => exact ht.quiet rfl rfl rfl
  | last => exact ht.quiet rfl rfl rfl
  | entry => exact ht.quiet rfl rfl rfl
  | count => exact ht.quiet rfl rfl rfl

end Tells

end History

/-! ## Catalogs answer like graphs -/

namespace Catalog

variable {c : Catalog} {g : Graph} {o : Int} {b : BlockId}

/-- Whether a catalog has the blocks of a graph.  If it keeps a list, that is the blocks of the
graph in order. -/
structure Shows (c : Catalog) (g : Graph) : Prop where
  made_eq : c.made = { g with live := [] }
  perm : (c.table.map Prod.snd).Perm g.live
  offset_eq : ∀ e ∈ c.table, g.offset e.2 = e.1
  view_eq : ∀ bs, c.view = some bs → bs = g.live

namespace Shows

theorem empty : ({} : Catalog).Shows .empty where
  made_eq := rfl
  perm := .nil
  offset_eq _ he := absurd he List.not_mem_nil
  view_eq _ hbs := by cases hbs

theorem mem_table_iff (hs : c.Shows g) : (o, b) ∈ c.table ↔ b ∈ g.live ∧ g.offset b = o := by
  rw [← hs.perm.mem_iff, List.mem_map]
  constructor
  · intro he
    exact ⟨⟨(o, b), he, rfl⟩, hs.offset_eq (o, b) he⟩
  · rintro ⟨⟨⟨o', b'⟩, he, rfl⟩, rfl⟩
    have ho : g.offset b' = o' := hs.offset_eq _ he
    rwa [ho]

theorem offset_made (hs : c.Shows g) (b : BlockId) : c.made.offset b = g.offset b := by
  rw [hs.made_eq]
  rfl

theorem block_made (hs : c.Shows g) (b : BlockId) : c.made.block b = g.block b := by
  rw [hs.made_eq]
  rfl

/-- What stands at an offset is found in the table. -/
theorem lookup_eq (hs : c.Shows g) (hord : g.Ordered) (o : Int) : c.lookup o = g.find? o := by
  cases hlookup : c.table.lookup o with
  | some b =>
    obtain ⟨front, back, htable, -⟩ := List.lookup_eq_some_iff.1 hlookup
    have he : (o, b) ∈ c.table := by
      rw [htable]
      exact List.mem_append_right _ List.mem_cons_self
    rw [lookup, hlookup, (hord.find?_eq_some_iff o).2 (hs.mem_table_iff.1 he)]
  | none =>
    rw [lookup, hlookup, eq_comm, Graph.find?_eq_none_iff]
    intro b hb ho
    have hne := List.lookup_eq_none_iff.1 hlookup (o, b) (hs.mem_table_iff.2 ⟨hb, ho⟩)
    exact bne_iff_ne.1 hne rfl

/-- The list of all blocks is that of the graph, whether it was kept or is made now, and however the
table is gone through. -/
theorem blocks_eq (hs : c.Shows g) (hord : g.Ordered) (it : Iteration) :
    c.blocks it = g.live := by
  rw [blocks]
  cases hview : c.view with
  | some bs => exact hs.view_eq bs hview
  | none =>
    -- the order of the table is lost in sorting, since no two blocks share an offset
    have hperm : (((it.order c.table).map Prod.snd).mergeSort fun a b =>
        decide (c.made.offset a ≤ c.made.offset b)).Perm g.live :=
      (List.mergeSort_perm _ _).trans (((it.perm c.table).map _).trans hs.perm)
    refine List.Perm.eq_of_pairwise ?_ (List.pairwise_mergeSort ?_ ?_ _) (hord.imp ?_) hperm
    · intro a b ha hb hab hba
      rw [decide_eq_true_eq, hs.offset_made, hs.offset_made] at hab hba
      exact hord.eq_of_offset_eq (hperm.mem_iff.1 ha) hb (Int.le_antisymm hab hba)
    · intro a b d hab hbd
      rw [decide_eq_true_eq] at hab hbd ⊢
      exact Int.le_trans hab hbd
    · intro a b
      rw [Bool.or_eq_true, decide_eq_true_eq, decide_eq_true_eq]
      exact Int.le_total _ _
    · intro a b hab
      rw [decide_eq_true_eq, hs.offset_made, hs.offset_made]
      exact Int.le_of_lt hab

theorem keep (hs : c.Shows g) (hord : g.Ordered) (it : Iteration) : (c.keep it).Shows g where
  made_eq := hs.made_eq
  perm := hs.perm
  offset_eq := hs.offset_eq
  view_eq bs hbs := by
    cases hbs
    exact hs.blocks_eq hord it

theorem deadBlocks_eq (hs : c.Shows g) (hord : g.Ordered) (it : Iteration) :
    c.deadBlocks it = g.deadBlocks := by
  rw [deadBlocks, Graph.deadBlocks, hs.blocks_eq hord, hs.lookup_eq hord]
  refine List.filter_congr fun b _ => ?_
  rw [hs.block_made]
  rfl

theorem add (hs : c.Shows g) (hlt : ∀ a ∈ g.live, a < g.blocks.size) (o : Int) :
    (c.add o).Shows (g.addBlock o) where
  made_eq := by
    rw [Catalog.add, hs.made_eq]
    rfl
  perm := by
    change (c.made.blocks.size :: c.table.map Prod.snd).Perm _
    rw [hs.made_eq]
    exact (hs.perm.cons _).trans (Graph.perm_insertByOffset _ _ _).symm
  offset_eq e he := by
    rw [Graph.offset_addBlock]
    rcases List.mem_cons.1 he with rfl | he
    · rw [hs.made_eq]
      exact if_pos rfl
    · have hlive : e.2 ∈ g.live := hs.perm.mem_iff.1 (List.mem_map_of_mem he)
      rw [if_neg (Nat.ne_of_lt (hlt _ hlive))]
      exact hs.offset_eq e he
  view_eq _ hbs := by cases hbs

theorem discard (hs : c.Shows g) (hord : g.Ordered) (hb : b ∈ g.live) :
    (c.discard b).Shows (g.discard b) where
  made_eq := hs.made_eq
  perm := by
    have hnodup : (c.table.map Prod.snd).Nodup := hs.perm.nodup_iff.2 hord.nodup
    refine (List.perm_ext_iff_of_nodup ?_ (hord.nodup.erase b)).2 fun a => ?_
    · exact hnodup.sublist (List.filter_sublist.map _)
    · rw [hord.nodup.mem_erase_iff, List.mem_map]
      constructor
      · rintro ⟨⟨o, a⟩, he, rfl⟩
        obtain ⟨he, hne⟩ := List.mem_filter.1 he
        obtain ⟨ha, rfl⟩ := hs.mem_table_iff.1 he
        rw [decide_eq_true_eq, hs.offset_made] at hne
        exact ⟨fun hab => hne (congrArg g.offset hab), ha⟩
      · rintro ⟨hab, ha⟩
        refine ⟨(g.offset a, a), List.mem_filter.2 ⟨hs.mem_table_iff.2 ⟨ha, rfl⟩, ?_⟩, rfl⟩
        rw [decide_eq_true_eq, hs.offset_made]
        exact fun ho => hab (hord.eq_of_offset_eq ha hb ho)
  offset_eq e he := hs.offset_eq e (List.mem_filter.1 he).1
  view_eq _ hbs := by cases hbs

theorem connect (hs : c.Shows g) (b n : BlockId) :
    ({ c with made := c.made.connect b n } : Catalog).Shows (g.connect b n) where
  made_eq := by
    rw [hs.made_eq]
    rfl
  perm := hs.perm
  offset_eq e he := by
    rw [Graph.offset_connect]
    exact hs.offset_eq e he
  view_eq := hs.view_eq

end Shows

/-- Whether a catalog and a graph refuse the same, or go on with the same blocks. -/
inductive Agree : Except Inconsistency Catalog → Except Inconsistency Graph → Prop
  | ok {c : Catalog} {g : Graph} (hs : c.Shows g) (hord : g.Ordered) : Agree (.ok c) (.ok g)
  | error (i : Inconsistency) : Agree (.error i) (.error i)

namespace Shows

theorem remove (hs : c.Shows g) (hord : g.Ordered) (b : BlockId) :
    Agree (c.remove b) (g.remove b) := by
  have hlookup : c.lookup (g.block b).offset = some b ↔ b ∈ g.live := by
    rw [hs.lookup_eq hord, hord.find?_eq_some_iff]
    exact and_iff_left rfl
  have hoffset : c.made.offset = g.offset := funext hs.offset_made
  rw [Catalog.remove, Graph.remove, hs.block_made, hoffset]
  by_cases hdead : (g.block b).isDead = true
  · rw [if_pos hdead, if_pos hdead]
    by_cases hb : b ∈ g.live
    · rw [if_pos (hlookup.2 hb), if_pos hb]
      exact .ok (hs.discard hord hb) (hord.sublist List.erase_sublist)
    · rw [if_neg (hlookup.not.2 hb), if_neg hb]
      exact .error _
  · rw [if_neg hdead, if_neg hdead]
    exact .error _

theorem foldlM_remove (hs : c.Shows g) (hord : g.Ordered) (dead : List BlockId) :
    Agree (dead.foldlM Catalog.remove c) (dead.foldlM Graph.remove g) := by
  induction dead generalizing c g with
  | nil => exact .ok hs hord
  | cons b dead ih =>
    have hagree := hs.remove hord b
    rw [List.foldlM_cons, List.foldlM_cons]
    generalize c.remove b = x at hagree ⊢
    generalize g.remove b = y at hagree ⊢
    cases hagree with
    | ok hs' hord' => exact ih hs' hord'
    | error i => exact .error i

/-- A refusal or an answer is the same for both, and so are the blocks after it. -/
theorem settle (hs : c.Shows g) {x : Except Inconsistency Catalog}
    {y : Except Inconsistency Graph} (hagree : Agree x y) (answer : BlockAnswer) :
    (answer.settle c x).1 = (answer.settle g y).1 ∧
      (answer.settle c x).2.Shows (answer.settle g y).2 := by
  cases hagree with
  | ok hs' _ => exact ⟨rfl, hs'⟩
  | error i => exact ⟨rfl, hs⟩

/-- A catalog answers a call like a graph with the same blocks. -/
theorem reply (hs : c.Shows g) (hord : g.Ordered) (hlt : ∀ a ∈ g.live, a < g.blocks.size)
    (it : Iteration) (call : BlockCall) :
    (c.reply it call).1 = (g.reply call).1 ∧ (c.reply it call).2.Shows (g.reply call).2 := by
  cases call with
  | block o =>
    rw [Catalog.reply, Graph.reply, Graph.ensure, hs.lookup_eq hord]
    cases hfind : g.find? o with
    | some b => exact ⟨rfl, hs⟩
    | none =>
      refine ⟨?_, hs.add hlt o⟩
      rw [hs.made_eq]
      rfl
  | lookup o => exact ⟨congrArg BlockAnswer.found (hs.lookup_eq hord o), hs⟩
  | has o =>
    rw [Catalog.reply, Graph.reply, Graph.has, hs.lookup_eq hord]
    exact ⟨rfl, hs⟩
  | remove b => exact hs.settle (hs.remove hord b) .done
  | connect b n => exact ⟨rfl, hs.connect b n⟩
  | blocks => exact ⟨congrArg BlockAnswer.blocks (hs.blocks_eq hord it), hs.keep hord it⟩
  | last =>
    rw [Catalog.reply, Graph.reply, hs.blocks_eq hord, Graph.last?]
    exact ⟨rfl, hs.keep hord it⟩
  | entry => exact ⟨congrArg BlockAnswer.found (hs.lookup_eq hord 0), hs⟩
  | count =>
    rw [Catalog.reply, Graph.reply, ← hs.perm.length_eq, List.length_map]
    exact ⟨rfl, hs⟩
  | stripDead =>
    -- the blocks are removed one by one while the list with them is still kept
    rw [Catalog.reply, Graph.reply, hs.deadBlocks_eq hord]
    exact (hs.keep hord it).settle ((hs.keep hord it).foldlM_remove hord g.deadBlocks) _

end Shows

/-! ## All calls -/

/-- From a history on, a catalog answers calls like a graph, and all answers are right. -/
theorem right_of_shows {h : History} (hs : c.Shows g) (ht : h.Tells g) (hright : h.Right)
    (calls : List (BlockCall × Iteration)) :
    (calls.foldl record (h, c)).1 = ((calls.map Prod.fst).foldl Graph.record (h, g)).1 ∧
      History.Right ((calls.map Prod.fst).foldl Graph.record (h, g)).1 := by
  induction calls generalizing h c g with
  | nil => exact ⟨rfl, hright⟩
  | cons call calls ih =>
    obtain ⟨hanswer, hs'⟩ := hs.reply ht.ordered ht.lt_size call.2 call.1
    rw [List.foldl_cons, List.map_cons, List.foldl_cons, record, Graph.record, hanswer]
    exact ih hs' (ht.reply call.1) ⟨ht.allows call.1, hright⟩

/-- Whatever calls are made, and however a table is gone through at each of them, a catalog answers
like a graph, and every answer is one that the history before it allows: all blocks that are there
are listed in ascending order of offset, and a block stays the same until it is removed. -/
theorem history_right (calls : List (BlockCall × Iteration)) :
    history calls = Graph.history (calls.map Prod.fst) ∧
      History.Right (Graph.history (calls.map Prod.fst)) :=
  right_of_shows .empty History.tells_empty trivial calls

end Catalog

end StackLift
