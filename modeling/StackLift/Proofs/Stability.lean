/-
# What instructions keep

Whatever an instruction does, it does by a few elementary changes: it tells something, marks a
block, takes a value off the stack or pushes a new one, asks for a block, or leaves the current
block.  What all of these keep, every instruction keeps, also if it fails.

* `Code.Provides` : what values may be made of;
* `Lift.Stable` : invariants that the elementary changes keep;
* `Lift.keeps_perform` : instructions keep them.
-/
import StackLift.Proofs.Stepping

namespace StackLift

/-! ## How computations end -/

section

variable {ε σ α : Type}

/-- The state that a computation ends in, whether it succeeds or not. -/
def after : EStateM.Result ε σ α → σ
  | .ok _ s => s
  | .error _ s => s

/-- A sequence of computations ends where the first one stops, or else where the next one ends. -/
theorem after_bind {β : Type} {I : σ → Prop} {x : EStateM ε σ α} {k : α → EStateM ε σ β} {s : σ}
    (hx : I (after (x s))) (hk : ∀ a s', x s = .ok a s' → I s' → I (after (k a s'))) :
    I (after ((x >>= k) s)) := by
  cases h : x s with
  | ok a s' =>
    rw [h] at hx
    rw [bind_of_ok h]
    exact hk a s' h hx
  | error e s' =>
    rw [h] at hx
    rw [bind_of_error h]
    exact hx

/-- Whether a loop was cut off because the count was used up. -/
def IsCut (r : EStateM.Result (Stop ε) σ α) : Prop := ∃ s, r = .error .endless s

/-- A computation with a result was not cut off. -/
theorem not_isCut_ok (a : α) (s : σ) : ¬ IsCut (.ok a s : EStateM.Result (Stop ε) σ α) := by
  rintro ⟨s', heq⟩
  cases heq

/-- A computation that stops for another reason was not cut off either. -/
theorem not_isCut_error {stop : Stop ε} (h : stop ≠ .endless) (s : σ) :
    ¬ IsCut (.error stop s : EStateM.Result (Stop ε) σ α) := by
  rintro ⟨s', heq⟩
  cases heq
  exact h rfl

end

/-! ## What a function provides -/

/-- All operators. -/
def Operator.all : List Operator :=
  [pos, neg, invert, not, add, sub, mul, floorDiv, trueDiv, mod, pow, lshift, rshift, and, or, xor,
    lt, le, eq, ne, gt, ge, iter, iterValid, iterNext]

/-- The operators that instructions stand for are all listed. -/
theorem Opcode.operator_mem {op : Opcode} {o : Operator}
    (h : op.effect? = some (.unary o) ∨ op.effect? = some (.binary o)) : o ∈ Operator.all := by
  unfold Opcode.effect? at h
  split at h <;> rcases h with h | h <;> cases h <;> decide

namespace Code

/-- Whether a line is unknown, the one before the first instruction, or that of an instruction. -/
def HasLine (c : Code) (line : Int) : Prop :=
  line = 0 ∨ line = Number.wrap (c.firstLine - 1) ∨ ∃ i ∈ c.instructions, i.line = line

/-- Whether what a value is made of, the operands apart, comes from a function.  The names of
keywords come from constants that are known. -/
def Provides (c : Code) (known : Constant → Prop) : Expr → Prop
  | .arg index name => ∃ k : Nat, index = k ∧ c.signature.args[k]? = some name
  | .const x => x ∈ c.consts
  | .global name => name ∈ c.names
  | .load name => name ∈ c.varnames
  | .store name _ => name ∈ c.varnames
  | .call callee args keywords => (∀ o, callee = some (.operator o) → o ∈ Operator.all) ∧
    args.length < 256 ∧ keywords.length < 256 ∧ ∀ k ∈ keywords, known (.str k.name)
  | .phi _ => True

end Code

/-! ## Invariants -/

namespace Lift

variable {α β : Type} {I : Lifter → Prop} {Q : α → Prop} {R : β → Prop} {x : Lift α}

/-- Whether a computation keeps an invariant, is not cut off, and has results with a property. -/
def Keeps (I : Lifter → Prop) (Q : α → Prop) (x : Lift α) : Prop :=
  ∀ s, I s → ¬ IsCut (x s) ∧ I (after (x s)) ∧ ∀ a s', x s = .ok a s' → Q a

/-- Two computations one after the other, of which the second one may rely on what the first one
returns. -/
theorem Keeps.bind {k : α → Lift β} (hx : Keeps I Q x) (hk : ∀ a, Q a → Keeps I R (k a)) :
    Keeps I R (x >>= k) := by
  intro s hs
  obtain ⟨hcut, hafter, hres⟩ := hx s hs
  cases h : x s with
  | ok a s' =>
    rw [h] at hafter
    rw [bind_of_ok h]
    exact hk a (hres a s' h) s' hafter
  | error e s' =>
    rw [h] at hcut hafter
    rw [bind_of_error h]
    refine ⟨not_isCut_error ?_ s', hafter, fun b s'' heq => by cases heq⟩
    rintro rfl
    exact hcut ⟨s', rfl⟩

/-- The invariant holds after a computation that succeeds, and its result has the property. -/
theorem Keeps.of_ok {s s' : Lifter} {a : α} (hx : Keeps I Q x) (h : x s = .ok a s') (hs : I s) :
    I s' ∧ Q a := by
  obtain ⟨-, hafter, hres⟩ := hx s hs
  rw [h] at hafter
  exact ⟨hafter, hres a s' h⟩

/-- A computation that succeeds keeps what holds of the state it ends in. -/
theorem keeps_of_ok {f : Lifter → α} {g : Lifter → Lifter} (h : ∀ s, x s = .ok (f s) (g s))
    (hg : ∀ s, I s → I (g s)) (hf : ∀ s, I s → Q (f s)) : Keeps I Q x := by
  intro s hs
  rw [h]
  refine ⟨not_isCut_ok _ _, hg s hs, fun a s' heq => ?_⟩
  cases heq
  exact hf s hs

/-- A computation that only returns a value. -/
theorem keeps_pure {a : α} (ha : Q a) : Keeps I Q (pure a) :=
  keeps_of_ok (fun _ => rfl) (fun _ hs => hs) fun _ _ => ha

/-- A look at the state returns a state of which the invariant holds. -/
theorem keeps_get : Keeps I I (get : Lift Lifter) :=
  keeps_of_ok (fun _ => rfl) (fun _ hs => hs) fun _ hs => hs

/-- Stopping changes no state, and it is not a cut unless it is for a count that was used up. -/
theorem keeps_throw {stop : Stop LiftError} (h : stop ≠ .endless) :
    Keeps I Q (throw stop : Lift α) := fun s hs =>
  ⟨not_isCut_error h s, hs, fun a s' heq => by cases heq⟩

/-- An error of the lifter is not a cut. -/
theorem keeps_fail (e : LiftError) : Keeps I Q (fail e : Lift α) := keeps_throw (by rintro ⟨⟩)

/-- A check that fails leaves the state as it was. -/
theorem keeps_orFault (r : Except Fault α) : Keeps I (fun _ => True) (orFault r) := by
  cases r with
  | ok a => exact keeps_pure trivial
  | error f => exact keeps_throw (by rintro ⟨⟩)

/-- Whether all elementary changes of a lifter keep an invariant, from which follows what the
function is and what is known of constants. -/
structure Stable (c : Code) (known : Constant → Prop) (I : Lifter → Prop) : Prop where
  code_eq : ∀ s, I s → s.code = c
  consts : ∀ s, I s → ∀ v x, (s.graph.definition v).expr = some (.const x) → known x
  tell : ∀ s (e : Trace.Event), I s → e.start? = none → e.step? = none → I (s.tell e)
  line : ∀ s n, I s → c.HasLine n → I { s with line := n }
  mark : ∀ s pending, I s → I { s with pending }
  peek : ∀ s, I s → I { s with graph := (s.graph.peek s.current s.line).2 }
  pop : ∀ s, I s → I { s with graph := (s.graph.pop s.current s.line).2 }
  emit : ∀ s b e, I s → c.Provides known e → I { s with graph := s.graph.emit b s.line e }
  ensure : ∀ s o, I s → I { s with graph := (s.graph.ensure o).2 }
  terminate : ∀ s t graph, I s → s.graph.terminate s.current s.line t = .ok graph →
    I { s with graph }

section

variable {c : Code} {known : Constant → Prop} {i : Instruction} (h : Stable c known I)

include h

/-- Telling keeps what is stable, but for events that start a walk or step an instruction. -/
theorem keeps_tell {e : Trace.Event} (hstart : e.start? = none) (hstep : e.step? = none) :
    Keeps I (fun _ => True) (tell e) :=
  keeps_of_ok (fun _ => rfl) (fun s hs => h.tell s e hs hstart hstep) fun _ _ => trivial

/-- What is told about a value from below the stack is neither a start nor a step. -/
theorem keeps_tellUnderflow (v : Operand) : Keeps I (fun _ => True) (tellUnderflow v) := by
  refine keeps_get.bind fun s _ => ?_
  cases v with
  | none => exact keeps_throw (by rintro ⟨⟩)
  | some u =>
    dsimp only
    cases (s.graph.definition u).phi? with
    | none => exact keeps_pure trivial
    | some p => exact keeps_tell h rfl rfl

/-- A value that was taken from the stack is told about before it is returned. -/
theorem keeps_taken (v : Operand) :
    Keeps I (fun _ => True) (tellUnderflow v >>= fun _ => pure v : Lift Operand) :=
  (keeps_tellUnderflow h v).bind fun _ _ => keeps_pure trivial

/-- What is stable is kept by popping. -/
theorem keeps_pop : Keeps I (fun _ => True) pop := fun s hs => keeps_taken h _ _ (h.pop s hs)

/-- What is stable is kept by a look at the stack. -/
theorem keeps_peek : Keeps I (fun _ => True) peek := fun s hs => keeps_taken h _ _ (h.peek s hs)

/-- A value may be pushed in any block if the function provides it. -/
theorem keeps_pushIn (b : BlockId) {e : Expr} (he : c.Provides known e) :
    Keeps I (fun _ => True) (pushIn b e) :=
  keeps_of_ok (fun _ => rfl) (fun s hs => h.emit s b e hs he) fun _ _ => trivial

/-- A value may be pushed in the block that is walked if the function provides it. -/
theorem keeps_pushNew {e : Expr} (he : c.Provides known e) :
    Keeps I (fun _ => True) (pushNew e) :=
  keeps_get.bind fun s _ => keeps_pushIn h s.current he

/-- Functions provide all operators, with less than 256 arguments. -/
theorem keeps_operate {o : Operator} (ho : o ∈ Operator.all) {args : List Operand}
    (hargs : args.length < 256) : Keeps I (fun _ => True) (operate o args) := by
  refine keeps_pushNew h ⟨fun o' ho' => ?_, hargs, by decide, fun k hk => by cases hk⟩
  cases ho'
  exact ho

/-- A block may be asked for at any offset. -/
theorem keeps_ensure (o : Int) : Keeps I (fun _ => True) (ensure o) :=
  keeps_of_ok (fun _ => rfl) (fun s hs => h.ensure s o hs) fun _ _ => trivial

/-- A block may be marked, also where that fails. -/
theorem keeps_schedule (b : BlockId) : Keeps I (fun _ => True) (schedule b) := by
  intro s hs
  unfold schedule
  rw [get_bind]
  cases s.pending.insert (s.graph.offset b) with
  | ok u pending => exact ⟨not_isCut_ok _ _, h.mark s pending hs, fun _ _ _ => trivial⟩
  | error f pending =>
    exact ⟨not_isCut_error (by rintro ⟨⟩) _, h.mark s pending hs, fun _ _ _ => trivial⟩

/-- The current block may be left; where it was left before, nothing changes. -/
theorem keeps_terminate (t : Terminator) : Keeps I (fun _ => True) (terminate t) := by
  intro s hs
  unfold terminate
  rw [get_bind]
  cases hok : s.graph.terminate s.current s.line t with
  | ok graph => exact ⟨not_isCut_ok _ _, h.terminate s t graph hs hok, fun _ _ _ => trivial⟩
  | error e => exact ⟨not_isCut_error (by rintro ⟨⟩) _, hs, fun _ _ _ => trivial⟩

theorem keeps_jumpTo (b : BlockId) : Keeps I (fun _ => True) (jumpTo b) :=
  (keeps_schedule h b).bind fun _ _ => keeps_terminate h _

/-- Both blocks are marked before the current one is left for them. -/
theorem keeps_branchTo (cond : Operand) (b b' : BlockId) :
    Keeps I (fun _ => True) (branchTo cond b b') :=
  (keeps_schedule h b).bind fun _ _ => (keeps_schedule h b').bind fun _ _ => keeps_terminate h _

/-! ## Operands -/

omit h in
/-- What an argument picks is an entry of the table. -/
theorem mem_of_pick?_eq_some {table : List α} {n : Int} {a : α} (ha : pick? table n = some a) :
    a ∈ table := by
  unfold pick? at ha
  split at ha
  · cases ha
  · exact List.mem_of_getElem? ha

/-- The name of a local variable is one of those in the code. -/
theorem keeps_localName : Keeps I (fun name => name ∈ c.varnames) (localName i) := by
  refine keeps_get.bind fun s hs => ?_
  cases hname : pick? s.code.varnames i.arg with
  | some name => exact keeps_pure (h.code_eq s hs ▸ mem_of_pick?_eq_some hname)
  | none => exact keeps_fail _

/-- The name of a keyword is a constant of the graph. -/
theorem keeps_keywordName (v : Operand) :
    Keeps I (fun name => known (.str name)) (keywordName i v) := by
  refine keeps_get.bind fun s hs => ?_
  dsimp only
  split
  · rename_i name hname
    obtain ⟨u, -, hu⟩ := Option.bind_eq_some_iff.1 hname
    exact keeps_pure (h.consts s hs u _ hu)
  · exact keeps_fail _
  · exact keeps_fail _

/-- As many arguments are popped as were asked for. -/
theorem keeps_popArgs (n : Nat) (after : List Operand) :
    Keeps I (fun vs => vs.length = n + after.length) (popArgs n after) := by
  induction n generalizing after with
  | zero => exact keeps_pure (Nat.zero_add _).symm
  | succ n ih =>
    refine (keeps_pop h).bind fun v _ => ?_
    rw [Nat.succ_add_eq_add_succ]
    exact ih (v :: after)

/-- As many keywords are popped as were asked for, and their names are known constants. -/
theorem keeps_popKeywords (n : Nat) {after : List Keyword}
    (hafter : ∀ k ∈ after, known (.str k.name)) :
    Keeps I (fun ks => ks.length = n + after.length ∧ ∀ k ∈ ks, known (.str k.name))
      (popKeywords i n after) := by
  induction n generalizing after with
  | zero => exact keeps_pure ⟨(Nat.zero_add _).symm, hafter⟩
  | succ n ih =>
    refine (keeps_pop h).bind fun value _ => (keeps_pop h).bind fun key _ =>
      (keeps_keywordName h key).bind fun name hname => ?_
    rw [Nat.succ_add_eq_add_succ]
    refine ih fun k hk => ?_
    rcases List.mem_cons.1 hk with rfl | hk
    · exact hname
    · exact hafter k hk

/-! ## Instructions -/

theorem keeps_unary {o : Operator} (ho : o ∈ Operator.all) : Keeps I (fun _ => True) (unary o) :=
  (keeps_pop h).bind fun _ _ => keeps_operate h ho (by simp)

/-- Both operands of a binary operator are popped before it is pushed. -/
theorem keeps_binary {o : Operator} (ho : o ∈ Operator.all) :
    Keeps I (fun _ => True) (binary o) :=
  (keeps_pop h).bind fun _ _ => (keeps_pop h).bind fun _ _ => keeps_operate h ho (by simp)

/-- A call has less than 256 arguments and less than 256 keywords, whatever its argument is. -/
theorem keeps_call : Keeps I (fun _ => True) (call i) := by
  refine (keeps_popKeywords h _ fun k hk => by cases hk).bind fun keywords hkeywords =>
    (keeps_popArgs h _ []).bind fun args hargs => (keeps_pop h).bind fun callee _ =>
      keeps_pushNew h ⟨fun o ho => ?_, ?_, ?_, hkeywords.2⟩
  · cases callee <;> cases ho
  · rw [hargs, positionalCount, List.length_nil]
    omega
  · rw [hkeywords.1, keywordCount, List.length_nil]
    omega

/-- The header of a loop looks at its iterator, and the body begins with the next element of it. -/
theorem keeps_forLoop : Keeps I (fun _ => True) (forLoop i) := by
  refine (keeps_peek h).bind fun iterator _ => (keeps_ensure h _).bind fun exit _ =>
    (keeps_ensure h _).bind fun body _ => keeps_get.bind fun s _ =>
      (keeps_orFault _).bind fun walked _ => ?_
  have hrest : Keeps I (fun _ => True) (do
      operate .iterValid [iterator]
      let cond ← pop
      branchTo cond body exit
      pushIn body (.call (some (.operator .iterNext)) [iterator] []) : Lift Unit) := by
    refine (keeps_operate h (by decide) (by simp)).bind fun _ _ => (keeps_pop h).bind fun cond _ =>
      (keeps_branchTo h cond body exit).bind fun _ _ =>
        keeps_pushIn h body ⟨fun o ho => ?_, by simp, by decide, fun k hk => by cases hk⟩
    cases ho
    decide
  cases walked with
  | true => exact (keeps_throw (by rintro ⟨⟩)).bind fun _ (_ : True) => hrest
  | false => exact hrest

/-- A branch pops its condition or looks at it, and asks for two blocks in either order. -/
theorem keeps_branch (pops jumpsOn : Bool) : Keeps I (fun _ => True) (branch pops jumpsOn i) := by
  have hfork : ∀ (o o' : Int) (k : BlockId → BlockId → Lift Unit),
      (∀ a a', Keeps I (fun _ => True) (k a a')) →
        Keeps I (fun _ => True) (ensure o >>= fun a => ensure o' >>= fun a' => k a a') :=
    fun o o' k hk => (keeps_ensure h o).bind fun a _ => (keeps_ensure h o').bind fun a' _ => hk a a'
  cases pops <;> cases jumpsOn
  · exact (keeps_peek h).bind fun cond _ => hfork _ _ _ fun a a' => keeps_branchTo h cond a a'
  · exact (keeps_peek h).bind fun cond _ => hfork _ _ _ fun a a' => keeps_branchTo h cond a a'
  · exact (keeps_pop h).bind fun cond _ => hfork _ _ _ fun a a' => keeps_branchTo h cond a a'
  · exact (keeps_pop h).bind fun cond _ => hfork _ _ _ fun a a' => keeps_branchTo h cond a a'

/-- A return leaves the current block, with the value that was popped or without it. -/
theorem keeps_ret : Keeps I (fun _ => True) ret := by
  refine (keeps_pop h).bind fun v _ => keeps_get.bind fun s _ => ?_
  dsimp only
  split
  · exact keeps_terminate h _
  · exact keeps_terminate h _

/-- Instructions keep what the elementary changes keep. -/
theorem keeps_perform {e : Effect} (he : i.op.effect? = some e) :
    Keeps I (fun _ => True) (perform i e) := by
  cases e with
  | nothing => exact keeps_pure trivial
  | loadConst =>
    refine keeps_get.bind fun s hs => ?_
    cases hx : pick? s.code.consts i.arg with
    | some x => exact keeps_pushNew h (h.code_eq s hs ▸ mem_of_pick?_eq_some hx)
    | none => exact keeps_fail _
  | loadLocal => exact (keeps_localName h).bind fun name hname => keeps_pushNew h hname
  | loadGlobal =>
    refine keeps_get.bind fun s hs => ?_
    cases hname : pick? s.code.names i.arg with
    | some name => exact keeps_pushNew h (h.code_eq s hs ▸ mem_of_pick?_eq_some hname)
    | none => exact keeps_fail _
  | storeLocal =>
    exact (keeps_localName h).bind fun name hname => (keeps_pop h).bind fun v _ =>
      keeps_pushNew h hname
  | unary o => exact keeps_unary h (Opcode.operator_mem (.inl he))
  | binary o => exact keeps_binary h (Opcode.operator_mem (.inr he))
  | compare =>
    have hall : ∀ o ∈ Operator.comparisons, o ∈ Operator.all := by decide
    unfold perform compare
    cases ho : pick? Operator.comparisons i.arg with
    | some o => exact keeps_binary h (hall o (mem_of_pick?_eq_some ho))
    | none => exact keeps_fail _
  | call => exact keeps_call h
  | forLoop => exact keeps_forLoop h
  | branch pops jumpsOn => exact keeps_branch h pops jumpsOn
  | jump => exact (keeps_ensure h _).bind fun target _ => keeps_jumpTo h target
  | ret => exact keeps_ret h

/-- So does pushing the arguments. -/
theorem keeps_pushArguments : Keeps I (fun _ => True) pushArguments := by
  refine keeps_get.bind fun s hs => Keeps.bind (Q := fun _ => True) ?_ fun _ _ => ?_
  · rw [h.code_eq s hs]
    exact keeps_of_ok (fun _ => rfl) (fun s hs => h.line s _ hs (.inr (.inl rfl)))
      fun _ _ => trivial
  · have harg : ∀ x ∈ c.signature.args.zipIdx, c.Provides known (.arg x.2 x.1) := fun x hx =>
      ⟨x.2, rfl, (List.mem_zipIdx_iff_getElem? ..).1 hx⟩
    rw [h.code_eq s hs]
    revert harg
    generalize c.signature.args.zipIdx = l
    intro harg
    induction l with
    | nil => exact keeps_pure trivial
    | cons x l ih =>
      exact (keeps_pushNew h (harg x List.mem_cons_self)).bind fun _ _ =>
        ih fun y hy => harg y (List.mem_cons_of_mem _ hy)

end

end Lift

end StackLift
