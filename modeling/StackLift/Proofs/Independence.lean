/-
# What a lift does not look at

A walk asks only for instructions that control reaches, and reads nothing else of the code but its
tables, its parameters and its first line.  So a lift does the same with another code in which just
the instructions differ that control does not reach.

* `Lifter.reading` : a lifter with another code and other options;
* `Lift.Ignores` : computations that do the same then;
* `Lift.traverse_reading` : so do the walks of all blocks;
* `Lifter.lift_of_agrees` : so does a lift, if the options are the same.
-/
import StackLift.Proofs.Passes

namespace StackLift

/-! ## Another code and other options -/

/-- The result with another state. -/
def onState {ε σ α : Type} (f : σ → σ) : EStateM.Result ε σ α → EStateM.Result ε σ α
  | .ok a s => .ok a (f s)
  | .error e s => .error e (f s)

/-- A sequence of computations does the same with a part of the state replaced if each of them
does. -/
theorem bind_onState {ε σ α β : Type} {f : σ → σ} {x x' : EStateM ε σ α} {k k' : α → EStateM ε σ β}
    {s : σ} (hx : x' (f s) = onState f (x s))
    (hk : ∀ a s', x s = .ok a s' → k' a (f s') = onState f (k a s')) :
    (x' >>= k') (f s) = onState f ((x >>= k) s) := by
  cases hxs : x s with
  | ok a s' =>
    rw [hxs] at hx
    rw [bind_of_ok hxs, bind_of_ok hx]
    exact hk a s' hxs
  | error e s' =>
    rw [hxs] at hx
    rw [bind_of_error hxs, bind_of_error hx]
    rfl

/-- The lifter with another code and other options. -/
def Lifter.reading (c : Code) (options : LiftOptions) (s : Lifter) : Lifter :=
  { s with code := c, options }

/-- Whether two codes have in common all that is read besides the instructions. -/
structure Code.SameTables (c c' : Code) : Prop where
  signature_eq : c'.signature = c.signature
  consts_eq : c'.consts = c.consts
  varnames_eq : c'.varnames = c.varnames
  names_eq : c'.names = c.names
  firstLine_eq : c'.firstLine = c.firstLine
  length_eq : c'.instructions.length = c.instructions.length

namespace Lift

open Lifter

/-- Whether a computation does with another code and other options what another one does here. -/
def Mimics {α : Type} (c : Code) (options : LiftOptions) (x' x : Lift α) (s : Lifter) : Prop :=
  x' (s.reading c options) = onState (reading c options) (x s) ∧
    ∀ a s', x s = .ok a s' → s'.code = s.code

/-- Whether a computation does the same with another code and other options. -/
abbrev Ignores {α : Type} (c : Code) (options : LiftOptions) (x : Lift α) (s : Lifter) : Prop :=
  Mimics c options x x s

section

variable {α β : Type} {c : Code} {options : LiftOptions} {s : Lifter}

/-- Two computations go on alike if they have done so up to there. -/
theorem Mimics.bind {x x' : Lift α} {k k' : α → Lift β} (hx : Mimics c options x' x s)
    (hk : ∀ a s', x s = .ok a s' → s'.code = s.code → Mimics c options (k' a) (k a) s') :
    Mimics c options (x' >>= k') (x >>= k) s := by
  refine ⟨bind_onState hx.1 fun a s' h => (hk a s' h (hx.2 a s' h)).1, fun b s'' h => ?_⟩
  obtain ⟨a, s', hxs, h⟩ := bind_eq_ok.1 h
  have hcode := hx.2 a s' hxs
  exact ((hk a s' hxs hcode).2 b s'' h).trans hcode

/-- What is ignored by two computations is ignored by both one after the other. -/
theorem Ignores.bind {x : Lift α} {k : α → Lift β} (hx : Ignores c options x s)
    (hk : ∀ a s', s'.code = s.code → Ignores c options (k a) s') :
    Ignores c options (x >>= k) s :=
  Mimics.bind hx fun a s' _ => hk a s'

/-- The state can be looked at. -/
theorem Mimics.get {k k' : Lifter → Lift α}
    (hk : Mimics c options (k' (s.reading c options)) (k s) s) :
    Mimics c options (MonadState.get >>= k') (MonadState.get >>= k) s := hk

/-- A look at the state is harmless where the rest does not depend on the code or the options. -/
theorem Ignores.get {k : Lifter → Lift α} (heq : k (s.reading c options) = k s)
    (hk : Ignores c options (k s) s) : Ignores c options (MonadState.get >>= k) s := by
  refine Mimics.get ?_
  rw [heq]
  exact hk

theorem ignores_pure (a : α) : Ignores c options (pure a) s :=
  ⟨rfl, fun b s' h => by cases h; rfl⟩

/-- Stopping looks at nothing. -/
theorem ignores_throw (stop : Stop LiftError) : Ignores c options (throw stop : Lift α) s :=
  ⟨rfl, fun a s' h => by cases h⟩

theorem ignores_fail (e : LiftError) : Ignores c options (fail e : Lift α) s := ignores_throw _

theorem ignores_orFault (r : Except Fault α) : Ignores c options (orFault r) s := by
  cases r with
  | ok a => exact ignores_pure a
  | error f => exact ignores_throw _

theorem ignores_tell (e : Trace.Event) : Ignores c options (tell e) s :=
  ⟨rfl, fun a s' h => by cases h; rfl⟩

/-- Work on the graph looks at the graph only. -/
theorem ignores_onGraph (f : Graph → α × Graph) : Ignores c options (onGraph f) s :=
  ⟨rfl, fun a s' h => by cases h; rfl⟩

theorem ignores_pushIn (b : BlockId) (e : Expr) : Ignores c options (pushIn b e) s :=
  ⟨rfl, fun a s' h => by cases h; rfl⟩

/-- A value is made in the current block, on the current line. -/
theorem ignores_pushNew (e : Expr) : Ignores c options (pushNew e) s :=
  ⟨rfl, fun a s' h => by cases h; rfl⟩

/-- What is told about a value depends on its phi only. -/
theorem ignores_tellUnderflow (v : Operand) : Ignores c options (tellUnderflow v) s := by
  refine .get rfl ?_
  cases v with
  | none => exact ignores_throw _
  | some u =>
    dsimp only
    cases (s.graph.definition u).phi? with
    | some p => exact ignores_tell _
    | none => exact ignores_pure ()

theorem ignores_pop : Ignores c options pop s :=
  .get rfl ((ignores_onGraph _).bind fun v _ _ => (ignores_tellUnderflow v).bind fun _ _ _ =>
    ignores_pure v)

theorem ignores_peek : Ignores c options peek s :=
  .get rfl ((ignores_onGraph _).bind fun v _ _ => (ignores_tellUnderflow v).bind fun _ _ _ =>
    ignores_pure v)

theorem ignores_ensure (o : Int) : Ignores c options (ensure o) s := ignores_onGraph _

/-- A block is marked by its offset, which is in the graph. -/
theorem ignores_schedule (b : BlockId) : Ignores c options (schedule b) s := by
  unfold Ignores Mimics schedule
  rw [get_bind, get_bind]
  have hsame : (s.reading c options).pending.insert ((s.reading c options).graph.offset b) =
    s.pending.insert (s.graph.offset b) := rfl
  cases hinsert : s.pending.insert (s.graph.offset b) with
  | ok u pending =>
    rw [hsame, hinsert]
    exact ⟨rfl, fun a s' h => by cases h; rfl⟩
  | error f pending =>
    rw [hsame, hinsert]
    exact ⟨rfl, fun a s' h => by cases h⟩

/-- A block is left on the current line. -/
theorem ignores_terminate (t : Terminator) : Ignores c options (terminate t) s := by
  unfold Ignores Mimics terminate
  rw [get_bind, get_bind]
  have hsame : (s.reading c options).graph.terminate (s.reading c options).current
    (s.reading c options).line t = s.graph.terminate s.current s.line t := rfl
  cases hterm : s.graph.terminate s.current s.line t with
  | ok graph =>
    rw [hsame, hterm]
    exact ⟨rfl, fun a s' h => by cases h; rfl⟩
  | error i =>
    rw [hsame, hterm]
    exact ⟨rfl, fun a s' h => by cases h⟩

theorem ignores_jumpTo (b : BlockId) : Ignores c options (jumpTo b) s :=
  (ignores_schedule b).bind fun _ _ _ => ignores_terminate _

theorem ignores_branchTo (cond : Operand) (b b' : BlockId) :
    Ignores c options (branchTo cond b b') s :=
  (ignores_schedule b).bind fun _ _ _ => (ignores_schedule b').bind fun _ _ _ =>
    ignores_terminate _

end

/-! ## Instructions -/

section

variable {c : Code} {options : LiftOptions} {s : Lifter} {i : Instruction}

/-- A code with the same tables has the same local variables. -/
theorem ignores_localName (h : s.code.SameTables c) : Ignores c options (localName i) s := by
  refine .get ?_ ?_
  · rw [show (s.reading c options).code.varnames = _ from h.varnames_eq]
  · cases pick? s.code.varnames i.arg with
    | some name => exact ignores_pure name
    | none => exact ignores_fail _

/-- The name of a keyword is read from the graph. -/
theorem ignores_keywordName (v : Operand) : Ignores c options (keywordName i v) s := by
  refine .get rfl ?_
  dsimp only
  split
  · exact ignores_pure _
  · exact ignores_fail _
  · exact ignores_fail _

theorem ignores_popArgs (n : Nat) (after : List Operand) :
    Ignores c options (popArgs n after) s := by
  induction n generalizing after s with
  | zero => exact ignores_pure after
  | succ n ih => exact ignores_pop.bind fun v _ _ => ih (v :: after)

/-- Keywords are popped from the graph, and their names are read there. -/
theorem ignores_popKeywords (n : Nat) (after : List Keyword) :
    Ignores c options (popKeywords i n after) s := by
  induction n generalizing after s with
  | zero => exact ignores_pure after
  | succ n ih =>
    exact ignores_pop.bind fun value _ _ => ignores_pop.bind fun key _ _ =>
      (ignores_keywordName key).bind fun name _ _ => ih (⟨name, value⟩ :: after)

theorem ignores_binary (o : Operator) : Ignores c options (binary o) s :=
  ignores_pop.bind fun _ _ _ => ignores_pop.bind fun _ _ _ => ignores_pushNew _

/-- A call takes all it needs from its argument and the stack. -/
theorem ignores_call : Ignores c options (call i) s :=
  (ignores_popKeywords _ []).bind fun _ _ _ => (ignores_popArgs _ []).bind fun _ _ _ =>
    ignores_pop.bind fun _ _ _ => ignores_pushNew _

/-- Whether the body was walked is told by the offsets that were, not by the code. -/
theorem ignores_forLoop : Ignores c options (forLoop i) s := by
  refine ignores_peek.bind fun iterator _ _ => (ignores_ensure _).bind fun exit _ _ =>
    (ignores_ensure _).bind fun body s₃ _ => .get rfl ?_
  refine (ignores_orFault _).bind fun walked _ _ => ?_
  have hrest : ∀ s, Ignores c options (do
      operate .iterValid [iterator]
      let cond ← pop
      branchTo cond body exit
      pushIn body (.call (some (.operator .iterNext)) [iterator] []) : Lift Unit) s := fun s =>
    (ignores_pushNew _).bind fun _ _ _ => ignores_pop.bind fun cond _ _ =>
      (ignores_branchTo cond body exit).bind fun _ _ _ => ignores_pushIn body _
  cases walked with
  | true => exact (ignores_throw _).bind fun _ _ _ => hrest _
  | false => exact hrest _

/-- The blocks of a branch are asked for by the offsets that the instruction has. -/
theorem ignores_branch (pops jumpsOn : Bool) : Ignores c options (branch pops jumpsOn i) s := by
  have hfork : ∀ (o o' : Int) (k : BlockId → BlockId → Lift Unit) s,
      (∀ a a' s, Ignores c options (k a a') s) →
        Ignores c options (ensure o >>= fun a => ensure o' >>= fun a' => k a a') s :=
    fun o o' k s hk => (ignores_ensure o).bind fun a _ _ => (ignores_ensure o').bind fun a' _ _ =>
      hk a a' _
  cases pops <;> cases jumpsOn
  · exact ignores_peek.bind fun cond _ _ => hfork _ _ _ _ fun a a' _ => ignores_branchTo cond a a'
  · exact ignores_peek.bind fun cond _ _ => hfork _ _ _ _ fun a a' _ => ignores_branchTo cond a a'
  · exact ignores_pop.bind fun cond _ _ => hfork _ _ _ _ fun a a' _ => ignores_branchTo cond a a'
  · exact ignores_pop.bind fun cond _ _ => hfork _ _ _ _ fun a a' _ => ignores_branchTo cond a a'

/-- Whether a value is returned depends on the value that was popped. -/
theorem ignores_ret : Ignores c options ret s := by
  refine ignores_pop.bind fun v s _ => .get rfl ?_
  dsimp only
  split
  · exact ignores_terminate _
  · exact ignores_terminate _

/-- Of the code, effects read the tables only. -/
theorem ignores_perform (h : s.code.SameTables c) (e : Effect) :
    Ignores c options (perform i e) s := by
  cases e with
  | nothing => exact ignores_pure ()
  | loadConst =>
    refine .get ?_ ?_
    · rw [show (s.reading c options).code.consts = _ from h.consts_eq]
    · cases pick? s.code.consts i.arg with
      | some x => exact ignores_pushNew _
      | none => exact ignores_fail _
  | loadLocal => exact (ignores_localName h).bind fun name _ _ => ignores_pushNew _
  | loadGlobal =>
    refine .get ?_ ?_
    · rw [show (s.reading c options).code.names = _ from h.names_eq]
    · cases pick? s.code.names i.arg with
      | some name => exact ignores_pushNew _
      | none => exact ignores_fail _
  | storeLocal =>
    exact (ignores_localName h).bind fun name _ _ => ignores_pop.bind fun v _ _ =>
      ignores_pushNew _
  | unary o => exact ignores_pop.bind fun v _ _ => ignores_pushNew _
  | binary o => exact ignores_binary o
  | compare =>
    unfold perform compare
    cases pick? Operator.comparisons i.arg with
    | some o => exact ignores_binary o
    | none => exact ignores_fail _
  | call => exact ignores_call
  | forLoop => exact ignores_forLoop
  | branch pops jumpsOn => exact ignores_branch pops jumpsOn
  | jump => exact (ignores_ensure _).bind fun target _ _ => ignores_jumpTo target
  | ret => exact ignores_ret

/-- An instruction with its own arguments needs the tables of the code and nothing else of it. -/
theorem ignores_step (h : s.code.SameTables c) (i : Instruction) :
    Ignores c options (step i) s := by
  have hline : Ignores c options (modify fun s => { s with line := i.line } : Lift Unit) s :=
    ⟨rfl, fun a s' h => by cases h; rfl⟩
  refine hline.bind fun _ s₁ h₁ => .get rfl ((ignores_tell _).bind fun _ s₂ h₂ => ?_)
  cases i.op.effect? with
  | some e => exact ignores_perform ((h₂.trans h₁).symm ▸ h) e
  | none => exact ignores_fail _

theorem ignores_forM {α : Type} {f : α → Lift Unit} (hf : ∀ a s, Ignores c options (f a) s)
    (l : List α) (s : Lifter) : Ignores c options (l.forM f) s := by
  induction l generalizing s with
  | nil => exact ignores_pure ()
  | cons a l ih => exact (hf a s).bind fun _ s' _ => ih s'

/-- The arguments and the first line are part of what is the same. -/
theorem ignores_pushArguments (h : s.code.SameTables c) : Ignores c options pushArguments s := by
  refine .get ?_ ?_
  · dsimp only
    rw [show (s.reading c options).code = c from rfl, h.firstLine_eq, h.signature_eq]
  · refine Ignores.bind ⟨rfl, fun a s' hok => by cases hok; rfl⟩ fun _ s₁ _ => ?_
    exact ignores_forM (fun _ _ => ignores_pushNew _) _ s₁

end

/-! ## Walks -/

section

variable {c c' : Code} {options : LiftOptions} {done : List Int} {b : BlockId} {o p : Int}
  {run : List Instruction} {s : Lifter}

/-- Walking on asks for instructions that control reaches. -/
theorem walkFrom_reading (hc : c.Sound) (htables : c.SameTables c')
    (hagree : ∀ o, c.Reaches o → c'.at? o = c.at? o) {fuel : Nat} (h : Walking c done b o run s)
    (hrun : c.blockRun o = run ++ c.blockRun p) (hreach : c.Reaches p) :
    Mimics c' options (walkFrom c'.at? p fuel) (walkFrom c.at? p fuel) s := by
  -- the offset asked for next is a successor of this one, so control reaches it as well
  induction fuel generalizing p run s with
  | zero => exact ignores_throw _
  | succ fuel ih =>
    unfold walkFrom
    rw [hagree p hreach]
    cases hi : c.at? p with
    | none => exact Ignores.get rfl (ignores_fail _)
    | some i =>
      have htables' : s.code.SameTables c' := h.progress.code_eq.symm ▸ htables
      refine Mimics.bind (ignores_step htables' i) fun _ s₁ hstep _ => ?_
      obtain ⟨-, -, hcurrent, hcases⟩ := step_walking hc h hrun hi hstep
      refine Mimics.get ?_
      rw [show (s₁.reading c' options).graph = s₁.graph from rfl,
        show (s₁.reading c' options).current = s₁.current from rfl, hcurrent]
      rcases hcases with ⟨hflow, hwalking, -, -⟩ | ⟨-, -, -, -, hterminated⟩
      · rw [hwalking.isTerminated_eq]
        rcases next_cases hc hwalking hi hflow with ⟨a, hfind, -⟩ | ⟨hfind, -, hrunp⟩
        · rw [hfind]
          exact ignores_jumpTo a
        · rw [hfind]
          refine ih hwalking (by rw [hrun, hrunp]; simp) (.step hreach hi ?_)
          rw [Instruction.successors, hflow]
          exact List.mem_singleton_self _
      · rw [hterminated]
        exact ignores_pure ()

/-- Walking a block of which control reaches the beginning. -/
theorem walk_reading (hc : c.Sound) (htables : c.SameTables c')
    (hagree : ∀ o, c.Reaches o → c'.at? o = c.at? o) (h : Progress c done none s)
    (ho : s.pending.Holds o) (hnot : ¬ s.processed.Holds o) :
    Mimics c' options (walk c'.at? o) (walk c.at? o) { s with
      pending := s.pending.clearBit o.toNat
      processed := s.processed.setBit o.toNat } := by
  have hmarks : Marks c done s.pending s.processed := by simpa using h.marks
  have hreach := hmarks.reaches o (.inl ho)
  refine Mimics.bind (ignores_ensure o) fun b s₁ hensure _ => ?_
  obtain ⟨hprogress, -, -, hoffset, hunwalked⟩ := h.begin hc ho hnot hensure
  refine Mimics.bind ⟨rfl, fun a s' hok => by cases hok; rfl⟩ fun _ s₂ hcurrent _ => ?_
  cases hcurrent
  refine Mimics.bind (ignores_tell _) fun _ s₃ htell _ => ?_
  cases htell
  have henter : ∀ e s₄, (if o = 0 then pushArguments else pure ())
      ({ s₁ with current := b }.tell e) = .ok () s₄ → Walking c done b o [] s₄ := by
    intro e s₄ hok
    have hprogress₁ : Progress c done (some b) ({ s₁ with current := b }.tell e) :=
      hprogress.of_eq rfl rfl rfl rfl
    exact (enter_walking hc hprogress₁ rfl hoffset hunwalked hok).1
  -- what comes after the arguments is the same with and without them
  have hrest : ∀ s₄ (tail : Lift Unit), Walking c done b o [] s₄ →
      (∀ s, Ignores c' options tail s) → Mimics c' options
        (get >>= fun s => walkFrom c'.at? o (s.code.instructions.length + 1) >>= fun _ => tail)
        (get >>= fun s => walkFrom c.at? o (s.code.instructions.length + 1) >>= fun _ => tail)
        s₄ := by
    intro s₄ tail hwalking htail
    refine Mimics.get ?_
    rw [show (s₄.reading c' options).code = c' from rfl, htables.length_eq,
      hwalking.progress.code_eq]
    exact (walkFrom_reading hc htables hagree hwalking (by simp) hreach).bind fun _ s' _ _ =>
      htail s'
  by_cases hzero : o = 0
  · simp only [if_pos hzero] at henter ⊢
    refine Mimics.bind (ignores_pushArguments ?_) fun _ s₄ hargs _ => ?_
    · exact hprogress.code_eq.symm ▸ htables
    · exact hrest s₄ _ (henter _ s₄ hargs) fun s => .get rfl (ignores_tell _)
  · simp only [if_neg hzero] at henter ⊢
    exact hrest _ _ (henter _ _ rfl) fun s => .get rfl (ignores_tell _)

/-- Of the code, walks read the tables, the parameters, the first line and the instructions that
control reaches. -/
theorem traverse_reading (hc : c.Sound) (htables : c.SameTables c')
    (hagree : ∀ o, c.Reaches o → c'.at? o = c.at? o) {fuel : Nat} (h : Progress c done none s)
    (hsteps : s.steps = c.stepsOf done) :
    Mimics c' options (traverse c'.at? fuel) (traverse c.at? fuel) s := by
  induction fuel generalizing done s with
  | zero => exact ignores_throw _
  | succ fuel ih =>
    have hmarks : Marks c done s.pending s.processed := by simpa using h.marks
    unfold Mimics
    cases hfirst : s.pending.first? with
    | none =>
      rw [traverse_of_first?_eq_none _ hfirst,
        traverse_of_first?_eq_none (s := s.reading c' options) _ hfirst]
      exact ignores_pure ()
    | some o =>
      -- both take the same offset, and both walked it before or neither did
      obtain ⟨ho, hcases⟩ := traverse_of_first?_eq_some hc hmarks c.at? hfirst fuel
      obtain ⟨-, hcases'⟩ := traverse_of_first?_eq_some (s := s.reading c' options) hc hmarks
        c'.at? hfirst fuel
      rcases hcases with ⟨hseen, heq⟩ | ⟨hnot, heq⟩
      · rw [heq, (hcases'.resolve_right fun hno => hno.1 hseen).2]
        exact ih (h.drop hseen) hsteps
      · rw [heq, (hcases'.resolve_left fun hyes => hnot hyes.1).2]
        refine (walk_reading hc htables hagree h ho hnot).bind fun _ s₁ hwalk _ => ?_
        obtain ⟨h₁, hsteps₁, -, -⟩ := walk_progress hc h ho hnot hsteps rfl hwalk
        exact ih h₁ hsteps₁

end

/-! ## Passes -/

section

variable {c : Code} {s : Lifter}

/-- The check of the parameters looks at these only. -/
theorem ignores_checkSignature (signature : Signature) (options : LiftOptions) :
    Ignores c options (checkSignature signature) s := by
  unfold checkSignature
  by_cases h₁ : signature.defaults ≠ 0
  · rw [if_pos h₁]
    exact ⟨rfl, fun a s' h => by cases h⟩
  rw [if_neg h₁]
  by_cases h₂ : signature.varargs ≠ ""
  · rw [if_pos h₂]
    exact ⟨rfl, fun a s' h => by cases h⟩
  rw [if_neg h₂]
  by_cases h₃ : signature.kwargs ≠ ""
  · rw [if_pos h₃]
    exact ⟨rfl, fun a s' h => by cases h⟩
  rw [if_neg h₃]
  exact ignores_pure ()

/-- Of the options, it matters whether dead blocks are kept. -/
theorem ignores_findDominators : Ignores c s.options findDominators s := by
  refine Mimics.get (Mimics.bind (ignores_orFault _) fun solved s₁ hsolve _ => ?_)
  cases (orFault_ok hsolve).2
  refine Mimics.bind (ignores_orFault _) fun backbone s₂ hbackbone _ => ?_
  cases (orFault_ok hbackbone).2
  dsimp only
  by_cases hkeep : s.options.keepDead = true
  · rw [if_pos (show (tellAll (s.reading c s.options) _).options.keepDead = true from hkeep),
      if_pos (show (s.tellAll _).options.keepDead = true from hkeep)]
    exact ⟨rfl, fun a s' h => by cases h; rfl⟩
  · rw [if_neg (show ¬ (tellAll (s.reading c s.options) _).options.keepDead = true from hkeep),
      if_neg (show ¬ (s.tellAll _).options.keepDead = true from hkeep),
      show (tellAll (s.reading c s.options) _).graph = s.graph from rfl,
      show (s.tellAll _).graph = s.graph from rfl]
    cases s.graph.removeDead with
    | error i => exact ignores_throw _
    | ok graph =>
      refine Mimics.bind (ignores_orFault _) fun backbone' s₃ hbackbone' _ => ?_
      cases (orFault_ok hbackbone').2
      exact ⟨rfl, fun a s' h => by cases h; rfl⟩

/-- The limit depends on the number of instructions and of arguments, which are the same. -/
theorem ignores_completePhis (h : s.code.SameTables c) (options : LiftOptions) :
    Ignores c options completePhis s := by
  have hlimit : depthLimit c = depthLimit s.code := by
    rw [depthLimit, depthLimit, h.length_eq, h.signature_eq]
  refine Mimics.get ?_
  rw [show (s.reading c options).code = c from rfl, hlimit,
    show (s.reading c options).graph = s.graph from rfl]
  cases s.graph.completePhis (depthLimit s.code) with
  | ok u r => exact ⟨rfl, fun a s' h => by cases h; rfl⟩
  | error stop r =>
    refine Mimics.bind ⟨rfl, fun a s' h => by cases h; rfl⟩ fun _ _ _ _ => ?_
    cases stop with
    | error e => exact ignores_fail _
    | fault f => exact ignores_throw _
    | endless => exact ignores_throw _

/-- The last check looks at the graph and at what was found. -/
theorem ignores_finish (options : LiftOptions) : Ignores c options finish s := by
  refine Ignores.get rfl ?_
  cases s.graph.verifyPhis with
  | error i => exact ignores_throw _
  | ok u => exact ignores_tell _

/-- The passes, taken together. -/
theorem ignores_passes (h : s.code.SameTables c) : Ignores c s.options
    (findDominators >>= fun _ => completePhis >>= fun _ => finish) s := by
  refine Mimics.bind ignores_findDominators fun _ s₁ hfind hcode => ?_
  refine Mimics.bind (ignores_completePhis (hcode.symm ▸ h) _) fun _ s₂ _ _ => ?_
  exact ignores_finish _

end

end Lift

/-! ## A lift -/

/-- Whether two codes differ in nothing but the instructions that control does not reach in the
first of them, which stand at the same offsets. -/
structure Code.Agrees (c c' : Code) : Prop where
  name_eq : c'.name = c.name
  signature_eq : c'.signature = c.signature
  consts_eq : c'.consts = c.consts
  varnames_eq : c'.varnames = c.varnames
  names_eq : c'.names = c.names
  places_eq : c'.instructions.map (fun i => (i.offset, i.next)) =
    c.instructions.map fun i => (i.offset, i.next)
  labels_eq : c'.labels = c.labels
  at?_eq : ∀ o, c.Reaches o → c'.at? o = c.at? o

/-- The first instruction stands at the entry. -/
theorem Code.Sound.firstLine_eq {c : Code} (h : c.Sound) :
    c.firstLine = ((c.at? 0).map (·.line)).getD 0 := by
  have hlaidOut := h.laidOut
  unfold firstLine
  cases his : c.instructions with
  | nil =>
    rw [at?, his]
    rfl
  | cons i is =>
    rw [his] at hlaidOut
    have hi : i ∈ c.instructions := by
      rw [his]
      exact List.mem_cons_self
    rw [← hlaidOut.1, h.at?_offset hi]
    rfl

/-- Codes that agree begin on the same line, as control reaches the first instruction. -/
theorem Code.Agrees.sameTables {c c' : Code} (h : c.Agrees c') (hc : c.Sound) (hc' : c'.Sound) :
    c.SameTables c' := by
  refine ⟨h.signature_eq, h.consts_eq, h.varnames_eq, h.names_eq, ?_, ?_⟩
  · rw [hc'.firstLine_eq, hc.firstLine_eq, h.at?_eq 0 .entry]
  · simpa using congrArg List.length h.places_eq

namespace Lifter

variable {c c' : Code} {options : LiftOptions} {s : Lifter}

/-- A lift does the same with a code that agrees. -/
theorem ignores_all (hc : c.Sound) (hc' : c'.Sound) (h : c.Agrees c')
    (hopened : IsOpened c options s) (hstarted : s.started = false) :
    Lift.all (s.reading c' options) = onState (reading c' options) (Lift.all s) := by
  obtain rfl := hopened.code_eq
  have htables := h.sameTables hc hc'
  have hfuel : Lift.traverseFuel c' = Lift.traverseFuel s.code := by
    rw [Lift.traverseFuel, Lift.traverseFuel, htables.length_eq]
  have hopened' := hopened.start
  obtain ⟨hprogress, hrooted⟩ := hopened'.progress
  rw [Lift.all_of_not_started hstarted,
    Lift.all_of_not_started (s := s.reading c' options) hstarted,
    show (s.reading c' options).code.signature = s.code.signature from h.signature_eq,
    show Lift.traverseFuel (s.reading c' options).code = _ from hfuel]
  refine (Lift.Mimics.bind (c := c') (s := { s with started := true })
    (Lift.ignores_checkSignature _ options) fun _ s₁ hcheck _ => ?_).1
  obtain ⟨e, hstop⟩ | hpass := Lift.checkSignature_cases s.code.signature { s with started := true }
  · cases hcheck.symm.trans hstop
  cases hcheck.symm.trans hpass
  refine Lift.Mimics.bind (Lift.traverse_reading hc htables h.at?_eq hprogress
    hopened'.steps_eq) fun _ s₂ htraverse hcode => ?_
  obtain ⟨-, -, -, -, hoptions, -⟩ :=
    Lift.traverse_progress hc hprogress hrooted hopened'.steps_eq htraverse
  rw [← hopened'.options_eq, ← hoptions]
  exact Lift.ignores_passes (hcode.symm ▸ htables)

/-- Telling the end of a span leaves code and options alone. -/
theorem close_onState (message : LiftError → String)
    (r : EStateM.Result (Stop LiftError) Lifter Unit) :
    close message (onState (reading c options) r) =
      onState (reading c options) (close message r) := by
  cases r with
  | ok u s => rfl
  | error stop s => rfl

/-- **Instructions that control does not reach make no difference.**  If two listings are built to
codes that agree, both lifts succeed or both stop for the same reason, and they end in the same
state but for the code: the graph, the dominators, the backbone, the blocks that were removed, the
line and all that was told are the same. -/
theorem lift_of_agrees {l l' : Listing} (hsize : l.IsAddressable) (hsize' : l'.IsAddressable)
    (hbuild : l.build = .ok c) (hbuild' : l'.build = .ok c') (h : c.Agrees c')
    (options : LiftOptions) :
    (ofCode c' options).lift = onState (reading c' options) (ofCode c options).lift := by
  have hc := Listing.sound_of_build hsize hbuild
  have hc' := Listing.sound_of_build hsize' hbuild'
  have hstart : ofCode c' options = (ofCode c options).reading c' options := by
    unfold ofCode reading
    rw [h.labels_eq]
  have hopening : (ofCode c' options).opening = (ofCode c options).opening.reading c' options := by
    unfold opening
    rw [show (ofCode c' options).code = c' from rfl, h.name_eq, h.labels_eq,
      (h.sameTables hc hc').length_eq, hstart]
    rfl
  rw [lift_eq, lift_eq, hopening, ← close_onState]
  exact congrArg _ (ignores_all hc hc' h (isOpened_ofCode c options).opening rfl)

end Lifter

/-! ## Codes that agree -/

namespace Code

/-- Whether two codes agree, and control stays within certain offsets. -/
def agreeOn (c c' : Code) (offsets : List Int) : Bool :=
  decide (c'.name = c.name ∧ c'.signature = c.signature ∧ c'.consts = c.consts ∧
    c'.varnames = c.varnames ∧ c'.names = c.names ∧
    c'.instructions.map (fun i => (i.offset, i.next)) =
      c.instructions.map (fun i => (i.offset, i.next)) ∧
    c'.labels = c.labels ∧ 0 ∈ offsets ∧
    ∀ o ∈ offsets, c'.at? o = c.at? o ∧ ∀ i ∈ c.at? o, ∀ p ∈ i.successors, p ∈ offsets)

/-- Codes agree if they do so at offsets within which control stays. -/
theorem agrees_of_agreeOn {c c' : Code} {offsets : List Int} (h : c.agreeOn c' offsets = true) :
    c.Agrees c' := by
  obtain ⟨hname, hsignature, hconsts, hvarnames, hnames, hplaces, hlabels, hentry, hall⟩ :=
    of_decide_eq_true h
  have hin : ∀ o, c.Reaches o → o ∈ offsets := by
    intro o ho
    induction ho with
    | entry => exact hentry
    | step _ hi hp ih => exact (hall _ ih).2 _ hi _ hp
  exact ⟨hname, hsignature, hconsts, hvarnames, hnames, hplaces, hlabels, fun o ho =>
    (hall o (hin o ho)).1⟩

end Code

/-- Whether two listings are built to different codes that agree. -/
def Listing.agreeOn (l l' : Listing) (offsets : List Int) : Bool :=
  match l.build, l'.build with
  | .ok c, .ok c' => c != c' && c.agreeOn c' offsets
  | _, _ => false

/-- Two listings whose codes differ, but not where control comes. -/
theorem Listing.exists_of_agreeOn {l l' : Listing} {offsets : List Int}
    (h : l.agreeOn l' offsets = true) :
    ∃ c c', l.build = .ok c ∧ l'.build = .ok c' ∧ c ≠ c' ∧ c.Agrees c' := by
  unfold agreeOn at h
  split at h
  · rename_i c c' hbuild hbuild'
    rw [Bool.and_eq_true, bne_iff_ne] at h
    exact ⟨c, c', hbuild, hbuild', h.1, Code.agrees_of_agreeOn h.2⟩
  · cases h

/-- The loop with another jump behind it, on another line. -/
def Listing.loopAndTest : Listing where
  args := ["x"]
  code := "LOAD_FAST 0\nhead:\nFOR_ITER end\nJUMP_ABSOLUTE head\nend:\nRETURN_VALUE\n" ++
    "dead:\n.line 7\nPOP_JUMP_IF_TRUE dead\n"

/-- What stands behind the loop makes no difference. -/
theorem Lifter.lift_loopAndTest : ∃ c c', Listing.loop.build = .ok c ∧
    Listing.loopAndTest.build = .ok c' ∧ c ≠ c' ∧ c.Agrees c' ∧ ∀ options,
      (ofCode c' options).lift = onState (reading c' options) (ofCode c options).lift := by
  have hagree : Listing.agreeOn .loop .loopAndTest [0, 3, 6, 9] = true := by decide +kernel
  obtain ⟨c, c', hbuild, hbuild', hne, hagrees⟩ := Listing.exists_of_agreeOn hagree
  exact ⟨c, c', hbuild, hbuild', hne, hagrees, lift_of_agrees (by decide +kernel)
    (by decide +kernel) hbuild hbuild' hagrees⟩

end StackLift
