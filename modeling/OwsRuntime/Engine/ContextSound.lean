import OwsRuntime.Engine.Protocol

/-! Execution contexts keep the protocol of the engine. -/
namespace OwsRuntime

open Async Discipline

/-- The storage of a task that runs within an execution of the workflow, after
its context has been set up. -/
structure Ready (wf : CompiledWorkflow) (σ : EngineState) : Prop where
  workflow : σ.shared.workflow = wf
  setUp : written σ.shared.trace ≠ []

/-- The program keeps the protocol, from this state and from every later one. -/
abbrev Sound {α : Type} (σ : EngineState) (p : Run α) : Prop :=
  protocol.HoldsOk σ p fun _ _ => True

abbrev FutureSound {α : Type} (σ : EngineState) (p : Future α) : Prop :=
  protocol.Holds σ p fun _ _ => True

/-- The parts of an expression context which an expression sees as the context. -/
structure ExpressionContext.Grounded (ctx : ExpressionContext) (past : List Entry) : Prop where
  context : Seen past ctx.context
  extraVars : ∀ entry ∈ ctx.extraVars, Noted (.bound entry.1) past

section Rules

variable {α β : Type} {wf : CompiledWorkflow} {σ τ : EngineState}

/-- An execution that has been set up stays so, with the same workflow. -/
theorem Ready.mono (ready : Ready wf σ) (moved : protocol.Moved σ τ) : Ready wf τ :=
  ⟨moved.shared.workflow.trans ready.workflow, written_ne_nil_mono ready.setUp moved.shared.trace⟩

/-- Variables that are grounded in the trace are grounded in every later one: the context is only
ever written with what was due. -/
theorem Ready.grounded {vars : Map} (ready : Ready wf σ)
    (grounded : Grounded σ.shared.trace vars) (moved : protocol.Moved σ τ) :
    Grounded τ.shared.trace vars := grounded.mono ready.setUp moved.shared.trace

/-- A value at once makes no request, -/
theorem Sound.pure {value : α} : Sound σ (Pure.pure value) := HoldsOk.pure fun _ _ _ => trivial

/-- and neither does an error, -/
theorem Sound.throw {e : WorkflowError} : Sound σ (throw e : Run α) := HoldsOk.throw

/-- or any result that is known. -/
theorem Sound.ofExcept {result : Except WorkflowError α} : Sound σ (Run.ofExcept result) :=
  HoldsOk.mk fun _ _ _ _ _ => trivial

/-- The second program starts in a later state, where it may rely on what the first has established.
-/
theorem Sound.bind {p : Run α} {f : α → Run β} {Q : α → EngineState → Prop}
    (first : protocol.HoldsOk σ p Q)
    (second : ∀ value τ, protocol.Moved σ τ → Q value τ → Sound τ (f value)) :
    Sound σ (p >>= f) :=
  HoldsOk.bind first fun value τ moved _ hQ => second value τ moved hQ

/-- Sequential composition when nothing has to be known of the first result. -/
theorem Sound.seq {p : Run α} {f : α → Run β} (first : Sound σ p)
    (second : ∀ value τ, protocol.Moved σ τ → Sound τ (f value)) : Sound σ (p >>= f) :=
  Sound.bind first fun value τ moved _ => second value τ moved

/-- An infallible program keeps the protocol among the fallible ones. -/
theorem Sound.lift {p : Future α} (sound : FutureSound σ p) : Sound σ (liftM p : Run α) :=
  HoldsOk.lift sound

/-- To look at the outcome of a program changes nothing. -/
theorem Sound.outcome {p : Run α} (sound : Sound σ p) : Sound σ (outcome p) :=
  (HoldsOk.outcome sound).weaken fun _ _ _ _ _ => trivial

/-- The same rules hold of programs that cannot fail: for a value, -/
theorem FutureSound.pure {value : α} : FutureSound σ (Pure.pure value) :=
  Holds.done fun _ _ _ => trivial

/-- for two programs of which the first establishes something, -/
theorem FutureSound.bind {p : Future α} {f : α → Future β} {Q : α → EngineState → Prop}
    (first : protocol.Holds σ p Q)
    (second : ∀ value τ, protocol.Moved σ τ → Q value τ → FutureSound τ (f value)) :
    FutureSound σ (p >>= f) :=
  Holds.bind first fun value τ moved _ hQ => second value τ moved hQ

/-- for two of which it need not, -/
theorem FutureSound.seq {p : Future α} {f : α → Future β} (first : FutureSound σ p)
    (second : ∀ value τ, protocol.Moved σ τ → FutureSound τ (f value)) :
    FutureSound σ (p >>= f) :=
  FutureSound.bind first fun value τ moved _ => second value τ moved

/-- The future of a fallible program, for callers that look at the result. -/
theorem Sound.run {p : Run α} (sound : Sound σ p) : FutureSound σ p.run := Holds.trivial sound

/-- and for one that returns a result. -/
theorem FutureSound.mk {p : Future (Except WorkflowError α)} (sound : FutureSound σ p) :
    Sound σ (ExceptT.mk p) := Holds.weaken sound fun _ _ _ _ _ _ _ => trivial

/-- A request that owes nothing. -/
theorem ask_sound (a : Act) (hOwed : ∀ τ, owed a τ) : FutureSound σ (ask a) :=
  Holds.request (fun τ _ _ => hOwed τ) fun _ _ _ _ _ _ => trivial

/-- A request that owes nothing, within a fallible program. -/
theorem do_sound (a : Act) (hOwed : ∀ τ, owed a τ) : Sound σ (liftM (ask a) : Run a.Resp) :=
  Sound.lift (ask_sound a hOwed)

/-- A note may be made where the trace so far justifies it. It is the last entry then. -/
theorem mark_holds {n : Note} (hPlain : n.Plain)
    (hNote : ∀ τ, protocol.Moved σ τ → protocol.Good τ →
      Justified τ.shared.workflow τ.shared.start τ.shared.trace ⟨n, τ.world.cancelled⟩) :
    protocol.Holds σ (mark n) fun position τ =>
      ∃ entry, τ.shared.trace[position]? = some entry ∧ entry.note = n := by
  refine Holds.request (fun τ moved good => ⟨hPlain, hNote τ moved good⟩) ?_
  intro τ reply υ _ _ hPerform
  cases hPerform
  exact ⟨⟨n, τ.world.cancelled⟩, by simp [EngineState.note, Execution.log], rfl⟩

/-- So noting it keeps the protocol. -/
theorem note_sound {n : Note} (hPlain : n.Plain)
    (hNote : ∀ τ, protocol.Moved σ τ → protocol.Good τ →
      Justified τ.shared.workflow τ.shared.start τ.shared.trace ⟨n, τ.world.cancelled⟩) :
    FutureSound σ (note n) :=
  FutureSound.bind (mark_holds hPlain hNote) fun _ _ _ _ => FutureSound.pure

/-- The storage of a task is faithful to its execution whenever it is read. -/
theorem getLocal_holds : protocol.Holds σ getLocal fun l τ => l.Faithful τ.shared := by
  refine Holds.request (fun τ _ _ => trivial) ?_
  intro τ reply υ _ good hPerform
  cases hPerform
  exact good.locInv

end Rules

section Contexts

variable {wf : CompiledWorkflow} {σ τ : EngineState}

/-- What an expression sees stays grounded as the execution goes on. -/
theorem ExpressionContext.Grounded.mono {ctx : ExpressionContext} (ready : Ready wf σ)
    (grounded : ctx.Grounded σ.shared.trace) (moved : protocol.Moved σ τ) :
    ctx.Grounded τ.shared.trace :=
  ⟨grounded.context.mono ready.setUp moved.shared.trace, fun entry hMem =>
    (grounded.extraVars entry hMem).mono moved.shared.trace⟩

/-- The variables of a grounded context are grounded, -/
theorem ExpressionContext.Grounded.variables {ctx : ExpressionContext} {past : List Entry}
    (grounded : ctx.Grounded past) : OwsRuntime.Grounded past ctx.asVariableMap := by
  intro value hValue
  rcases ctx.lookup_context with hContext | ⟨v, hMem⟩
  · rw [hContext, Option.some.injEq] at hValue
    exact Or.inl (hValue ▸ grounded.context)
  · exact Or.inr (grounded.extraVars _ hMem)

/-- also with a new input and output among them. -/
theorem ExpressionContext.Grounded.updated {ctx : ExpressionContext} {past : List Entry}
    (grounded : ctx.Grounded past) (input output : Value) :
    OwsRuntime.Grounded past (ctx.asVariableMapUpdated input output) :=
  ExpressionContext.Grounded.variables ⟨grounded.context, grounded.extraVars⟩

/-- Variables stay grounded when bound ones are added to them. -/
theorem Grounded.extend {past : List Entry} {vars more : Map} (grounded : Grounded past vars)
    (hMore : ∀ entry ∈ more, Noted (.bound entry.1) past) :
    Grounded past (Map.extend vars more) := by
  intro value hValue
  rcases Map.lookup_extend more vars "context" with hOld | ⟨v, hMem⟩
  · exact grounded value (hOld.symm.trans hValue)
  · exact Or.inr (hMore _ hMem)

/-- The context is read at once, with no task in between, -/
theorem contextValueSync_holds :
    protocol.Holds σ contextValueSync fun value τ => Seen τ.shared.trace value := by
  refine Holds.request (fun τ _ _ => trivial) ?_
  intro τ reply υ _ good hPerform
  simp only [engine, perform] at hPerform
  split at hPerform <;> cases hPerform
  · exact Or.inr ⟨rfl, Or.inr (noted_append_single.mpr (Or.inr rfl))⟩
  · rw [good.inv.context]
    exact seen_cell _

/-- or with the place of the trace at which it was read, -/
theorem readContext_holds (ready : Ready wf σ) :
    protocol.Holds σ readContext fun r τ =>
      Seen τ.shared.trace r.1 ∧ ReadAt τ.shared.trace r.2 r.1 := by
  apply Holds.bind (ask_sound .lockContext fun _ => trivial)
  intro _ τ moved _ _
  have readyτ := ready.mono moved
  refine Holds.bind
    (Q := fun r (υ : EngineState) => Seen υ.shared.trace r.1 ∧ ReadAt υ.shared.trace r.2 r.1)
    (Holds.request (fun υ _ _ => trivial) ?_) ?_
  · intro υ reply υ' hMoved good hPerform
    cases hPerform
    refine ⟨?_, ⟨.contextRead υ.shared.context, υ.world.cancelled⟩, ?_, rfl⟩
    · rw [good.inv.context]
      exact (seen_cell _).mono (readyτ.mono hMoved).setUp (List.prefix_append _ _)
    · simp [EngineState.note, Execution.log]
  · intro r υ hMoved _ hRead
    apply Holds.bind (ask_sound .unlockContext fun _ => trivial)
    intro _ ω hMoved' _ _
    apply Holds.done
    intro ω' hMoved'' _
    have hPrefix := (hMoved'.trans hMoved'').shared.trace
    exact ⟨hRead.1.mono (readyτ.mono hMoved).setUp hPrefix, hRead.2.mono hPrefix⟩

/-- or for its value alone. In each of these ways it is one that the trace has seen. -/
theorem contextValue_holds (ready : Ready wf σ) :
    protocol.Holds σ contextValue fun value τ => Seen τ.shared.trace value := by
  apply Holds.bind (readContext_holds ready)
  intro r τ moved _ hRead
  apply Holds.done
  intro υ hMoved _
  exact hRead.1.mono (ready.mono moved).setUp hMoved.shared.trace

/-- The context is written where the protocol owes it, and what is written is seen from then on. -/
theorem setContext_holds {source : ContextSource} {value : Value}
    (hOwed : ∀ τ, protocol.Moved σ τ → owed (.writeContext source value) τ) :
    protocol.Holds σ (setContext source value) fun _ τ => written τ.shared.trace ≠ [] := by
  apply Holds.bind (ask_sound .lockContext fun _ => trivial)
  intro _ τ moved _ _
  refine Holds.bind (Q := fun _ (υ : EngineState) => written υ.shared.trace ≠ [])
    (Holds.request (fun υ hMoved _ => hOwed υ (moved.trans hMoved)) ?_) ?_
  · intro υ reply υ' _ _ hPerform
    cases hPerform
    simp [EngineState.note, Execution.log, written, Note.written?]
  · intro _ υ hMoved _ hWritten
    apply Holds.request (fun _ _ _ => trivial)
    intro ω reply ω' hMoved' _ hPerform
    cases hPerform
    exact written_ne_nil_mono hWritten hMoved'.shared.trace

/-- The variables of a task are grounded in the trace: the context among them has just been read,
and the loop variables have been bound. -/
theorem variables_holds (ready : Ready wf σ) (ctx : ExecContext) (input output : Value)
    (task : Option Value) :
    protocol.Holds σ (ctx.variables_ input output task) fun vars τ =>
      Grounded τ.shared.trace vars := by
  apply Holds.bind contextValueSync_holds
  intro context τ moved _ hSeen
  apply Holds.bind getLocal_holds
  intro loc υ hMoved _ hBound
  apply Holds.done
  intro ω hMoved' _
  have hVars : ∀ entry ∈ loc.loopVars, Noted (.bound entry.1) ω.shared.trace :=
    fun entry hMem => (hBound.bound entry hMem).mono hMoved'.shared.trace
  have hContext := hSeen.mono (ready.mono moved).setUp (hMoved.trans hMoved').shared.trace
  exact Grounded.extend (ExpressionContext.Grounded.variables ⟨hContext, hVars⟩) hVars

/-- To fail on a cancellation owes nothing, -/
theorem stop_sound {α : Type} (ctx : ExecContext) : Sound σ (ctx.stop : Run α) :=
  Sound.seq (do_sound .stop fun _ => trivial) fun _ _ _ => Sound.throw

/-- and neither does the check for one. -/
theorem failIfCancelled_sound (ctx : ExecContext) : Sound σ ctx.failIfCancelled := by
  apply Sound.seq (do_sound .isCancelled fun _ => trivial)
  intro cancelled τ _
  split
  · exact stop_sound ctx
  · exact Sound.pure

/-- An evaluation may be noted when its variables are grounded. -/
theorem evaluates_sound (ready : Ready wf σ) {source : ExpressionSource} {input : Value}
    {vars : Map} (hVars : Grounded σ.shared.trace vars) :
    FutureSound σ (note (.evaluates source input vars)) :=
  note_sound ⟨rfl, fun h => by cases h⟩ fun _ moved _ => ready.grounded hVars moved

/-- So expressions are evaluated only over grounded variables, -/
theorem evalExpr_sound (ready : Ready wf σ) (env : RuntimeInner) (source : String)
    (input : Value) {vars : Map} (hVars : Grounded σ.shared.trace vars)
    (task : Option CompiledTask) : Sound σ (evalExpr env source input vars task) := by
  apply Sound.seq (Sound.lift (evaluates_sound ready hVars))
  intro _ _ _
  exact Sound.ofExcept

variable {exprCtx : ExpressionContext}

/-- and so are the texts of values with blocks in them. -/
theorem evalInterpolation_sound (ready : Ready wf σ) (env : RuntimeInner) (value : Value)
    (hCtx : exprCtx.Grounded σ.shared.trace) : Sound σ (evalInterpolation env value exprCtx) := by
  unfold evalInterpolation
  split
  · apply Sound.seq (Sound.lift (evaluates_sound ready hCtx.variables))
    intro _ _ _
    exact Sound.ofExcept
  · exact Sound.pure

/-- A text is evaluated over the variables of its context, -/
theorem interpolateString_sound (ready : Ready wf σ) (env : RuntimeInner) (s : String)
    (hCtx : exprCtx.Grounded σ.shared.trace) : Sound σ (interpolateString env s exprCtx) :=
  Sound.seq (evalInterpolation_sound ready env _ hCtx) fun _ _ _ => Sound.pure

/-- if there is one, -/
theorem interpolateOptString_sound (ready : Ready wf σ) (env : RuntimeInner) (s : Option String)
    (hCtx : exprCtx.Grounded σ.shared.trace) : Sound σ (interpolateOptString env s exprCtx) := by
  cases s with
  | none => exact Sound.pure
  | some s => exact Sound.seq (interpolateString_sound ready env s hCtx) fun _ _ _ => Sound.pure

/-- as are several texts in their order, -/
theorem interpolateStrings_sound (ready : Ready wf σ) (env : RuntimeInner)
    (hCtx : exprCtx.Grounded σ.shared.trace) (strings : List String) :
    Sound σ (interpolateStrings env exprCtx strings) := by
  induction strings generalizing σ with
  | nil => exact Sound.pure
  | cons s rest ih =>
      apply Sound.seq (interpolateString_sound ready env s hCtx)
      intro _ τ moved
      exact Sound.seq (ih (ready.mono moved) (hCtx.mono ready moved)) fun _ _ _ => Sound.pure

/-- the values of environment variables, -/
theorem interpolateEnv_sound (ready : Ready wf σ) (env : RuntimeInner)
    (hCtx : exprCtx.Grounded σ.shared.trace) (entries : List (String × String)) :
    Sound σ (interpolateEnv env exprCtx entries) := by
  induction entries generalizing σ with
  | nil => exact Sound.pure
  | cons entry rest ih =>
      apply Sound.seq (interpolateString_sound ready env entry.2 hCtx)
      intro _ τ moved
      exact Sound.seq (ih (ready.mono moved) (hCtx.mono ready moved)) fun _ _ _ => Sound.pure

/-- the entries of a map, -/
theorem interpolateEntries_sound (ready : Ready wf σ) (env : RuntimeInner)
    (hCtx : exprCtx.Grounded σ.shared.trace) (entries : Map) :
    Sound σ (interpolateEntries env exprCtx entries) := by
  induction entries generalizing σ with
  | nil => exact Sound.pure
  | cons entry rest ih =>
      apply Sound.seq (evalInterpolation_sound ready env entry.2 hCtx)
      intro _ τ moved
      exact Sound.seq (ih (ready.mono moved) (hCtx.mono ready moved)) fun _ _ _ => Sound.pure

/-- and a value, if there is one. -/
theorem interpolateValue_sound (ready : Ready wf σ) (env : RuntimeInner) (value : Option Value)
    (hCtx : exprCtx.Grounded σ.shared.trace) : Sound σ (interpolateValue env value exprCtx) := by
  cases value with
  | none => exact Sound.pure
  | some v => exact Sound.seq (evalInterpolation_sound ready env v hCtx) fun _ _ _ => Sound.pure

mutual

/-- The texts at any depth of a value are evaluated in their order. The recursion is that of the
value, -/
theorem deepInterpolate_sound (env : RuntimeInner) : ∀ (value : Value) {σ : EngineState},
    Ready wf σ → exprCtx.Grounded σ.shared.trace → Sound σ (deepInterpolate env exprCtx value)
  | .object entries, _, ready, hCtx => by
      rw [deepInterpolate]
      exact Sound.seq (deepInterpolateEntries_sound env entries ready hCtx) fun _ _ _ => Sound.pure
  | .array items, _, ready, hCtx => by
      rw [deepInterpolate]
      exact Sound.seq (deepInterpolateItems_sound env items ready hCtx) fun _ _ _ => Sound.pure
  | .null, _, ready, hCtx => evalInterpolation_sound ready env .null hCtx
  | .bool b, _, ready, hCtx => evalInterpolation_sound ready env (.bool b) hCtx
  | .number n, _, ready, hCtx => evalInterpolation_sound ready env (.number n) hCtx
  | .string s, _, ready, hCtx => evalInterpolation_sound ready env (.string s) hCtx

/-- that of the items of its arrays, -/
theorem deepInterpolateItems_sound (env : RuntimeInner) : ∀ (items : List Value) {σ : EngineState},
    Ready wf σ → exprCtx.Grounded σ.shared.trace → Sound σ (deepInterpolateItems env exprCtx items)
  | [], _, _, _ => Sound.pure
  | item :: rest, _, ready, hCtx => by
      rw [deepInterpolateItems]
      apply Sound.seq (deepInterpolate_sound env item ready hCtx)
      intro _ τ moved
      refine Sound.seq ?_ fun _ _ _ => Sound.pure
      exact deepInterpolateItems_sound env rest (ready.mono moved) (hCtx.mono ready moved)

/-- and that of the entries of its objects. -/
theorem deepInterpolateEntries_sound (env : RuntimeInner) :
    ∀ (entries : List (String × Value)) {σ : EngineState}, Ready wf σ →
      exprCtx.Grounded σ.shared.trace → Sound σ (deepInterpolateEntries env exprCtx entries)
  | [], _, _, _ => Sound.pure
  | (k, v) :: rest, _, ready, hCtx => by
      rw [deepInterpolateEntries]
      apply Sound.seq (deepInterpolate_sound env v ready hCtx)
      intro _ τ moved
      refine Sound.seq ?_ fun _ _ _ => Sound.pure
      exact deepInterpolateEntries_sound env rest (ready.mono moved) (hCtx.mono ready moved)

end

/-- An invoker sees the context of its request, and makes requests to the world that owe nothing. -/
theorem invokeFunction_sound (ready : Ready wf σ) (env : RuntimeInner) (invoker : FunctionInvoker)
    {req : FunctionRequest} (hCtx : req.context.Grounded σ.shared.trace) :
    Sound σ (invokeFunction env invoker req) := by
  cases invoker with
  | other id => exact FutureSound.mk (ask_sound _ fun _ => trivial)
  | http =>
      apply Sound.seq (Sound.lift (evaluates_sound ready hCtx.variables))
      intro _ _ _
      apply Sound.seq Sound.ofExcept
      intro request _ _
      apply Sound.seq (do_sound (.send request) fun _ => trivial)
      intro reply _ _
      exact Sound.ofExcept

end Contexts

end OwsRuntime
