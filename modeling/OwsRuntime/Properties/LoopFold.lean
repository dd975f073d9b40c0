import OwsRuntime.Engine.Rounds
import OwsRuntime.Engine.Turns
import OwsRuntime.Properties.SetInterpolation
import OwsRuntime.Properties.SkippedTask

/-! A for task folds its body over the items. It keeps the input of the next iteration apart from
its output, and the two differ only before the first iteration. -/
namespace OwsRuntime

open Async
open Async.Handler (Ends)

section Conditions

variable {env : RuntimeInner} {ctx : ExecContext} {condition : Option String} {acc : Value}
  {σ : EngineState}

/-- The state with a variable of the loop. -/
def EngineState.bind (σ : EngineState) (name : String) (value : Value) : EngineState :=
  (EngineState.note σ (.bound name)).mapLocal fun l =>
    { l with loopVars := Map.insert name value l.loopVars }

def EngineState.unbind (σ : EngineState) (name : String) : EngineState :=
  EngineState.mapLocal (fun l => { l with loopVars := Map.remove name l.loopVars }) σ

/-- The state with the variables of an iteration. -/
def EngineState.bindItem (σ : EngineState) (loop : ForDef) (index : Nat) (item : Value) :
    EngineState :=
  (σ.bind loop.each item).bind (loop.at_.getD "index") (.ofNat index)

/-- The `while` condition in a state, for the accumulator. -/
def whileValue (env : RuntimeInner) (ctx : ExecContext) (condition : Option String)
    (σ : EngineState) (acc : Value) : Except WorkflowError Bool :=
  env.condition acc (ctx.variablesAt σ acc .null none) true condition

/-- The state after the condition has been evaluated, which is noted. -/
def EngineState.tested (σ : EngineState) (ctx : ExecContext) (condition : Option String)
    (acc : Value) : EngineState :=
  match condition with
  | none => σ
  | some source =>
      EngineState.note (if σ.shared.locked then σ.note .contended else σ)
        (.evaluates (.expression source) acc (ctx.variablesAt σ acc .null none))

/-- The condition of a loop is evaluated within a turn, to its value on the context of the moment,
with a note of the evaluation. -/
theorem advance_whileHolds : engine.advance (whileHolds env ctx condition acc).run σ =
    (.done (whileValue env ctx condition σ acc), σ.tested ctx condition acc) := by
  cases condition with
  | none => rfl
  | some source =>
      have hVars : engine.advance (ctx.variables_ acc .null none) σ =
          (.done (ctx.variablesAt σ acc .null none),
            if σ.shared.locked then σ.note .contended else σ) := by
        unfold ExecContext.variables_ ExecContext.variablesAt
        by_cases hLocked : σ.shared.locked
        · have hContext : engine.perform .tryContext σ = some (Value.null, σ.note .contended) :=
            if_pos hLocked
          rw [if_pos hLocked, if_pos hLocked]
          exact engine.advance_act_sync _ rfl hContext
        · have hContext : engine.perform .tryContext σ = some (σ.shared.context, σ) :=
            if_neg hLocked
          rw [if_neg hLocked, if_neg hLocked]
          exact engine.advance_act_sync _ rfl hContext
      rw [whileHolds, whileValue, RuntimeInner.condition, EngineState.tested]
      refine (Handler.advance_bind_of_ok (Handler.advance_lift_of_done hVars)).trans ?_
      generalize ctx.variablesAt σ acc .null none = vars
      generalize (if σ.shared.locked then σ.note .contended else σ) = υ
      have hEval : engine.advance (evalExpr env source acc vars none).run υ =
          (.done ((env.evaluateSource source acc vars).mapError (toExpressionError · none)),
            υ.note (.evaluates (.expression source) acc vars)) := rfl
      cases hResult : (env.evaluateSource source acc vars).mapError (toExpressionError · none) with
      | error e =>
          rw [hResult] at hEval
          exact Handler.advance_bind_of_error hEval
      | ok value =>
          rw [hResult] at hEval
          exact Handler.advance_bind_of_ok hEval

end Conditions

section Loops

variable (allowed : engine.Choice → Prop) (env : RuntimeInner) (r : Runner) (wf : CompiledWorkflow)
  (ctx : ExecContext) (loop : ForDef) (body : List CompiledTask)

/-- The body folded over the items from an index on: the accumulator at first, the number of
iterations and the accumulator at last, with the states between which this happens. -/
inductive Folds : Nat → List Value → Value → EngineState → Nat → Value → EngineState → Prop where
  /-- The items are used up. -/
  | empty {index : Nat} {acc : Value} {σ : EngineState} : Folds index [] acc σ 0 acc σ
  /-- The condition is falsy for the next item. -/
  | stops {index : Nat} {item : Value} {rest : List Value} {acc : Value} {σ : EngineState}
      (hNot : σ.world.cancelled = false)
      (hWhile : whileValue env ctx loop.while_ (σ.bindItem loop index item) acc = .ok false) :
      Folds index (item :: rest) acc σ 0 acc
        ((σ.bindItem loop index item).tested ctx loop.while_ acc)
  /-- The workflow ends in the body. -/
  | ends {index : Nat} {item : Value} {rest : List Value} {acc out : Value} {σ τ : EngineState}
      (hNot : σ.world.cancelled = false)
      (hWhile : whileValue env ctx loop.while_ (σ.bindItem loop index item) acc = .ok true)
      (hBody : Ends allowed (engine.advance (r.scope wf ctx body acc).run
        ((σ.bindItem loop index item).tested ctx loop.while_ acc)) (.ok out) τ)
      (hEnded : τ.shared.ended = true) : Folds index (item :: rest) acc σ 1 out τ
  | next {index : Nat} {item : Value} {rest : List Value} {acc mid out : Value}
      {σ τ υ : EngineState} {n : Nat} (hNot : σ.world.cancelled = false)
      (hWhile : whileValue env ctx loop.while_ (σ.bindItem loop index item) acc = .ok true)
      (hBody : Ends allowed (engine.advance (r.scope wf ctx body acc).run
        ((σ.bindItem loop index item).tested ctx loop.while_ acc)) (.ok mid) τ)
      (hGoes : τ.shared.ended = false) (hRest : Folds (index + 1) rest mid τ n out υ) :
      Folds index (item :: rest) acc σ (n + 1) out υ

variable {allowed env r wf ctx loop body} {index n : Nat} {item acc previous output : Value}
  {items rest : List Value} {σ τ : EngineState}

theorem advance_bindVar {β : Type} (name : String) (value : Value) (f : Unit → Run β) :
    engine.advance ((liftM (ask (.bindVar name value)) : Run Unit) >>= f).run σ =
      engine.advance (f ()).run (σ.bind name value) :=
  @advance_ask_bind _ _ (.bindVar name value) _ _ rfl rfl f

/-- An iteration, up to its condition. -/
theorem advance_forItems (hNot : σ.world.cancelled = false) :
    engine.advance (forItems env r wf ctx loop body loop.each (loop.at_.getD "index") index
        (item :: rest) acc previous).run σ =
      engine.advance (whileHolds env ctx loop.while_ acc >>= fun holds =>
        if holds then r.scope wf ctx body acc >>= fun bodyOutput =>
          (liftM loadEnded : Run Bool) >>= fun ended =>
            if ended then return bodyOutput
            else forItems env r wf ctx loop body loop.each (loop.at_.getD "index") (index + 1) rest
              bodyOutput bodyOutput
        else return previous).run (σ.bindItem loop index item) := by
  rw [forItems]
  exact (advance_failIfCancelled_of_false hNot _).trans
    ((advance_bindVar _ _ _).trans (advance_bindVar _ _ _))

/-- Without an iteration the fold is still at its accumulator. -/
theorem Folds.output_eq {out : Value}
    (folds : Folds allowed env r wf ctx loop body index items acc σ n out τ) :
    (if n = 0 then acc else out) = out := by
  cases folds <;> rfl

/-- What a fold does with its first item, where the condition has a value for it. -/
theorem folds_cons_iff {out : Value} {holds : Bool} (hNot : σ.world.cancelled = false)
    (hWhile : whileValue env ctx loop.while_ (σ.bindItem loop index item) acc = .ok holds) :
    Folds allowed env r wf ctx loop body index (item :: rest) acc σ n out τ ↔
      if holds then ∃ mid υ, Ends allowed (engine.advance (r.scope wf ctx body acc).run
          ((σ.bindItem loop index item).tested ctx loop.while_ acc)) (.ok mid) υ ∧
        if υ.shared.ended then n = 1 ∧ out = mid ∧ τ = υ
        else ∃ m, n = m + 1 ∧ Folds allowed env r wf ctx loop body (index + 1) rest mid υ m out τ
      else n = 0 ∧ out = acc ∧ τ = (σ.bindItem loop index item).tested ctx loop.while_ acc := by
  constructor
  · intro folds
    cases folds with
    | stops _ hFalse =>
        cases hWhile.symm.trans hFalse
        exact ⟨rfl, rfl, rfl⟩
    | ends _ hTrue hBody hEnded =>
        cases hWhile.symm.trans hTrue
        exact ⟨out, τ, hBody, by rw [if_pos hEnded]; exact ⟨rfl, rfl, rfl⟩⟩
    | @next _ _ _ _ mid _ _ υ _ m _ hTrue hBody hGoes hRest =>
        cases hWhile.symm.trans hTrue
        exact ⟨mid, υ, hBody, by rw [hGoes]; exact ⟨m, rfl, hRest⟩⟩
  · intro hFirst
    cases holds with
    | false =>
        obtain ⟨rfl, rfl, rfl⟩ := hFirst
        exact .stops hNot hWhile
    | true =>
        obtain ⟨mid, υ, hBody, hAfter⟩ := hFirst
        cases hEnded : υ.shared.ended with
        | true =>
            rw [if_pos hEnded] at hAfter
            obtain ⟨rfl, rfl, rfl⟩ := hAfter
            exact .ends hNot hWhile hBody hEnded
        | false =>
            rw [hEnded, if_neg Bool.false_ne_true] at hAfter
            obtain ⟨m, rfl, hRest⟩ := hAfter
            exact .next hNot hWhile hBody hEnded hRest

/-- A fold reaches the end of its items only if the execution is not cancelled and the condition
has a value. -/
theorem Folds.first {out : Value}
    (folds : Folds allowed env r wf ctx loop body index (item :: rest) acc σ n out τ) :
    σ.world.cancelled = false ∧
      ∃ holds, whileValue env ctx loop.while_ (σ.bindItem loop index item) acc = .ok holds := by
  cases folds with
  | stops hNot hWhile => exact ⟨hNot, false, hWhile⟩
  | ends hNot hWhile => exact ⟨hNot, true, hWhile⟩
  | next hNot hWhile => exact ⟨hNot, true, hWhile⟩

/-- An iteration whose condition holds runs the body. Then the workflow has ended, and the loop with
it, or the fold goes on over the items that are left, of which the result is known. -/
theorem round_ends_iff
    (hRest : ∀ {mid : Value} {υ : EngineState},
      Ends allowed (engine.advance (forItems env r wf ctx loop body loop.each
        (loop.at_.getD "index") (index + 1) rest mid mid).run υ) (.ok output) τ ↔
          ∃ n out, Folds allowed env r wf ctx loop body (index + 1) rest mid υ n out τ ∧
            output = if n = 0 then mid else out) :
    Ends allowed (engine.advance (r.scope wf ctx body acc >>= fun bodyOutput =>
        (liftM loadEnded : Run Bool) >>= fun ended =>
          if ended then return bodyOutput
          else forItems env r wf ctx loop body loop.each (loop.at_.getD "index") (index + 1) rest
            bodyOutput bodyOutput).run σ) (.ok output) τ ↔
      ∃ n out, (∃ mid υ, Ends allowed (engine.advance (r.scope wf ctx body acc).run σ) (.ok mid) υ ∧
        if υ.shared.ended then n = 1 ∧ out = mid ∧ τ = υ
        else ∃ m, n = m + 1 ∧ Folds allowed env r wf ctx loop body (index + 1) rest mid υ m out τ) ∧
          output = if n = 0 then previous else out := by
  rw [Ends.seq_iff]
  simp only [advance_loadEnded, reduceCtorEq, and_false, exists_false, or_false]
  constructor
  · rintro ⟨mid, υ, hBody, hAfter⟩
    cases hEnded : υ.shared.ended with
    | true =>
        rw [hEnded, if_pos rfl, Ends.pure_iff] at hAfter
        obtain ⟨hOutput, rfl⟩ := hAfter
        cases hOutput
        exact ⟨1, output, ⟨output, τ, hBody, by rw [if_pos hEnded]; exact ⟨rfl, rfl, rfl⟩⟩, rfl⟩
    | false =>
        rw [hEnded, if_neg Bool.false_ne_true] at hAfter
        obtain ⟨m, out, hFolds, rfl⟩ := hRest.mp hAfter
        exact ⟨m + 1, out, ⟨mid, υ, hBody, by rw [hEnded]; exact ⟨m, rfl, hFolds⟩⟩,
          hFolds.output_eq⟩
  · rintro ⟨n, out, ⟨mid, υ, hBody, hAfter⟩, rfl⟩
    refine ⟨mid, υ, hBody, ?_⟩
    cases hEnded : υ.shared.ended with
    | true =>
        rw [if_pos hEnded] at hAfter
        obtain ⟨rfl, rfl, rfl⟩ := hAfter
        exact Ends.pure_iff.mpr ⟨rfl, rfl⟩
    | false =>
        rw [hEnded, if_neg Bool.false_ne_true] at hAfter
        obtain ⟨m, rfl, hFolds⟩ := hAfter
        exact hRest.mpr ⟨m, out, hFolds, hFolds.output_eq.symm⟩

/-- The loop returns the accumulator of the fold if there was an iteration, and what it was given
before if there was none. The induction is on the items. -/
theorem forItems_ends_iff :
    Ends allowed (engine.advance (forItems env r wf ctx loop body loop.each
        (loop.at_.getD "index") index items acc previous).run σ) (.ok output) τ ↔
      ∃ n out, Folds allowed env r wf ctx loop body index items acc σ n out τ ∧
        output = if n = 0 then previous else out := by
  induction items generalizing index acc previous σ with
  | nil =>
      rw [forItems, Ends.pure_iff]
      constructor
      · rintro ⟨hOutput, rfl⟩
        cases hOutput
        exact ⟨0, acc, .empty, rfl⟩
      · rintro ⟨n, out, hFolds, rfl⟩
        cases hFolds
        exact ⟨rfl, rfl⟩
  | cons item rest ih =>
      cases hCancelled : σ.world.cancelled with
      | true =>
          rw [forItems, advance_failIfCancelled_of_true hCancelled, Ends.done_iff]
          refine iff_of_false ?_ ?_
          · rintro ⟨hOutput, _⟩
            cases hOutput
          · rintro ⟨n, out, hFolds, _⟩
            cases hCancelled.symm.trans hFolds.first.1
      | false =>
          have hTested := @advance_whileHolds env ctx loop.while_ acc (σ.bindItem loop index item)
          rw [advance_forItems hCancelled]
          cases hWhile : whileValue env ctx loop.while_ (σ.bindItem loop index item) acc with
          | error e =>
              rw [hWhile] at hTested
              rw [Handler.advance_bind_of_error hTested, Ends.done_iff]
              refine iff_of_false ?_ ?_
              · rintro ⟨hOutput, _⟩
                cases hOutput
              · rintro ⟨n, out, hFolds, _⟩
                obtain ⟨holds, hValue⟩ := hFolds.first.2
                cases hWhile.symm.trans hValue
          | ok holds =>
              rw [hWhile] at hTested
              rw [Handler.advance_bind_of_ok hTested]
              simp only [folds_cons_iff hCancelled hWhile]
              cases holds with
              | false =>
                  rw [if_neg Bool.false_ne_true, Ends.pure_iff]
                  constructor
                  · rintro ⟨hOutput, rfl⟩
                    cases hOutput
                    exact ⟨0, acc, ⟨rfl, rfl, rfl⟩, rfl⟩
                  · rintro ⟨n, out, ⟨rfl, rfl, rfl⟩, rfl⟩
                    exact ⟨rfl, rfl⟩
              | true =>
                  simp only [if_pos]
                  exact round_ends_iff ih

end Loops

/-- A for task returns its body folded over the items, from its input on, and `null` if there has
been no iteration. -/
theorem for_fold_iff (allowed : engine.Choice → Prop) (env : RuntimeInner) (r : Runner)
    (wf : CompiledWorkflow) (ctx : ExecContext) (loop : ForDef) (body : List CompiledTask)
    (taskInput : Value) (exprCtx : ExpressionContext) (σ τ : EngineState) (output : Value) :
    Ends allowed (engine.advance (taskFor env r wf ctx loop body taskInput exprCtx).run σ)
        (.ok output) τ ↔
      ∃ collection items n out υ,
        env.evaluateSource loop.in_ taskInput exprCtx.asVariableMap = .ok collection ∧
        loopItems env collection = .ok items ∧
        Folds allowed env r wf ctx loop body 0 items taskInput
          (σ.note (.evaluates (.expression loop.in_) taskInput exprCtx.asVariableMap)) n out υ ∧
        (output = if n = 0 then .null else out) ∧
        τ = (υ.unbind loop.each).unbind (loop.at_.getD "index") := by
  have hEval : engine.advance (evalExpr env loop.in_ taskInput exprCtx.asVariableMap none).run σ =
      (.done ((env.evaluateSource loop.in_ taskInput exprCtx.asVariableMap).mapError
        (toExpressionError · none)),
        σ.note (.evaluates (.expression loop.in_) taskInput exprCtx.asVariableMap)) := rfl
  rw [taskFor]
  generalize σ.note (.evaluates (.expression loop.in_) taskInput exprCtx.asVariableMap) = σ' at *
  cases hCollection : env.evaluateSource loop.in_ taskInput exprCtx.asVariableMap with
  | error e =>
      rw [hCollection] at hEval
      rw [Handler.advance_bind_of_error hEval, Ends.done_iff]
      refine iff_of_false (fun h => nomatch h.1) ?_
      rintro ⟨collection, items, n, out, υ, hOk, -⟩
      cases hOk
  | ok collection =>
      rw [hCollection] at hEval
      rw [Handler.advance_bind_of_ok hEval]
      cases hItems : loopItems env collection with
      | error e =>
          have hFails : engine.advance (Run.ofExcept (.error e) : Run (List Value)).run σ' =
              (.done (.error e), σ') := rfl
          rw [Handler.advance_bind_of_error hFails, Ends.done_iff]
          refine iff_of_false (fun h => nomatch h.1) ?_
          rintro ⟨_, items, n, out, υ, hOk, hNone, -⟩
          cases hOk
          rw [hItems] at hNone
          cases hNone
      | ok items =>
          have hGiven : engine.advance (Run.ofExcept (.ok items) : Run (List Value)).run σ' =
              (.done (.ok items), σ') := rfl
          have hUnbound : ∀ (last : Value) (υ : EngineState),
              Ends allowed (engine.advance (do
                ask (.unbindVar loop.each)
                ask (.unbindVar (loop.at_.getD "index"))
                return last : Run Value).run υ) (.ok output) τ ↔
              Except.ok output = (.ok last : Except WorkflowError Value) ∧
                τ = (υ.unbind loop.each).unbind (loop.at_.getD "index") :=
            fun last υ => Ends.done_iff
          rw [Handler.advance_bind_of_ok hGiven, Ends.seq_iff]
          simp only [hUnbound, forItems_ends_iff, reduceCtorEq, and_false, exists_false, or_false]
          constructor
          · rintro ⟨last, υ, ⟨n, out, hFolds, rfl⟩, hOutput, rfl⟩
            cases hOutput
            exact ⟨collection, items, n, out, υ, rfl, hItems, hFolds, rfl, rfl⟩
          · rintro ⟨_, _, n, out, υ, hOk, hSame, hFolds, rfl, rfl⟩
            cases hOk
            rw [hItems] at hSame
            cases hSame
            exact ⟨_, υ, ⟨n, out, hFolds, rfl⟩, rfl, rfl⟩

namespace Sample

/-- A loop over a collection without items. -/
def emptyLoop : ForDef := { each := "item", in_ := "[]", at_ := none, while_ := none }

/-- Scopes that return their input. -/
def quietRunner : Runner :=
  { scope := fun _ _ _ input => pure input, task := fun _ _ _ input _ => pure ⟨input, none⟩
    workflow := fun _ input => pure input, events := 0 }

def emptyLoopTask : Run Value :=
  taskFor speaking quietRunner (workflow [] []) ⟨"id", [], .null, .null, none⟩ emptyLoop []
    (.bool true) emptyContext

/-- Without iterations the input is not returned: the loop of the sample has no items, and its
output is `null`. -/
theorem empty_loop_forgets : ¬∀ output τ,
    Ends (fun _ : engine.Choice => True) (engine.advance emptyLoopTask.run idleState) (.ok output) τ →
      ∃ collection items n out υ,
        speaking.evaluateSource "[]" (.bool true) emptyContext.asVariableMap = .ok collection ∧
        loopItems speaking collection = .ok items ∧
        Folds (fun _ => True) speaking quietRunner (workflow [] [])
          ⟨"id", [], .null, .null, none⟩ emptyLoop [] 0 items (.bool true)
          (idleState.note (.evaluates (.expression "[]") (.bool true) emptyContext.asVariableMap))
          n out υ ∧
        output = out := by
  intro hFold
  have hCollection : speaking.evaluateSource "[]" (.bool true) emptyContext.asVariableMap =
      .ok (.array []) := rfl
  have hRun : ∃ τ, engine.advance emptyLoopTask.run idleState = (.done (.ok .null), τ) :=
    ⟨_, rfl⟩
  obtain ⟨τ, hAdvance⟩ := hRun
  obtain ⟨collection, items, n, out, υ, hOk, hItems, hFolds, rfl⟩ :=
    hFold .null τ (by rw [hAdvance]; exact .here _ _)
  rw [hCollection] at hOk
  cases hOk
  cases hItems
  cases hFolds

end Sample

end OwsRuntime
