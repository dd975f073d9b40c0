import OwsRuntime.Async.Endings
import OwsRuntime.Engine.Attempts
import OwsRuntime.Engine.Runs

/-! The limits of a retry policy. Only the number of attempts is applied: the limit of the
runtime, the limit on the delays and the limit on an attempt are read by nobody. -/
namespace OwsRuntime

open Async Handler

/-- The longest delays before so many retries, together. -/
def RetryPolicyDef.totalDelay (policy : RetryPolicyDef) : Nat → Nat
  | 0 => 0
  | n + 1 => policy.totalDelay n + policy.longestDelay (n + 1)

namespace TryTask

/-- Something else than the body of the attempt can take a turn and end it. -/
def CutOff (t : TryTask) (attempt : Nat) (e : Config engineSig (Except WorkflowError Value)) : Prop :=
  ∃ choice d, engine.choose (engine.continueWith (t.rest attempt) e) choice = some d ∧
    engine.choose e choice = none

/-- Every run of the task is a sequence of attempts and of waits between them, and respects
the limits of a policy and of the runtime. -/
structure Limited (t : TryTask) (policy : RetryPolicyDef) : Prop where
  stands : ∀ {σ₀ d}, engine.Reaches (engine.advance t.program.run σ₀) d → t.Stands σ₀ d
  bodies : ∀ {σ₀ attempt waited σ}, t.Attempts σ₀ attempt waited σ → σ.world.cancelled = false →
    attempt + 1 ≤ 1 + min (policy.attemptCount.getD t.env.policy.maxRetryAttempts)
      t.env.policy.maxRetryAttempts
  delays : ∀ limit ∈ policy.retryDuration, ∀ {σ₀ attempt waited σ},
    t.Attempts σ₀ attempt waited σ → waited ≤ limit
  cutOff : ∀ limit ∈ policy.attemptDuration, ∀ {σ₀ attempt waited σ e},
    t.Attempts σ₀ attempt waited σ → σ.world.cancelled = false →
      engine.Reaches (engine.advance t.bodyRun.run σ) e → e.1.value? = none →
        engine.droppable e.1 = true → t.CutOff attempt e

variable {t : TryTask}

/-- While the body of an attempt is under way, every turn of the task is one of its body. -/
theorem not_cutOff {attempt : Nat} {e : Config engineSig (Except WorkflowError Value)}
    (hRunning : e.1.value? = none) : ¬ t.CutOff attempt e := by
  rintro ⟨choice, d, hChoose, hNone⟩
  rw [engine.continueWith_of_none (t.rest attempt) hRunning] at hChoose
  cases choice with
  | env disturbance => cases hNone
  | turn move =>
      have hTurn : engine.step (e.1.bind (t.rest attempt)) move e.2 = some d := hChoose
      have hBody : engine.step e.1 move e.2 = none := hNone
      rw [engine.step_bind _ _ _ _ hRunning, hBody] at hTurn
      cases hTurn

/-- The attempts and the delays which the code allows. -/
theorem attempts_bound {policy : RetryPolicyDef} (hPolicy : t.catch_.retry = some policy)
    {σ₀ σ : EngineState} {attempt waited : Nat} (attempts : t.Attempts σ₀ attempt waited σ) :
    attempt ≤ policy.attemptCount.getD 0 ∧ waited ≤ policy.totalDelay attempt ∧
      (0 < attempt → t.env.MayRetry policy) := by
  induction attempts with
  | first => exact ⟨Nat.zero_le _, Nat.le_refl _, fun h => absurd h (Nat.lt_irrefl 0)⟩
  | again _ hAttempt _ ih =>
      obtain ⟨hLeft, other, hOther, hRetries, hDelay⟩ := asksRetry hAttempt
      rw [hPolicy] at hOther
      cases hOther
      rw [remaining, hPolicy] at hLeft
      simp only [Option.bind_some] at hLeft
      rw [RetryPolicyDef.totalDelay]
      exact ⟨by omega, by omega, fun _ => hRetries⟩

end TryTask

/-- The limits that are applied leave no room for those that are not: where a retry may be
asked for, what the count allows is within the others, and no limit on an attempt is declared. -/
structure RetryPolicyDef.Fits (policy : RetryPolicyDef) (env : RuntimeInner) : Prop where
  count : env.MayRetry policy → policy.attemptCount.getD 0 ≤ env.policy.maxRetryAttempts
  duration : env.MayRetry policy → ∀ limit ∈ policy.retryDuration,
    policy.totalDelay (policy.attemptCount.getD 0) ≤ limit
  attempt : policy.attemptDuration = none

theorem RetryPolicyDef.totalDelay_mono (policy : RetryPolicyDef) {m n : Nat} (hLe : m ≤ n) :
    policy.totalDelay m ≤ policy.totalDelay n := by
  induction hLe with
  | refl => exact Nat.le_refl _
  | step _ ih => exact ih.trans (Nat.le_add_right _ _)

/-- A policy whose other limits leave room for all that the count allows is respected: the attempts
are as many as the count at most, and their delays the sum of as many. -/
theorem TryTask.limited_of_fits {t : TryTask} {policy : RetryPolicyDef}
    (hPolicy : t.catch_.retry = some policy) (fits : policy.Fits t.env) : t.Limited policy := by
  constructor
  · exact fun reached => reaches_stands reached
  · intro σ₀ attempt waited σ attempts _
    obtain ⟨hCount, _, hRetries⟩ := attempts_bound hPolicy attempts
    rcases Nat.eq_zero_or_pos attempt with rfl | hPos
    · omega
    · have hFits := fits.count (hRetries hPos)
      cases hDeclared : policy.attemptCount with
      | none =>
          rw [hDeclared] at hCount
          exact absurd hCount (by simpa using hPos.ne')
      | some count =>
          rw [hDeclared] at hCount hFits
          simp only [Option.getD_some] at hCount hFits ⊢
          omega
  · intro limit hLimit σ₀ attempt waited σ attempts
    obtain ⟨hCount, hWaited, hRetries⟩ := attempts_bound hPolicy attempts
    rcases Nat.eq_zero_or_pos attempt with rfl | hPos
    · exact hWaited.trans (Nat.zero_le limit)
    · exact (hWaited.trans (policy.totalDelay_mono hCount)).trans
        (fits.duration (hRetries hPos) limit hLimit)
  · intro limit hLimit
    rw [fits.attempt] at hLimit
    cases hLimit

section Failing

variable (env : RuntimeInner) (policy : RetryPolicyDef) (exprCtx : ExpressionContext)
  (name : String) (err : WorkflowError)

/-- A world in which subscriptions fail, and the random numbers are as large as they may be. -/
def failingWorld : World :=
  { Sample.world with
    oracle := { Sample.oracle with subscribe := .error err, jitter := fun range => range } }

/-- A state of an execution in that world, which has gone on for a while. -/
def failingState (vars : Map) (trace : List Entry) : EngineState :=
  ⟨{ TaskLocal.initial with loopVars := vars },
    { Execution.initial (Sample.workflow [] []) 0 with trace }, failingWorld err⟩

/-- Such a state, while the lock of the context is held. -/
def lockedState (vars : Map) (trace : List Entry) : EngineState :=
  { failingState err vars trace with
    shared := { (failingState err vars trace).shared with locked := true } }

/-- A `try` task that takes every error, and retries as the policy says. -/
def retryingTask (body : List CompiledTask) : TryTask :=
  { env, fuel := 2, wf := Sample.workflow [] []
    ctx := executionContext Sample.runtime (Sample.workflow [] []) "id" .null 0
    body
    catch_ := { filter := none, as_ := some name, when := none, exceptWhen := none
                retry := some policy, then_ := none }
    handler := none, taskInput := .null, exprCtx }

/-- A task that fails when it cannot subscribe. -/
def subscribingTask : CompiledTask :=
  Sample.task "subscribe" none (.listen { to_ := .any [], read := none, until_ := none } none)

/-- A `try` task whose body waits. -/
def waitingTask : TryTask :=
  retryingTask env policy
    { context := .null, input := .null, output := .null, secrets := [], authorization := none
      task := none, workflow := none, runtime := none, extraVars := [] }
    "error" [Sample.task "wait" none (.wait 0)]

/-- The `try` task whose body subscribes. -/
def failingTask : TryTask := retryingTask env policy exprCtx name [subscribingTask]

/-- The body of an attempt reads the context under its lock, and then fails with the error
of the subscription. -/
theorem subscribing_ends (vars : Map) (trace : List Entry) :
    ∃ more, @Ends engineSig engine (fun _ => True) _
      (engine.advance (failingTask env policy exprCtx name).bodyRun.run (failingState err vars trace))
        (.error err) (failingState err vars more) := by
  have hTurns : ∃ p more q more' r more'',
      engine.advance (failingTask env policy exprCtx name).bodyRun.run (failingState err vars trace) =
        (.act .lockContext p, failingState err vars more) ∧
      engine.choose (.act .lockContext p, failingState err vars more) (.turn .here) =
        some (.act .unlockContext q, lockedState err vars more') ∧
      engine.choose (.act .unlockContext q, lockedState err vars more') (.turn .here) =
        some (.act .subscribe r, failingState err vars more'') ∧
      engine.choose (.act .subscribe r, failingState err vars more'') (.turn .here) =
        some (.done (.error err), failingState err vars more'') :=
    ⟨_, _, _, _, _, _, rfl, rfl, rfl, rfl⟩
  obtain ⟨p, more, q, more', r, more'', hStart, hLock, hUnlock, hSubscribe⟩ := hTurns
  refine ⟨more'', ?_⟩
  rw [hStart]
  exact .step rfl trivial hLock (.step rfl trivial hUnlock (.step rfl trivial hSubscribe (.here _ _)))

theorem computeDelay_failing (attempt : Nat) (vars : Map) (trace : List Entry) :
    engine.advance (computeDelay policy attempt) (failingState err vars trace) =
      (.done (policy.longestDelay attempt), failingState err vars trace) := by
  unfold computeDelay RetryPolicyDef.longestDelay
  cases policy.jitter with
  | none => rfl
  | some range =>
      obtain ⟨from_, to_⟩ := range
      have hLargest : Nat.min ((to_ - from_) / 1000000) ((to_ - from_) / 1000000 - 1) =
          (to_ - from_) / 1000000 - 1 := Nat.min_eq_right (Nat.sub_le _ _)
      show ((.done (min (backoffDelay policy attempt + min (from_ +
        Nat.min ((to_ - from_) / 1000000) ((to_ - from_) / 1000000 - 1) * 1000000) maxDuration)
          maxDuration), _) : Config engineSig Nat) = _
      rw [hLargest]

variable {env policy exprCtx name err}

/-- The catch clause takes the error, and the conditions of the policy ask for a retry. -/
theorem failing_verdict {vars : Map} (left : Nat)
    (hHold : env.conditions policy.when policy.exceptWhen vars = .ok true) :
    env.verdict (failingTask env policy exprCtx name).catch_ vars (left + 1) err = .retried policy := by
  have hCatches : env.catches (failingTask env policy exprCtx name).catch_ err vars = .ok true := rfl
  have hAgain : env.retries (failingTask env policy exprCtx name).catch_.retry vars = .ok true := hHold
  rw [RuntimeInner.verdict, hCatches]
  dsimp only
  rw [hAgain]
  rfl

/-- Each attempt fails, and asks for another one after the longest delay. -/
theorem failing_attempt {bound vars : Map} (hBound : Map.insert name err.toProblemJson vars = bound)
    (hHold : env.conditions policy.when policy.exceptWhen
      (Map.extend exprCtx.asVariableMap bound) = .ok true)
    {attempt : Nat} (hLeft : attempt < policy.attemptCount.getD 0) (trace : List Entry) :
    ∃ more, engine.Finishes (engine.advance ((failingTask env policy exprCtx name).attempt attempt).run
      (failingState err vars trace)) (.ok (.retry (policy.longestDelay (attempt + 1))))
        (failingState err bound more) := by
  subst hBound
  obtain ⟨more, hBody⟩ := subscribing_ends env policy exprCtx name err vars trace
  obtain ⟨left, hRemaining⟩ : ∃ left,
      (failingTask env policy exprCtx name).remaining attempt = left + 1 :=
    Nat.exists_eq_succ_of_ne_zero (Nat.sub_ne_zero_of_lt hLeft)
  obtain ⟨τ, hNoted, hDecides⟩ := advance_afterFailure env
    (failingTask env policy exprCtx name).catch_ err exprCtx
    (failingTask env policy exprCtx name).runner (Sample.workflow [] [])
    (failingTask env policy exprCtx name).ctx none .null (left + 1) attempt
    (failingState err vars more)
  have hVerdict : env.verdict (failingTask env policy exprCtx name).catch_
      (EngineState.catchVars (failingState err vars more)
        (failingTask env policy exprCtx name).catch_ err exprCtx) (left + 1) err = .retried policy :=
    failing_verdict left hHold
  rw [hVerdict] at hDecides
  have hState : ∃ trace', τ = failingState err (Map.insert name err.toProblemJson vars) trace' := by
    obtain ⟨notes, hShared⟩ := hNoted.shared
    obtain ⟨after, shared, world⟩ := τ
    cases hNoted.world
    cases hNoted.loc
    cases hShared
    exact ⟨_, rfl⟩
  obtain ⟨trace', rfl⟩ := hState
  have hDelay := computeDelay_failing policy err (attempt + 1)
    (Map.insert name err.toProblemJson vars) trace'
  have ends : @Ends engineSig engine (fun _ => True) _
      (engine.advance ((failingTask env policy exprCtx name).attempt attempt).run
        (failingState err vars trace)) (.ok (.retry (policy.longestDelay (attempt + 1))))
        (failingState err (Map.insert name err.toProblemJson vars) trace') := by
    rw [TryTask.attempt, hRemaining, tryAttempt]
    refine Ends.seq_iff.mpr (Or.inl ⟨(), failingState err vars trace, .here _ _, ?_⟩)
    refine Ends.seq_iff.mpr (Or.inl ⟨.error err, failingState err vars more, ?_, ?_⟩)
    · exact Ends.bind_iff.mpr ⟨_, _, hBody, .here _ _⟩
    · exact .of_eq (hDecides.trans (advance_bind_of_ok (advance_lift_of_done hDelay)))
  exact ⟨trace', ends.follows.reaches⟩

/-- The timer of the wait goes off. -/
theorem failing_wait (ctx : ExecContext) (delay : Nat) (vars : Map) (trace : List Entry) :
    engine.Finishes (engine.advance (waitWithCancel ctx delay).run (failingState err vars trace))
      (.ok ()) (failingState err vars trace) :=
  ⟨[.turn .here], rfl⟩

/-- All the retries that the policy counts are made, and each sees the same variables. -/
theorem failing_attempts {vars : Map} (hHold : env.conditions policy.when policy.exceptWhen
      (Map.extend exprCtx.asVariableMap (Map.insert name err.toProblemJson vars)) = .ok true)
    {attempt : Nat} (hCount : attempt ≤ policy.attemptCount.getD 0) :
    ∃ seen trace, Map.insert name err.toProblemJson seen = Map.insert name err.toProblemJson vars ∧
      (failingTask env policy exprCtx name).Attempts (failingState err vars []) attempt
        (policy.totalDelay attempt) (failingState err seen trace) := by
  induction attempt with
  | zero => exact ⟨vars, [], rfl, .first⟩
  | succ attempt ih =>
      obtain ⟨seen, trace, hSeen, attempts⟩ := ih (Nat.le_of_succ_le hCount)
      obtain ⟨more, hAttempt⟩ := failing_attempt hSeen hHold hCount trace
      exact ⟨_, more, Map.insert_insert .., attempts.again hAttempt (failing_wait _ _ _ more)⟩

end Failing

/-- A runtime respects the limits of a policy, whatever fails and whatever the world answers,
exactly if what it applies leaves no room for what it does not. -/
theorem retryLimits_iff (env : RuntimeInner) (policy : RetryPolicyDef) :
    (∀ t : TryTask, t.env = env → t.catch_.retry = some policy → t.Limited policy) ↔
      policy.Fits env := by
  constructor
  · intro hLimited
    constructor
    · rintro ⟨exprCtx, name, err, vars, hHold⟩
      obtain ⟨seen, trace, _, attempts⟩ := failing_attempts hHold (Nat.le_refl _)
      have hBound := (hLimited (failingTask env policy exprCtx name) rfl rfl).bodies attempts rfl
      have hMin := Nat.min_le_right (policy.attemptCount.getD env.policy.maxRetryAttempts)
        env.policy.maxRetryAttempts
      exact (Nat.le_of_succ_le_succ (by rwa [Nat.add_comm 1] at hBound)).trans hMin
    · rintro ⟨exprCtx, name, err, vars, hHold⟩ limit hLimit
      obtain ⟨seen, trace, _, attempts⟩ := failing_attempts hHold (Nat.le_refl _)
      exact (hLimited (failingTask env policy exprCtx name) rfl rfl).delays limit hLimit attempts
    · cases hDuration : policy.attemptDuration with
      | none => rfl
      | some limit =>
          have hCut := (hLimited (waitingTask env policy) rfl rfl).cutOff limit hDuration
            (@TryTask.Attempts.first (waitingTask env policy) (failingState (runtimeError "") [] []))
            rfl (.refl _ _) rfl rfl
          exact absurd hCut (TryTask.not_cutOff rfl)
  · rintro fits t rfl hPolicy
    exact TryTask.limited_of_fits hPolicy fits

/-- A policy that retries once after ten seconds, although all delays together are limited
to five seconds and an attempt to one second. -/
def impatientPolicy : RetryPolicyDef :=
  { when := none, exceptWhen := none, delay := some 10000000000, backoff := .constant, jitter := none
    attemptCount := some 1, attemptDuration := some 1000000000, retryDuration := some 5000000000 }

/-- A runtime whose policy allows no retries. -/
def firmRuntime : RuntimeInner :=
  { Sample.runtime with policy := { RuntimePolicy.default with maxRetryAttempts := 0 } }

/-- On a runtime that allows no retries, the body runs twice and the delay is too long. Nothing
cuts off an attempt. -/
theorem impatientPolicy_exceeds :
    ∃ t : TryTask, t.env = firmRuntime ∧ t.catch_.retry = some impatientPolicy ∧
      ¬ t.Limited impatientPolicy ∧
      (∃ σ₀ σ, σ.world.cancelled = false ∧ t.Attempts σ₀ 1 10000000000 σ) ∧
      ∀ e, engine.advance (waitingTask firmRuntime impatientPolicy).bodyRun.run
        (failingState (runtimeError "") [] []) = e →
          ¬ (waitingTask firmRuntime impatientPolicy).CutOff 0 e := by
  have hHold : firmRuntime.conditions impatientPolicy.when impatientPolicy.exceptWhen
      (Map.extend (waitingTask firmRuntime impatientPolicy).exprCtx.asVariableMap
        (Map.insert "error" (runtimeError "").toProblemJson [])) = .ok true := rfl
  obtain ⟨seen, trace, _, attempts⟩ := failing_attempts hHold (Nat.le_refl 1)
  refine ⟨_, rfl, rfl, fun hLimited => ?_, ⟨_, _, rfl, attempts⟩, ?_⟩
  · exact absurd (hLimited.bodies attempts rfl) (by decide)
  · rintro e rfl
    exact TryTask.not_cutOff rfl

end OwsRuntime
