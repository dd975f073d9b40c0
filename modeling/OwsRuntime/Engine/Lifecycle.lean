import OwsRuntime.Engine.Trails

/-! The course of a single execution: what it stores and announces from its start to its
end, at every suspension point and when it has returned. -/
namespace OwsRuntime

open Async Law
open Async.Handler (Ensures Drifts)

/-- What an execution stores before its end. -/
def StoreOp.Unfinished : StoreOp → Prop
  | create record => record.phase = .running
  | update record => record.phase = .running
  | append event => event.eventType = "workflow.started"

def Underway (ops : List StoreOp) : Prop := ∀ op ∈ ops, op.Unfinished

/-- What an execution may have stored: its progress, then a terminal record, and then the
event that goes with it. -/
inductive Course : List StoreOp → Prop where
  | underway {ops : List StoreOp} (hOps : Underway ops) : Course ops
  | closed {ops : List StoreOp} {record : ExecutionRecord} (hOps : Underway ops)
      (hTerminal : record.phase.isTerminal = true) : Course (ops ++ [.update record])
  | reported {ops : List StoreOp} {record : ExecutionRecord} {event : StoredEvent}
      (hOps : Underway ops) (hTerminal : record.phase.isTerminal = true)
      (hEvent : event.eventType = terminalEventType record.phase) :
      Course (ops ++ [.update record, .append event])

/-- All that an execution has stored in the end. -/
def Concluded (result : Except WorkflowError Value) (ops : List StoreOp) : Prop :=
  ∃ before record event, ops = before ++ [.update record, .append event] ∧ Underway before ∧
    record.phase = terminalPhase result ∧ event.eventType = terminalEventType record.phase

theorem terminalPhase_isTerminal (result : Except WorkflowError Value) :
    (terminalPhase result).isTerminal = true := by
  cases result with
  | ok value => rfl
  | error e =>
      rw [terminalPhase]
      split <;> rfl

theorem Concluded.course {result : Except WorkflowError Value} {ops : List StoreOp}
    (concluded : Concluded result ops) : Course ops := by
  obtain ⟨before, record, event, rfl, hBefore, hPhase, hEvent⟩ := concluded
  have hTerminal : record.phase.isTerminal = true := by
    rw [hPhase]
    exact terminalPhase_isTerminal result
  exact Course.reported hBefore hTerminal hEvent

theorem Underway.append {first second : List StoreOp} (hFirst : Underway first)
    (hSecond : Underway second) : Underway (first ++ second) :=
  fun op hMem => (List.mem_append.mp hMem).elim (hFirst op) (hSecond op)

theorem Course.prepend {before ops : List StoreOp} (hBefore : Underway before)
    (course : Course ops) : Course (before ++ ops) := by
  cases course with
  | underway hOps => exact Course.underway (hBefore.append hOps)
  | closed hOps hTerminal =>
      rw [← List.append_assoc]
      exact Course.closed (hBefore.append hOps) hTerminal
  | reported hOps hTerminal hEvent =>
      rw [← List.append_assoc]
      exact Course.reported (hBefore.append hOps) hTerminal hEvent

theorem Concluded.prepend {result : Except WorkflowError Value} {before ops : List StoreOp}
    (hBefore : Underway before) (concluded : Concluded result ops) :
    Concluded result (before ++ ops) := by
  obtain ⟨earlier, record, event, rfl, hEarlier, hRest⟩ := concluded
  refine ⟨before ++ earlier, record, event, ?_, hBefore.append hEarlier, hRest⟩
  rw [List.append_assoc]

theorem StoreOp.Progress.unfinished {op : StoreOp} {executionId : String}
    (progress : op.Progress executionId) : op.Unfinished := by
  obtain ⟨record, rfl, _, hPhase⟩ := progress
  exact hPhase

variable {env : RuntimeInner} {wf : CompiledWorkflow} {ctx : ExecContext} {r : Runner}
  {allowed : engine.Choice → Prop} {σ : EngineState} {v : World} {executionId : String} {α β : Type}

/-- A kind of trail: which operations and which announcements it may hold. -/
abbrev Deeds := List StoreOp → List EventMessage → Prop

/-- The world has moved on since another one, leaving such a trail. -/
def Since (executionId : String) (v : World) (P : Deeds) (τ : EngineState) : Prop :=
  ∃ added events, v.Trail executionId τ.world added events ∧
    P added (announcements executionId events)

section Steps

variable {I J P : Deeds}

theorem Since.refl (hP : P [] []) : Since executionId σ.world P σ := ⟨[], [], .refl _, hP⟩

theorem Since.mono {τ : EngineState} (since : Since executionId v P τ)
    (hPI : ∀ added announced, P added announced → I added announced) : Since executionId v I τ := by
  obtain ⟨added, events, trail, hP⟩ := since
  exact ⟨added, events, trail, hPI _ _ hP⟩

theorem Since.draws (since : Since executionId v P σ) (hDraws : v.Draws (· ≠ executionId)) :
    σ.world.Draws (· ≠ executionId) := by
  obtain ⟨added, events, trail, _⟩ := since
  exact trail.draws hDraws

theorem Since.drifts {w : World} (since : Since executionId v P σ)
    (drifts : Drifts allowed σ.world w) : Since executionId v P { σ with world := w } := by
  obtain ⟨added, events, trail, hP⟩ := since
  refine ⟨added, events, ?_, hP⟩
  simpa using trail.trans (World.Trail.of_drifts drifts)

/-- What has returned leaves nothing more. -/
theorem Since.done {Q : α → Deeds} {value : α} (since : Since executionId v (Q value) σ)
    (hQ : ∀ added announced, Q value added announced → I added announced) :
    Ensures allowed (Since executionId v I) (fun value => Since executionId v (Q value))
      (Program.done value) σ :=
  Ensures.done fun _ drifts => ⟨(since.drifts drifts).mono hQ, since.drifts drifts⟩

/-- A step of an execution, and the rest of it. -/
theorem Since.bind {p : Future α} {f : α → Future β} {R : α → EngineState → Prop} {Q : β → Deeds}
    (first : Ensures allowed (Since executionId v J) R p σ)
    (hJ : ∀ added announced, J added announced → I added announced)
    (hNext : ∀ value τ, R value τ → Ensures allowed (Since executionId v I)
      (fun result => Since executionId v (Q result)) (f value) τ) :
    Ensures allowed (Since executionId v I) (fun result => Since executionId v (Q result))
      (p >>= f) σ :=
  Ensures.bind (first.mono (fun _ hI => hI.mono hJ) fun value τ _ hR => hNext value τ hR)

/-- The same for a step that cannot fail within a program that may. -/
theorem Since.lift {p : Future α} {f : α → Run β} {R : α → EngineState → Prop}
    {Q : Except WorkflowError β → Deeds}
    (first : Ensures allowed (Since executionId v J) R p σ)
    (hJ : ∀ added announced, J added announced → I added announced)
    (hNext : ∀ value τ, R value τ → Ensures allowed (Since executionId v I)
      (fun result => Since executionId v (Q result)) (f value).run τ) :
    Ensures allowed (Since executionId v I) (fun result => Since executionId v (Q result))
      ((liftM p : Run α) >>= f).run σ :=
  Ensures.lift (first.mono (fun _ hI => hI.mono hJ) fun value τ _ hR => hNext value τ hR)

/-- The same for a step that may fail. -/
theorem Since.seq {p : Run α} {f : α → Run β} {R : Except WorkflowError α → EngineState → Prop}
    {Q : Except WorkflowError β → Deeds}
    (first : Ensures allowed (Since executionId v J) R p.run σ)
    (hJ : ∀ added announced, J added announced → I added announced)
    (hOk : ∀ value τ, R (.ok value) τ → Ensures allowed (Since executionId v I)
      (fun result => Since executionId v (Q result)) (f value).run τ)
    (hError : ∀ e τ, R (.error e) τ → Since executionId v (Q (.error e)) τ)
    (hQ : ∀ e added announced, Q (.error e) added announced → I added announced) :
    Ensures allowed (Since executionId v I) (fun result => Since executionId v (Q result))
      (p >>= f).run σ := by
  apply Ensures.seq (first.mono (fun _ hI => hI.mono hJ) fun _ _ _ hR => hR)
  · intro value τ _ hR
    exact hOk value τ hR
  · intro e τ _ hR
    exact Since.done (hError e τ hR) (hQ e)

/-- What the law of worlds gives of a trail: a program that obeys it adds operations of its own to
the trail, and announces nothing. -/
theorem asks_since {own : StoreOp → Prop} {p : Future α}
    (asks : FutureObeys (worldLaw (· ≠ executionId) own)
      ((worldLaw (· ≠ executionId) own).may σ.shared) p)
    (hDraws : v.Draws (· ≠ executionId)) (since : Since executionId v P σ)
    (hPI : ∀ added announced more, P added announced → (∀ op ∈ more, own op) →
      I (added ++ more) announced) :
    Ensures allowed (Since executionId v I) (fun _ => Since executionId v I) p σ := by
  have hSince : ∀ τ : EngineState, σ.world.Moves (· ≠ executionId) own τ.world →
      Since executionId v I τ := by
    intro τ moves
    obtain ⟨added, events, trail, hP⟩ := since
    obtain ⟨more, others, hTrail, hOwn, hOthers⟩ := World.Trail.of_moves moves
    refine ⟨added ++ more, events ++ others, trail.trans hTrail, ?_⟩
    rw [announcements_append, hOthers, List.append_nil]
    exact hPI added _ more hP hOwn
  refine (Handler.ensures_of_asks asks (worldLaw_fit (since.draws hDraws))).mono ?_ ?_
  · exact fun τ hI => hSince τ hI.2
  · exact fun _ τ hI _ => hSince τ hI.2

/-- What leaves nothing under the id. -/
theorem quiet_since {p : Future α}
    (asks : FutureObeys (worldLaw (· ≠ executionId) fun _ => False)
      ((worldLaw (· ≠ executionId) fun _ => False).may σ.shared) p)
    (hDraws : v.Draws (· ≠ executionId)) (since : Since executionId v P σ) :
    Ensures allowed (Since executionId v P) (fun _ => Since executionId v P) p σ := by
  apply asks_since asks hDraws since
  intro added announced more hP hNone
  rw [List.eq_nil_iff_forall_not_mem.mpr hNone, List.append_nil]
  exact hP

theorem ask_since (a : Act) (hMay : (worldLaw (· ≠ executionId) fun _ => False).may σ.shared a)
    (hDraws : v.Draws (· ≠ executionId)) (since : Since executionId v P σ) :
    Ensures allowed (Since executionId v P) (fun _ => Since executionId v P) (ask a) σ :=
  quiet_since (ask_obeys hMay) hDraws since

theorem ask_ensures {a : Act} {I : EngineState → Prop} {Q : a.Resp → EngineState → Prop}
    (hDrift : ∀ w, Drifts allowed σ.world w → I { σ with world := w } ∧
      ∀ reply τ, perform a { σ with world := w } = some (reply, τ) →
        ∀ x, Drifts allowed τ.world x → I { τ with world := x } ∧ Q reply { τ with world := x }) :
    Ensures allowed I Q (ask a) σ :=
  Ensures.request hDrift

theorem ask_sync_ensures {a : Act} {I : EngineState → Prop} {Q : a.Resp → EngineState → Prop}
    {reply : a.Resp} {τ : EngineState} (hMode : a.mode = .sync)
    (hPerform : perform a σ = some (reply, τ)) (hDrift : ∀ w, Drifts allowed τ.world w →
      I { τ with world := w } ∧ Q reply { τ with world := w }) : Ensures allowed I Q (ask a) σ :=
  Ensures.sync hMode hPerform (Ensures.done hDrift)

/-- A store operation of the execution is added to its trail in the turn in which it is performed,
and stays there; until then nothing is added. -/
theorem store_since {op : StoreOp} (since : Since executionId v P σ)
    (hId : op.executionId = executionId)
    (hPI : ∀ added announced, P added announced → I (added ++ [op]) announced) :
    Ensures allowed (Since executionId v fun added announced => P added announced ∨ I added announced)
      (fun _ => Since executionId v I) (store op) σ := by
  have hOwn : ∀ accepted, StoreEntry.own executionId { op, foreign := false, accepted } = true := by
    intro accepted
    simp [StoreEntry.own, hId]
  apply ask_ensures (a := .store op)
  intro w drifts
  have waited := since.drifts drifts
  refine ⟨waited.mono fun _ _ => Or.inl, ?_⟩
  intro reply τ hPerform x later
  obtain ⟨added, events, trail, hP⟩ := waited
  have hTrail : w.Trail executionId τ.world [op] [] := by
    rw [perform] at hPerform
    split at hPerform <;> cases hPerform
    · exact World.Trail.of_entry (hOwn false)
    · cases op <;> exact World.Trail.of_entry (hOwn true)
  have hDone : Since executionId v I τ := by
    refine ⟨added ++ [op], events ++ [], trail.trans hTrail, ?_⟩
    rw [List.append_nil]
    exact hPI _ _ hP
  exact ⟨(hDone.drifts later).mono fun _ _ => Or.inr, hDone.drifts later⟩

/-- An event is published some time, and the storage of the execution stays as it is. -/
theorem announce_ensures (event : EventMessage) :
    Ensures allowed
      (fun τ => σ.world.Trail executionId τ.world [] [] ∨
        σ.world.Trail executionId τ.world [] [(some executionId, event)])
      (fun _ τ => (τ.loc = σ.loc ∧ τ.shared = σ.shared) ∧
        σ.world.Trail executionId τ.world [] [(some executionId, event)])
      (announce executionId event).run σ := by
  apply ask_ensures (a := .publish (some executionId) event)
  intro w drifts
  have waited : σ.world.Trail executionId w [] [] := .of_drifts drifts
  refine ⟨Or.inl waited, ?_⟩
  rintro reply τ hPerform x later
  cases hPerform
  have hAll := (waited.trans (World.Trail.of_publish (some executionId, event))).trans
    (World.Trail.of_drifts later)
  exact ⟨Or.inr hAll, ⟨rfl, rfl⟩, hAll⟩

theorem announce_since {event : EventMessage} (since : Since executionId v P σ)
    (hPI : ∀ added announced, P added announced → I added (announced ++ [event])) :
    Ensures allowed (Since executionId v fun added announced => P added announced ∨ I added announced)
      (fun _ => Since executionId v I) (announce executionId event).run σ := by
  obtain ⟨added, events, trail, hP⟩ := since
  have hPublished : ∀ τ : EngineState,
      σ.world.Trail executionId τ.world [] [(some executionId, event)] → Since executionId v I τ := by
    intro τ hTrail
    refine ⟨added ++ [], events ++ [(some executionId, event)], trail.trans hTrail, ?_⟩
    rw [List.append_nil, announcements_append]
    simpa [announcements] using hPI _ _ hP
  refine (announce_ensures event).mono ?_ fun _ τ _ hQ => hPublished τ hQ.2
  rintro τ (hWaiting | hDone)
  · refine ⟨added, events, ?_, Or.inl hP⟩
    simpa using trail.trans hWaiting
  · exact (hPublished τ hDone).mono fun _ _ => Or.inr

/-- A trail that continues another one. -/
theorem Since.after {τ : EngineState} {w : World} {events : List (Option String × EventMessage)}
    (since : Since executionId w P τ) (trail : v.Trail executionId w [] events)
    (hPI : ∀ added announced, P added announced →
      I added (announcements executionId events ++ announced)) : Since executionId v I τ := by
  obtain ⟨added, others, hTrail, hP⟩ := since
  refine ⟨[] ++ added, events ++ others, trail.trans hTrail, ?_⟩
  rw [announcements_append]
  exact hPI _ _ hP

end Steps

end OwsRuntime
