import OwsRuntime.Engine.Runs

/-! Updates of the workflow context by concurrent tasks. A task without an export
reads the context and writes it back in another critical section. -/
namespace OwsRuntime

open Async

/-- The value which an export puts into the context, or the entry of an execution. -/
def Note.exported? : Note → Option Value
  | contextWritten (.readBack _) _ => none
  | contextWritten _ value => some value
  | _ => none

/-- The last exported value, or the value found when nothing was exported. -/
def lastExport (found : Value) (during : List Entry) : Value :=
  (during.filterMap fun entry => entry.note.exported?).getLast?.getD found

/-- In a stretch of a trace, no task without an export has changed the context,
and the context at its end is the last exported value. -/
structure NoLostUpdate (before during : List Entry) (context : Value) : Prop where
  unchanged : ∀ past entry later position value, during = past ++ entry :: later →
    entry.note = .contextWritten (.readBack position) value →
    cell (before ++ past ++ [entry]) = cell (before ++ past)
  last : context = lastExport (cell before) during

/-- Every task without an export finds the context, when it writes it back, as it
was when the task read it. -/
def WriteBacksFresh (before during : List Entry) : Prop :=
  ∀ past entry later position value, during = past ++ entry :: later →
    entry.note = .contextWritten (.readBack position) value →
    cell (before ++ past) = cell ((before ++ past).take position)

section Stretches

variable {wf : CompiledWorkflow} {start : Nat} {before during past later : List Entry}
  {entry : Entry}

/-- What is written back is the context at the time of the read. -/
theorem Accounted.readBack_value {position : Nat} {value : Value}
    (accounted : Accounted wf start (past ++ entry :: later))
    (hEntry : entry.note = .contextWritten (.readBack position) value) :
    value = cell (past.take position) := by
  have hJustified := accounted.split rfl
  rw [Justified, hEntry] at hJustified
  obtain ⟨read, hAt, hRead⟩ := hJustified
  have hReadJustified := accounted.of_append.at_ hAt
  rw [Justified, hRead] at hReadJustified
  exact hReadJustified

theorem lastExport_append (found : Value) :
    lastExport found (during ++ [entry]) =
      (entry.note.exported?).getD (lastExport found during) := by
  unfold lastExport
  cases hExported : entry.note.exported? with
  | none => simp [hExported]
  | some value => simp [hExported]

/-- A fresh write-back does not change the context. -/
theorem WriteBacksFresh.cell_eq {position : Nat} {value : Value}
    (fresh : WriteBacksFresh before during)
    (accounted : Accounted wf start (before ++ during)) (hDuring : during = past ++ entry :: later)
    (hEntry : entry.note = .contextWritten (.readBack position) value) :
    cell (before ++ past ++ [entry]) = cell (before ++ past) := by
  rw [hDuring, ← List.append_assoc] at accounted
  rw [fresh past entry later position value hDuring hEntry, ← accounted.readBack_value hEntry]
  exact cell_append_of_some (by rw [hEntry]; rfl)

/-- When every write-back is fresh, the context is the last exported value. -/
theorem WriteBacksFresh.cell_eq_lastExport (fresh : WriteBacksFresh before during)
    (accounted : Accounted wf start (before ++ during)) :
    cell (before ++ during) = lastExport (cell before) during := by
  induction during using List.reverseRecOn with
  | nil => simp [lastExport]
  | append_singleton during entry ih =>
      have hPrior : cell (before ++ during) = lastExport (cell before) during := by
        refine ih (fun past other later position value hDuring => ?_) ?_
        · exact fresh past other (later ++ [entry]) position value (by simp [hDuring])
        · rw [← List.append_assoc] at accounted
          exact accounted.of_append
      rw [lastExport_append, ← hPrior, ← List.append_assoc]
      cases hNote : entry.note with
      | contextWritten source value =>
          cases source with
          | readBack position =>
              exact fresh.cell_eq accounted rfl hNote
          | _ => exact cell_append_of_some (by rw [hNote]; rfl)
      | _ => exact cell_append_of_none (by rw [hNote]; rfl)

/-- No update is lost if and only if every write-back is fresh. -/
theorem Accounted.noLostUpdate_iff_fresh (accounted : Accounted wf start (before ++ during)) :
    NoLostUpdate before during (cell (before ++ during)) ↔ WriteBacksFresh before during := by
  constructor
  · intro kept past entry later position value hDuring hEntry
    have hUnchanged := kept.unchanged past entry later position value hDuring hEntry
    rw [cell_append_of_some (by rw [hEntry]; rfl)] at hUnchanged
    rw [← hUnchanged]
    rw [hDuring, ← List.append_assoc] at accounted
    exact accounted.readBack_value hEntry
  · intro fresh
    refine ⟨fun past entry later position value hDuring hEntry => ?_, ?_⟩
    · exact fresh.cell_eq accounted hDuring hEntry
    · exact fresh.cell_eq_lastExport accounted

end Stretches

/-- In every run, and whatever stretch of it one looks at, such as that of the
branches of a fork: no task without an export has changed the context, which is
then the last exported value or what was there before, if and only if every such
task has found the context, when it wrote it back, as it had read it. -/
theorem Execution.Arises.noLostUpdate_iff {env : RuntimeInner} {e : Execution}
    {before during : List Entry} (arises : e.Arises env) (hTrace : e.trace = before ++ during) :
    NoLostUpdate before during e.context ↔ WriteBacksFresh before during := by
  have faithful := arises.faithful
  rw [faithful.context, hTrace]
  exact Accounted.noLostUpdate_iff_fresh (hTrace ▸ faithful.accounted)

/-- A fork with a branch that exports `true`, and one without an export. -/
def exportFork : CompiledWorkflow :=
  let exporting := { Sample.task "exports" none (.set (.map [])) with
    export_ := { schema := none, transform := some "true" } }
  Sample.workflow
    [Sample.task "fork" none (.fork [exporting, Sample.task "keeps" none (.set (.map []))] false)] []

/-- Turns of the task that runs the scopes, and of a branch of its fork. -/
def rootTurns (count : Nat) : List engine.Choice := List.replicate count (.turn .here)

def branchTurns (index count : Nat) : List engine.Choice :=
  List.replicate count (.turn (.branch index .here))

/-- What the branches of `exportFork` have exported, and the context. -/
def Execution.exported (e : Execution) : List Value × Value :=
  ((e.trace.drop 5).filterMap fun entry => entry.note.exported?, e.context)

/-- When the branches run one after the other, the export is kept. -/
theorem noLostUpdate_iff_exportFork :
    ∃ e : Execution, e.Arises Sample.runtime ∧ e.exported = ([.bool true], .bool true) ∧
      (NoLostUpdate (e.trace.take 5) (e.trace.drop 5) e.context ↔
        WriteBacksFresh (e.trace.take 5) (e.trace.drop 5)) := by
  have hRun : (engine.run (Sample.begin_ exportFork .null)
      (rootTurns 7 ++ branchTurns 0 5 ++ branchTurns 1 7 ++ rootTurns 1)).map
        (fun d => d.2.shared.exported) = some ([.bool true], .bool true) := by decide +kernel
  obtain ⟨e, arises, _, hExported⟩ := Sample.arises_of_run hRun
  exact ⟨e, arises, hExported, arises.noLostUpdate_iff (List.take_append_drop 5 e.trace).symm⟩

/-- The branch without an export reads the context, the other one exports `true`,
and then the first one writes back what it has read. -/
theorem exportFork_loses_update :
    ∃ e : Execution, e.Arises Sample.runtime ∧
      ¬ NoLostUpdate (e.trace.take 5) (e.trace.drop 5) e.context := by
  have hRun : (engine.run (Sample.begin_ exportFork .null)
      (rootTurns 7 ++ branchTurns 1 5 ++ branchTurns 0 5 ++ branchTurns 1 2 ++ rootTurns 1)).map
        (fun d => d.2.shared.exported) = some ([.bool true], .null) := by decide +kernel
  obtain ⟨e, arises, _, hExported⟩ := Sample.arises_of_run hRun
  rw [Execution.exported, Prod.mk.injEq] at hExported
  refine ⟨e, arises, fun kept => ?_⟩
  have hLast := kept.last
  rw [lastExport, hExported.1, hExported.2] at hLast
  cases hLast

end OwsRuntime
