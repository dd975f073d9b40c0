import OwsRuntime.Engine.Runs

/-! Extensions whose `before` scopes exit. The engine reports an `exit` through one
flag for all the scopes of a task, so that a `before` scope seems to exit when a
scope nested in it does. -/
namespace OwsRuntime

open Async

/-- The `before` scope has itself taken `exit`, and not only a scope nested in it. -/
def BeforeScope.ExitsItself (before : BeforeScope) : Prop := before.scope ∈ before.exits

/-- The body of the task is skipped if and only if a `before` scope itself exits. -/
def ShortCircuits (ran : List BeforeScope) (skipBody : Bool) : Prop :=
  skipBody = true ↔ ∃ before ∈ ran, before.ExitsItself

theorem BeforeScope.ExitsItself.exits {before : BeforeScope} (exits : before.ExitsItself) :
    before.exits ≠ [] :=
  List.ne_nil_of_mem exits

/-- At most one `before` scope of a task is left by an exit. -/
theorem Extended.unique {ran : List BeforeScope} {skipBody : Bool}
    (extended : Extended ran skipBody) {first second : BeforeScope} (hFirst : first ∈ ran)
    (hSecond : second ∈ ran) (hExits : first.exits ≠ []) (hOther : second.exits ≠ []) :
    first = second := by
  have hPairs := extended.last
  clear extended
  induction hPairs with
  | nil => cases hFirst
  | @cons before rest hHead _ ih =>
      rcases List.mem_cons.mp hFirst with rfl | hFirst'
      · rcases List.mem_cons.mp hSecond with rfl | hSecond'
        · rfl
        · exact absurd (hHead second hSecond') hExits
      · rcases List.mem_cons.mp hSecond with rfl | hSecond'
        · exact absurd (hHead first hFirst') hOther
        · exact ih hFirst' hSecond'

/-- In every run, an extended task skips its body exactly when a `before` scope
itself exits, if and only if no `before` scope is one in which only nested scopes
have exited. -/
theorem Execution.Arises.shortCircuits_iff {env : RuntimeInner} {e : Execution}
    (arises : e.Arises env) {ran : List BeforeScope} {skipBody : Bool}
    (hNote : Noted (.extended ran skipBody) e.trace) :
    ShortCircuits ran skipBody ↔ ∀ before ∈ ran, before.exits ≠ [] → before.ExitsItself := by
  obtain ⟨entry, hEntry, hNote⟩ := hNote
  obtain ⟨past, later, hTrace⟩ := List.append_of_mem hEntry
  have extended := arises.faithful.accounted.split hTrace
  rw [Justified, hNote] at extended
  constructor
  · intro short before hBefore hExits
    have hSkipped := extended.skipped_iff.mpr ⟨before, hBefore, hExits⟩
    obtain ⟨other, hOther, exits⟩ := short.mp hSkipped
    rw [extended.unique hBefore hOther hExits exits.exits]
    exact exits
  · intro all
    rw [ShortCircuits, extended.skipped_iff]
    constructor
    · rintro ⟨before, hBefore, hExits⟩
      exact ⟨before, hBefore, all before hBefore hExits⟩
    · rintro ⟨before, hBefore, exits⟩
      exact ⟨before, hBefore, exits.exits⟩

/-- The names of the tasks of a `before` scope, and of the scopes that exited in it. -/
structure BeforeNames where
  scope : List String
  exits : List (List String)
deriving DecidableEq

def BeforeScope.names (before : BeforeScope) : BeforeNames :=
  { scope := before.scope.map (·.name), exits := before.exits.map fun scope => scope.map (·.name) }

/-- The `before` scopes of the extended tasks, and whether the body was skipped. -/
def Execution.extended (e : Execution) : List (List BeforeNames × Bool) :=
  e.trace.filterMap fun entry => match entry.note with
    | .extended ran skipBody => some (ran.map BeforeScope.names, skipBody)
    | _ => none

theorem Execution.exists_extended {e : Execution} {names : List BeforeNames} {skipBody : Bool}
    (hExtended : e.extended = [(names, skipBody)]) :
    ∃ ran, Noted (.extended ran skipBody) e.trace ∧ ran.map BeforeScope.names = names := by
  have hMem : (names, skipBody) ∈ e.extended := by simp [hExtended]
  obtain ⟨entry, hEntry, hSome⟩ := List.mem_filterMap.mp hMem
  split at hSome
  · rename_i ran skipped hNote
    cases hSome
    exact ⟨ran, ⟨entry, hEntry, hNote⟩, rfl⟩
  · cases hSome

theorem BeforeScope.ExitsItself.names {before : BeforeScope} (exits : before.ExitsItself) :
    before.names.scope ∈ before.names.exits :=
  List.mem_map_of_mem exits

/-- A `set` task with an extension whose `before` scope is given. -/
def extendedBy (before : List CompiledTask) : CompiledWorkflow :=
  Sample.workflow [Sample.task "extended" none (.set (.map []))]
    [{ extend := "set", when := none, before, after := [] }]

/-- The exit of the `before` scope itself skips the body, as it should. -/
theorem shortCircuits_iff_ownExit :
    ∃ (e : Execution) (ran : List BeforeScope), Noted (.extended ran true) e.trace ∧
      ran.map BeforeScope.names = [⟨["stop"], [["stop"]]⟩] ∧
      (ShortCircuits ran true ↔ ∀ before ∈ ran, before.exits ≠ [] → before.ExitsItself) := by
  have hRun : (engine.run (Sample.begin_ (extendedBy [Sample.task "stop" (some "exit")
      (.set (.map []))]) .null) (List.replicate 14 (.turn .here))).map
        (fun d => d.2.shared.extended) = some [([⟨["stop"], [["stop"]]⟩], true)] := by
    decide +kernel
  obtain ⟨e, arises, _, hExtended⟩ := Sample.arises_of_run hRun
  obtain ⟨ran, hNote, hNames⟩ := Execution.exists_extended hExtended
  exact ⟨e, ran, hNote, hNames, arises.shortCircuits_iff hNote⟩

/-- The exit of a scope nested in the `before` scope skips the body too, though the
`before` scope goes on after it. -/
theorem nestedExit_not_shortCircuits :
    ∃ (e : Execution) (ran : List BeforeScope) (skipBody : Bool), e.Arises Sample.runtime ∧
      Noted (.extended ran skipBody) e.trace ∧ ¬ ShortCircuits ran skipBody := by
  have hRun : (engine.run (Sample.begin_ (extendedBy [Sample.task "outer" none
      (.do_ [Sample.task "stop" (some "exit") (.set (.map []))]), Sample.task "next" none
        (.set (.map []))]) .null) (List.replicate 23 (.turn .here))).map
        (fun d => d.2.shared.extended) = some [([⟨["outer", "next"], [["stop"]]⟩], true)] := by
    decide +kernel
  obtain ⟨e, arises, _, hExtended⟩ := Sample.arises_of_run hRun
  obtain ⟨ran, hNote, hNames⟩ := Execution.exists_extended hExtended
  refine ⟨e, ran, true, arises, hNote, fun short => ?_⟩
  obtain ⟨before, hBefore, exits⟩ := short.mp rfl
  have hOnly : before.names ∈ ran.map BeforeScope.names := List.mem_map_of_mem hBefore
  rw [hNames, List.mem_singleton] at hOnly
  have hExits := exits.names
  rw [hOnly] at hExits
  revert hExits
  decide

end OwsRuntime
