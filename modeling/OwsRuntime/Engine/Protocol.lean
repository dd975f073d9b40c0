import Mathlib.Data.List.Induction
import OwsRuntime.Async.Rules
import OwsRuntime.Engine.Flow

/-! What the tasks of an execution agree on: each note of the trace is justified
by the notes before it, and the shared state is what the trace says. -/
namespace OwsRuntime

open Async

/-- The value a note puts into the context. -/
def Note.written? : Note → Option Value
  | contextWritten _ value => some value
  | _ => none

/-- The values which the context has held since it was set up, oldest first. -/
def written (past : List Entry) : List Value := past.filterMap fun entry => entry.note.written?

/-- The context after a trace. -/
def cell (past : List Entry) : Value := (written past).getLast?.getD .null

/-- The note stands somewhere in the trace. -/
def Noted (n : Note) (past : List Entry) : Prop := ∃ entry ∈ past, entry.note = n

/-- A value which an expression may see as the context. A reader gets `null`
before the context is set up, and when the context is locked. -/
def Seen (past : List Entry) (value : Value) : Prop :=
  value ∈ written past ∨ (value = .null ∧ (written past = [] ∨ Noted .contended past))

/-- What the variables say of the context has been seen, or is a variable that
takes its place. -/
def Grounded (past : List Entry) (vars : Map) : Prop :=
  ∀ value, vars.lookup "context" = some value →
    Seen past value ∨ Noted (.bound "context") past

/-- The note at this position licenses the dispatch of a task. -/
def Opened (past : List Entry) (position : Nat) : Prop :=
  ∃ opened, past[position]? = some opened ∧
    ((∃ tasks index, opened.note = .admitted tasks index) ∨
      ∃ outer, opened.note = .dispatched outer)

/-- The note at this position is a read of the value. -/
def ReadAt (past : List Entry) (position : Nat) (value : Value) : Prop :=
  ∃ read, past[position]? = some read ∧ read.note = .contextRead value

/-- A task of a scope which the loop may have come to. Only the top-level scope
may start at another task than its first. -/
def Entered (wf : CompiledWorkflow) (start : Nat) (tasks : List CompiledTask) (index : Nat) :
    Prop :=
  Leads tasks 0 index ∨ (tasks = wf.tasks ∧ Leads tasks start index)

/-- The body of a task is skipped when the exit flag was set in some `before` scope,
which is the last one to run then. -/
structure Extended (ran : List BeforeScope) (skipBody : Bool) : Prop where
  skipped_iff : skipBody = true ↔ ∃ before ∈ ran, before.exits ≠ []
  last : ran.Pairwise fun before _ => before.exits = []

/-- What must hold when a note is taken after a trace. -/
def Justified (wf : CompiledWorkflow) (start : Nat) (past : List Entry) (entry : Entry) : Prop :=
  match entry.note with
  | .evaluates _ _ vars => Grounded past vars
  | .admitted tasks index =>
      entry.cancelled = false ∧ ¬ Noted .ended past ∧ wf.HasScope tasks ∧
        index < tasks.length ∧ Entered wf start tasks index
  | .extended ran skipBody => Extended ran skipBody
  | .dispatched ticket => Opened past ticket
  | .moved tasks index next =>
      wf.HasScope tasks ∧ Entered wf start tasks index ∧ Successor tasks index next
  | .unknownTarget tasks name =>
      wf.HasScope tasks ∧ (∃ task ∈ tasks, .goto name ∈ task.directives) ∧
        tasks.findIdx? (fun t => t.name = name) = none
  | .contextRead value => value = cell past
  | .contextWritten (.readBack position) value => ReadAt past position value
  | .recorded record =>
      Seen past record.context ∧ written past ≠ [] ∧ record.workflow = wf.id.key ∧
        (record.phase.isTerminal = true ∨
          Entered wf start wf.tasks (resumeState record).nextIndex)
  | _ => True

/-- Every note of the trace is justified by the ones before it. -/
inductive Accounted (wf : CompiledWorkflow) (start : Nat) : List Entry → Prop where
  | nil : Accounted wf start []
  | snoc {past : List Entry} {entry : Entry} (prior : Accounted wf start past)
      (last : Justified wf start past entry) : Accounted wf start (past ++ [entry])

/-- A note that changes nothing but the trace. -/
def Note.Plain (n : Note) : Prop := n.written? = none ∧ n ≠ .ended

/-- The shared state of an execution is what its trace says. -/
structure Execution.Faithful (e : Execution) : Prop where
  accounted : Accounted e.workflow e.start e.trace
  context : e.context = cell e.trace
  ended : e.ended = true ↔ Noted .ended e.trace

/-- One execution later. -/
structure Execution.Grows (e f : Execution) : Prop where
  workflow : f.workflow = e.workflow
  start : f.start = e.start
  trace : e.trace <+: f.trace

/-- Every loop and error variable in scope has been bound. -/
def TaskLocal.Bound (l : TaskLocal) (e : Execution) : Prop :=
  ∀ entry ∈ l.loopVars, Noted (.bound entry.1) e.trace

/-- The exit flag tells whether some scope has exited. -/
def TaskLocal.ExitsKnown (l : TaskLocal) : Prop := l.scopeExited = true ↔ l.exits ≠ []

/-- What holds of the storage of every task. -/
structure TaskLocal.Faithful (l : TaskLocal) (e : Execution) : Prop where
  bound : l.Bound e
  exits : l.ExitsKnown

section Traces

variable {wf : CompiledWorkflow} {start : Nat} {past more : List Entry} {entry : Entry}

/-- The values written by a trace come in its order. -/
@[simp] theorem written_append : written (past ++ more) = written past ++ written more :=
  List.filterMap_append

/-- Most notes write nothing. -/
@[simp] theorem written_single (hNone : entry.note.written? = none) : written [entry] = [] := by
  simp [written, hNone]

/-- Such a note leaves the context as it is, -/
theorem cell_append_of_none (hNone : entry.note.written? = none) :
    cell (past ++ [entry]) = cell past := by
  simp [cell, written_single hNone]

/-- and any other one sets it. -/
theorem cell_append_of_some {value : Value} (hSome : entry.note.written? = some value) :
    cell (past ++ [entry]) = value := by
  have hOne : written [entry] = [value] := by simp [written, hSome]
  simp [cell, hOne]

/-- Once the context has been set up, it is one of the values written. -/
theorem cell_mem_written (hWritten : written past ≠ []) : cell past ∈ written past := by
  rw [cell, List.getLast?_eq_some_getLast hWritten]
  exact List.getLast_mem hWritten

/-- What has been noted stays noted. -/
theorem Noted.mono {n : Note} {later : List Entry} (noted : Noted n past)
    (hPrefix : past <+: later) : Noted n later := by
  obtain ⟨entry, hMem, hNote⟩ := noted
  exact ⟨entry, hPrefix.subset hMem, hNote⟩

/-- After one more note, a note stands in the trace if it did before, or is the new one. -/
theorem noted_append_single {n : Note} :
    Noted n (past ++ [entry]) ↔ Noted n past ∨ entry.note = n := by
  simp [Noted, or_and_right, exists_or]

/-- A context that has been set up stays so. -/
theorem written_ne_nil_mono {later : List Entry} (hWritten : written past ≠ [])
    (hPrefix : past <+: later) : written later ≠ [] := by
  obtain ⟨more, rfl⟩ := hPrefix
  simp [hWritten]

/-- What was seen stays seen, once the context is set up. -/
theorem Seen.mono {value : Value} {later : List Entry} (seen : Seen past value)
    (hWritten : written past ≠ []) (hPrefix : past <+: later) : Seen later value := by
  rcases seen with hMem | ⟨hNull, hNone | hContended⟩
  · obtain ⟨more, rfl⟩ := hPrefix
    exact Or.inl (by simp [hMem])
  · exact absurd hNone hWritten
  · exact Or.inr ⟨hNull, Or.inr (hContended.mono hPrefix)⟩

/-- The context may be seen as it is. -/
theorem seen_cell (past : List Entry) : Seen past (cell past) := by
  by_cases hWritten : written past = []
  · exact Or.inr ⟨by simp [cell, hWritten], Or.inl hWritten⟩
  · exact Or.inl (cell_mem_written hWritten)

/-- A position of a trace keeps its entry as the trace grows, -/
theorem getElem?_of_prefix {later : List Entry} {position : Nat}
    (hEntry : past[position]? = some entry) (hPrefix : past <+: later) :
    later[position]? = some entry := by
  obtain ⟨more, rfl⟩ := hPrefix
  rw [List.getElem?_append_left (List.getElem?_eq_some_iff.mp hEntry).1]
  exact hEntry

/-- so it goes on to license a dispatch, -/
theorem Opened.mono {later : List Entry} {position : Nat} (opened : Opened past position)
    (hPrefix : past <+: later) : Opened later position := by
  obtain ⟨entry, hEntry, hNote⟩ := opened
  exact ⟨entry, getElem?_of_prefix hEntry hPrefix, hNote⟩

/-- and goes on to be a read. -/
theorem ReadAt.mono {later : List Entry} {position : Nat} {value : Value}
    (readAt : ReadAt past position value) (hPrefix : past <+: later) :
    ReadAt later position value := by
  obtain ⟨entry, hEntry, hNote⟩ := readAt
  exact ⟨entry, getElem?_of_prefix hEntry hPrefix, hNote⟩

/-- What variables say of the context stays grounded, once the context has been set up. Before that
they may have said null. -/
theorem Grounded.mono {vars : Map} {later : List Entry} (grounded : Grounded past vars)
    (hWritten : written past ≠ []) (hPrefix : past <+: later) : Grounded later vars :=
  fun value hValue => (grounded value hValue).imp (Seen.mono · hWritten hPrefix)
    (Noted.mono · hPrefix)

/-- The loop of a scope comes from a task to one that it may lead to. -/
theorem Entered.next {tasks : List CompiledTask} {index next : Nat}
    (entered : Entered wf start tasks index) (hNext : Successor tasks index next) :
    Entered wf start tasks next :=
  entered.imp (fun h => h.tail hNext) fun h => ⟨h.1, h.2.tail hNext⟩

/-- Every note of an accounted trace is justified where it stands. -/
theorem Accounted.split {later : List Entry} (accounted : Accounted wf start past)
    (hTrace : past = more ++ entry :: later) : Justified wf start more entry := by
  induction accounted generalizing later with
  | nil => simp at hTrace
  | @snoc prior last _ hLast ih =>
      rcases List.eq_nil_or_concat later with rfl | ⟨front, final, rfl⟩
      · obtain ⟨rfl, hEntry⟩ := List.append_inj' hTrace rfl
        cases hEntry
        exact hLast
      · rw [List.concat_eq_append, ← List.cons_append, ← List.append_assoc] at hTrace
        exact ih (List.append_inj' hTrace rfl).1

/-- A trace falls into what was before a position, its entry, and what came after. -/
theorem eq_take_append_drop {position : Nat} (hEntry : past[position]? = some entry) :
    past = past.take position ++ entry :: past.drop (position + 1) := by
  obtain ⟨hLt, hGet⟩ := List.getElem?_eq_some_iff.mp hEntry
  rw [← hGet, ← List.drop_eq_getElem_cons hLt, List.take_append_drop]

/-- The note at a position is justified by the ones before it. -/
theorem Accounted.at_ {position : Nat} (accounted : Accounted wf start past)
    (hEntry : past[position]? = some entry) : Justified wf start (past.take position) entry :=
  accounted.split (eq_take_append_drop hEntry)

/-- The beginning of an accounted trace is accounted for. -/
theorem Accounted.of_append (accounted : Accounted wf start (past ++ more)) :
    Accounted wf start past := by
  induction more using List.reverseRecOn with
  | nil => simpa using accounted
  | append_singleton front final ih =>
      rw [← List.append_assoc] at accounted
      generalize hTrace : past ++ front ++ [final] = whole at accounted
      cases accounted with
      | nil => simp at hTrace
      | snoc prior last =>
          obtain ⟨hFront, _⟩ := List.append_inj' hTrace rfl
          exact ih (hFront ▸ prior)

end Traces

/-- An execution is no later than itself. -/
theorem Execution.Grows.refl (e : Execution) : e.Grows e := ⟨rfl, rfl, List.prefix_rfl⟩

/-- What is later than a later one is later. -/
theorem Execution.Grows.trans {e f g : Execution} (first : e.Grows f) (second : f.Grows g) :
    e.Grows g :=
  ⟨second.workflow.trans first.workflow, second.start.trans first.start,
    first.trace.trans second.trace⟩

/-- A note makes it later. -/
theorem Execution.grows_log (e : Execution) (entry : Entry) : e.Grows (e.log entry) :=
  ⟨rfl, rfl, List.prefix_append _ _⟩

/-- Variables that have been bound stay bound, -/
theorem TaskLocal.Bound.mono {l : TaskLocal} {e f : Execution} (bound : l.Bound e)
    (grows : e.Grows f) : l.Bound f :=
  fun entry hMem => (bound entry hMem).mono grows.trace

/-- so the storage of a task stays faithful as the execution goes on. -/
theorem TaskLocal.Faithful.mono {l : TaskLocal} {e f : Execution} (faithful : l.Faithful e)
    (grows : e.Grows f) : l.Faithful f :=
  ⟨faithful.bound.mono grows, faithful.exits⟩

/-- A plain note keeps the shared state faithful. -/
theorem Execution.Faithful.log {e : Execution} {entry : Entry} (faithful : e.Faithful)
    (hPlain : entry.note.Plain) (hEntry : Justified e.workflow e.start e.trace entry) :
    (e.log entry).Faithful := by
  refine ⟨faithful.accounted.snoc hEntry, ?_, ?_⟩
  · exact faithful.context.trans (cell_append_of_none hPlain.1).symm
  · exact faithful.ended.trans ⟨fun h => h.mono (List.prefix_append _ _), fun h =>
      (noted_append_single.mp h).resolve_right hPlain.2⟩

/-- A write to the context keeps the shared state faithful. -/
theorem Execution.Faithful.write {e : Execution} {source : ContextSource} {value : Value}
    {cancelled : Bool} (faithful : e.Faithful)
    (hEntry : Justified e.workflow e.start e.trace ⟨.contextWritten source value, cancelled⟩) :
    ({ e with context := value }.log ⟨.contextWritten source value, cancelled⟩).Faithful := by
  refine ⟨faithful.accounted.snoc hEntry, (cell_append_of_some rfl).symm, ?_⟩
  refine faithful.ended.trans ⟨fun h => h.mono (List.prefix_append _ _), fun h => ?_⟩
  exact (noted_append_single.mp h).resolve_right fun hNote => by cases hNote

/-- Taking `end` keeps the shared state faithful. -/
theorem Execution.Faithful.end_ {e : Execution} {cancelled : Bool} (faithful : e.Faithful) :
    ({ e with ended := true }.log ⟨.ended, cancelled⟩).Faithful := by
  refine ⟨faithful.accounted.snoc trivial, ?_, ?_⟩
  · exact faithful.context.trans (cell_append_of_none rfl).symm
  · exact ⟨fun _ => noted_append_single.mpr (Or.inr rfl), fun _ => rfl⟩

/-- The lock on the context is not part of what the trace says. -/
theorem Execution.Faithful.locked {e : Execution} (faithful : e.Faithful) (b : Bool) :
    { e with locked := b }.Faithful :=
  ⟨faithful.accounted, faithful.context, faithful.ended⟩

/-- An execution that begins is faithful to its empty trace, -/
theorem Execution.fresh_faithful (wf : CompiledWorkflow) (executionId : String) (start : Nat) :
    (Execution.fresh wf executionId start).Faithful :=
  ⟨Accounted.nil, rfl, by simp [Execution.fresh, Execution.initial, Noted]⟩

/-- and so is the one outside of all others. -/
theorem Execution.initial_faithful (wf : CompiledWorkflow) (start : Nat) :
    (Execution.initial wf start).Faithful :=
  ⟨Accounted.nil, rfl, by simp [Execution.initial, Noted]⟩

/-- What a request owes. -/
def owed (a : Act) (σ : EngineState) : Prop :=
  match a with
  | .note n =>
      n.Plain ∧ Justified σ.shared.workflow σ.shared.start σ.shared.trace ⟨n, σ.world.cancelled⟩
  | .writeContext source value =>
      Justified σ.shared.workflow σ.shared.start σ.shared.trace
        ⟨.contextWritten source value, σ.world.cancelled⟩
  | .store op =>
      ∀ record, op.record? = some record →
        Justified σ.shared.workflow σ.shared.start σ.shared.trace
          ⟨.recorded record, σ.world.cancelled⟩
  | _ => True

/-- What a request does to the storage that an execution can see. -/
inductive Touches (a : Act) (σ : EngineState) : EngineState → Prop where
  /-- Only the world may change. -/
  | world (w : World) : Touches a σ { σ with world := w }
  /-- A plain note, with or without a change of the world. -/
  | noted (n : Note) (w : World) (hPlain : n.Plain)
      (hNote : Justified σ.shared.workflow σ.shared.start σ.shared.trace ⟨n, σ.world.cancelled⟩) :
      Touches a σ { EngineState.note σ n with world := w }
  | local_ (l : TaskLocal) (hLess : ∀ entry ∈ l.loopVars, entry ∈ σ.loc.loopVars)
      (hExits : σ.loc.ExitsKnown → l.ExitsKnown) : Touches a σ { σ with loc := l }
  | bound (name : String) (l : TaskLocal)
      (hMore : ∀ entry ∈ l.loopVars, entry.1 = name ∨ entry ∈ σ.loc.loopVars)
      (hExits : σ.loc.ExitsKnown → l.ExitsKnown) :
      Touches a σ { EngineState.note σ (.bound name) with loc := l }
  | ended : Touches a σ (EngineState.note { σ with shared := { σ.shared with ended := true } } .ended)
  | written (source : ContextSource) (value : Value)
      (hNote : Justified σ.shared.workflow σ.shared.start σ.shared.trace
        ⟨.contextWritten source value, σ.world.cancelled⟩) :
      Touches a σ (EngineState.note { σ with shared := { σ.shared with context := value } }
        (.contextWritten source value))
  | locked (b : Bool) : Touches a σ { σ with shared := { σ.shared with locked := b } }

/-- Everything a request can do, when what it owes holds: it touches the world, makes a note that is
justified, or writes what the note says into the storage. There is a case for each request. -/
theorem perform_touches {a : Act} {σ τ : EngineState} {reply : a.Resp}
    (hInv : σ.shared.Faithful) (hOwed : owed a σ) (hPerform : perform a σ = some (reply, τ)) :
    Touches a σ τ := by
  cases a with
  | note n =>
      cases hPerform
      exact .noted n σ.world hOwed.1 hOwed.2
  | storeEnded =>
      cases hPerform
      exact .ended
  | bindVar name value =>
      cases hPerform
      refine .bound name _ (fun entry hMem => ?_) id
      exact (Map.mem_insert hMem).imp (congrArg Prod.fst) id
  | unbindVar name =>
      cases hPerform
      exact .local_ _ (fun entry hMem => Map.mem_of_mem_remove hMem) id
  | setApplyExtensions b =>
      cases hPerform
      exact .local_ _ (fun entry hMem => hMem) id
  | setScopeExited by_ =>
      cases by_ with
      | none =>
          cases hPerform
          exact .local_ _ (fun entry hMem => hMem) fun _ => by
            simp [TaskLocal.ExitsKnown]
      | some tasks =>
          cases hPerform
          exact .local_ _ (fun entry hMem => hMem) fun _ => by
            simp [TaskLocal.ExitsKnown]
  | stop =>
      cases hPerform
      exact .local_ _ (fun entry hMem => hMem) id
  | tryContext =>
      rw [perform] at hPerform
      split at hPerform <;> cases hPerform
      · exact .noted .contended σ.world ⟨rfl, fun h => by cases h⟩ trivial
      · exact .world σ.world
  | readContext =>
      cases hPerform
      exact .noted _ σ.world ⟨rfl, fun h => by cases h⟩ hInv.context
  | writeContext source value =>
      cases hPerform
      exact .written source value hOwed
  | unlockContext =>
      cases hPerform
      exact .locked false
  | lockContext =>
      rw [perform] at hPerform
      split at hPerform <;> cases hPerform
      exact .locked true
  | newUuid =>
      cases hPerform
      exact .world _
  | publish lifecycle event =>
      cases hPerform
      exact .world _
  | store op =>
      rw [perform] at hPerform
      split at hPerform <;> cases hPerform
      · exact .world _
      · cases hRecord : op.record? with
        | none => exact .world _
        | some record => exact .noted _ _ ⟨rfl, fun h => by cases h⟩ (hOwed record hRecord)
  | load executionId =>
      rw [perform] at hPerform
      split at hPerform <;> cases hPerform <;> exact .world σ.world
  | receive epoch =>
      obtain ⟨r, _, hEq⟩ := Option.map_eq_some_iff.mp hPerform
      cases hEq
      exact .world σ.world
  | sleep duration epoch =>
      obtain ⟨r, _, hEq⟩ := Option.map_eq_some_iff.mp hPerform
      cases hEq
      exact .world σ.world
  | outOfFuel => cases hPerform
  | _ =>
      cases hPerform
      exact .world σ.world

/-- The storage of a task that is left alone stays faithful while the execution grows. -/
theorem TaskLocal.Faithful.kept {σ τ : EngineState} (hLoc : σ.loc.Faithful σ.shared)
    (grows : σ.shared.Grows τ.shared) (hInv : τ.shared.Faithful) (hSame : τ.loc = σ.loc) :
    σ.shared.Grows τ.shared ∧ τ.shared.Faithful ∧ τ.loc.Faithful τ.shared := by
  refine ⟨grows, hInv, ?_⟩
  rw [hSame]
  exact hLoc.mono grows

/-- Whatever a request may touch, it leaves the execution later and faithful, and the storage of the
task faithful to it. -/
theorem Touches.keeps {a : Act} {σ τ : EngineState} (touches : Touches a σ τ)
    (hInv : σ.shared.Faithful) (hLoc : σ.loc.Faithful σ.shared) :
    σ.shared.Grows τ.shared ∧ τ.shared.Faithful ∧ τ.loc.Faithful τ.shared := by
  cases touches with
  | world w => exact ⟨.refl _, hInv, hLoc⟩
  | noted n w hPlain hNote =>
      exact hLoc.kept (Execution.grows_log _ _) (hInv.log hPlain hNote) rfl
  | local_ l hLess hExits =>
      exact ⟨.refl _, hInv, fun entry hMem => hLoc.bound entry (hLess entry hMem),
        hExits hLoc.exits⟩
  | bound name l hMore hExits =>
      have grows := σ.shared.grows_log ⟨.bound name, σ.world.cancelled⟩
      refine ⟨grows, hInv.log ⟨rfl, fun h => by cases h⟩ trivial, ?_, hExits hLoc.exits⟩
      intro entry hMem
      rcases hMore entry hMem with rfl | hOld
      · exact noted_append_single.mpr (Or.inr rfl)
      · exact (hLoc.mono grows).bound entry hOld
  | ended => exact hLoc.kept ⟨rfl, rfl, List.prefix_append _ _⟩ hInv.end_ rfl
  | written source value hNote =>
      exact hLoc.kept ⟨rfl, rfl, List.prefix_append _ _⟩ (hInv.write hNote) rfl
  | locked b => exact hLoc.kept ⟨rfl, rfl, List.prefix_rfl⟩ (hInv.locked b) rfl

/-- The discipline of the engine. -/
def protocol : Discipline engine where
  inv := Execution.Faithful
  locInv := TaskLocal.Faithful
  relS := Execution.Grows
  relW := fun _ _ => True
  pre := owed
  relS_refl := Execution.Grows.refl
  relS_trans := Execution.Grows.trans
  relW_refl := fun _ => trivial
  relW_trans := fun _ _ => trivial
  locInv_mono := TaskLocal.Faithful.mono
  env_ok := fun _ _ => trivial
  act_ok := fun hInv hLoc hOwed hPerform =>
    have kept := (perform_touches hInv hOwed hPerform).keeps hInv hLoc
    ⟨kept.1, trivial, kept.2⟩
  sync_ok := by
    intro a σ hMode _ _ _
    cases a with
    | tryContext =>
        show (perform .tryContext σ).isSome
        rw [perform]
        split <;> rfl
    | setScopeExited by_ => cases by_ <;> rfl
    | _ => first | rfl | cases hMode

end OwsRuntime
