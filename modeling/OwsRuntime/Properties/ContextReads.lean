import OwsRuntime.Properties.ContextUpdates

/-! What expressions and records see of the workflow context. A synchronous reader
does not wait for the lock of the context and takes `null` when it is held. -/
namespace OwsRuntime

open Async

/-- The value which a note shows of the context: to an expression through its
variables, or in a record. -/
def Note.context? : Note → Option Value
  | evaluates _ _ vars => vars.lookup "context"
  | recorded record => some record.context
  | _ => none

/-- Everything seen of the context is a value which it has held since it was set
up, or `null` while it has not been. -/
def SeesHeld (trace : List Entry) : Prop :=
  ∀ past entry later value, trace = past ++ entry :: later → entry.note.context? = some value →
    value ∈ written past ∨ (written past = [] ∧ value = .null)

/-- The weaker property for which the `null` from before the context is set up
counts as a value that it has held, at any time. -/
def SeesHeldOrNull (trace : List Entry) : Prop :=
  ∀ past entry later value, trace = past ++ entry :: later → entry.note.context? = some value →
    value ∈ written past ∨ value = .null

/-- No synchronous reader has found the context locked, and no loop or error
variable has taken the name `context`. -/
def Uncontended (trace : List Entry) : Prop :=
  ¬ Noted .contended trace ∧ ¬ Noted (.bound "context") trace

section Traces

variable {wf : CompiledWorkflow} {start : Nat} {trace : List Entry}

/-- What a note shows of the context has been seen, unless a variable hides it. -/
theorem Accounted.seen_or_hidden {past later : List Entry} {entry : Entry} {value : Value}
    (accounted : Accounted wf start (past ++ entry :: later))
    (hShown : entry.note.context? = some value) :
    Seen past value ∨ Noted (.bound "context") past := by
  have hJustified := accounted.split rfl
  cases hNote : entry.note with
  | evaluates source input vars =>
      rw [Justified, hNote] at hJustified
      rw [hNote, Note.context?] at hShown
      exact hJustified value hShown
  | recorded record =>
      rw [Justified, hNote] at hJustified
      rw [hNote, Note.context?, Option.some.injEq] at hShown
      exact Or.inl (hShown ▸ hJustified.1)
  | _ =>
      rw [hNote] at hShown
      cases hShown

theorem Accounted.sees_of_uncontended (accounted : Accounted wf start trace) (calm : Uncontended trace) :
    SeesHeld trace := by
  intro past entry later value hTrace hShown
  subst hTrace
  have hPrefix : past <+: past ++ entry :: later := List.prefix_append _ _
  rcases accounted.seen_or_hidden hShown with hSeen | hHidden
  · rcases hSeen with hHeld | ⟨hNull, hNone | hContended⟩
    · exact Or.inl hHeld
    · exact Or.inr ⟨hNone, hNull⟩
    · exact absurd (hContended.mono hPrefix) calm.1
  · exact absurd (hHidden.mono hPrefix) calm.2

theorem Accounted.seesHeldOrNull (accounted : Accounted wf start trace)
    (hUnhidden : ¬ Noted (.bound "context") trace) : SeesHeldOrNull trace := by
  intro past entry later value hTrace hShown
  subst hTrace
  rcases accounted.seen_or_hidden hShown with hSeen | hHidden
  · exact hSeen.imp id And.left
  · exact absurd (hHidden.mono (List.prefix_append _ _)) hUnhidden

end Traces

/-- In every run in which no synchronous reader finds the context locked and no
variable takes its name, what expressions and records see of the context is what
it has held; and a value that is not `null` is never invented when no variable
takes its name. -/
theorem Execution.Arises.seesHeld {env : RuntimeInner} {e : Execution} (arises : e.Arises env) :
    (Uncontended e.trace → SeesHeld e.trace) ∧
      (¬ Noted (.bound "context") e.trace → SeesHeldOrNull e.trace) :=
  ⟨arises.faithful.accounted.sees_of_uncontended, arises.faithful.accounted.seesHeldOrNull⟩

/-- A fork with a guarded branch, and a loop whose variable is called `context`. -/
def guardedFork : CompiledWorkflow :=
  let guarded := { Sample.task "guarded" none (.set (.map [])) with if_ := some "$context" }
  let loop : ForDef := { each := "context", in_ := ".", at_ := none, while_ := some "$context" }
  Sample.workflow
    [Sample.task "fork" none (.fork [Sample.task "plain" none (.set (.map [])), guarded] false),
      Sample.task "loop" none (.for_ loop [])] []

/-- What the notes of a reversed trace show of the context, with the values which
it had held by then. -/
def shown : List Entry → List (Value × List Value)
  | [] => []
  | entry :: rest =>
      (entry.note.context?.map (·, written rest.reverse)).toList ++ shown rest

theorem split_of_mem_shown {reversed : List Entry} {value : Value} {held : List Value}
    (hMem : (value, held) ∈ shown reversed) :
    ∃ past entry later, reversed.reverse = past ++ entry :: later ∧
      entry.note.context? = some value ∧ written past = held := by
  induction reversed with
  | nil => cases hMem
  | cons entry rest ih =>
      rw [List.reverse_cons]
      rcases List.mem_append.mp hMem with hHere | hRest
      · rw [Option.mem_toList, Option.map_eq_some_iff] at hHere
        obtain ⟨shownValue, hShown, hEq⟩ := hHere
        rw [Prod.mk.injEq] at hEq
        exact ⟨rest.reverse, entry, [], rfl, hEq.1 ▸ hShown, hEq.2⟩
      · obtain ⟨past, other, later, hSplit, hShown, hHeld⟩ := ih hRest
        exact ⟨past, other, later ++ [entry], by simp [hSplit], hShown, hHeld⟩

/-- The variables and records of an execution that show the context. -/
def Execution.shown (e : Execution) : List (Value × List Value) :=
  OwsRuntime.shown e.trace.reverse

theorem SeesHeld.of_mem_shown {e : Execution} (sees : SeesHeld e.trace) {value : Value}
    {held : List Value} (hMem : (value, held) ∈ e.shown) :
    value ∈ held ∨ (held = [] ∧ value = .null) := by
  obtain ⟨past, entry, later, hSplit, hShown, rfl⟩ := split_of_mem_shown hMem
  rw [List.reverse_reverse] at hSplit
  exact sees past entry later value hSplit hShown

theorem SeesHeldOrNull.of_mem_shown {e : Execution} (sees : SeesHeldOrNull e.trace)
    {value : Value} {held : List Value} (hMem : (value, held) ∈ e.shown) :
    value ∈ held ∨ value = .null := by
  obtain ⟨past, entry, later, hSplit, hShown, rfl⟩ := split_of_mem_shown hMem
  rw [List.reverse_reverse] at hSplit
  exact sees past entry later value hSplit hShown

/-- The input of the sample runs, which is also the context throughout. -/
def sampleItems : Value := .array [.bool true]

/-- Whether no note of the execution is a contended read or binds a variable. -/
def Execution.quiet (e : Execution) : Bool :=
  e.trace.all fun entry => match entry.note with
    | .contended => false
    | .bound _ => false
    | _ => true

theorem Execution.uncontended_of_quiet {e : Execution} (hQuiet : e.quiet = true) :
    Uncontended e.trace := by
  constructor <;>
  · rintro ⟨entry, hMem, hNote⟩
    have hEntry := List.all_eq_true.mp hQuiet entry hMem
    simp [hNote] at hEntry

/-- How much of the context an execution has shown, and whether it was quiet. -/
def Execution.calm (e : Execution) : Nat × Bool := (e.shown.length, e.quiet)

/-- A run that comes to the guard of the second branch, with the lock free. -/
theorem seesHeld_guardedFork :
    ∃ e : Execution, e.Arises Sample.runtime ∧ e.calm = (2, true) ∧ SeesHeld e.trace := by
  have hRun : (engine.run (Sample.begin_ guardedFork sampleItems)
      (rootTurns 7 ++ branchTurns 1 1)).map (fun d => d.2.shared.calm) = some (2, true) := by
    decide +kernel
  obtain ⟨e, arises, _, hCalm⟩ := Sample.arises_of_run hRun
  have hQuiet : e.quiet = true := congrArg Prod.snd hCalm
  exact ⟨e, arises, hCalm, arises.seesHeld.1 (Execution.uncontended_of_quiet hQuiet)⟩

/-- Two of the notes that show the context, counted from the last one. -/
def Execution.glimpses (e : Execution) :
    Option (Value × List Value) × Option (Value × List Value) := (e.shown[4]?, e.shown[1]?)

/-- While the other branch holds the lock, the guard sees `null`; and the loop sees
its own variable, an empty object. The context is the input throughout. -/
theorem guardedFork_invents_context :
    ∃ e : Execution, e.Arises Sample.runtime ∧ ¬ SeesHeld e.trace ∧ ¬ SeesHeldOrNull e.trace := by
  have hRun : (engine.run (Sample.begin_ guardedFork sampleItems)
      (rootTurns 7 ++ branchTurns 0 2 ++ branchTurns 1 1 ++ branchTurns 0 5 ++ rootTurns 8)).map
        (fun d => d.2.shared.glimpses) =
      some (some (.null, [sampleItems]),
        some (.object [], List.replicate 3 sampleItems)) := by decide +kernel
  obtain ⟨e, arises, _, hShown⟩ := Sample.arises_of_run hRun
  rw [Execution.glimpses, Prod.mk.injEq] at hShown
  refine ⟨e, arises, fun sees => ?_, fun sees => ?_⟩
  · have hSeen := sees.of_mem_shown (List.mem_of_getElem? hShown.1)
    simp [sampleItems] at hSeen
  · have hSeen := sees.of_mem_shown (List.mem_of_getElem? hShown.2)
    simp [sampleItems] at hSeen

end OwsRuntime
