import OwsRuntime.Async.Serial

/-! Branches side by side, with turns in any order. What every branch keeps, in its own
turns and in those of the others, holds of all of them in every run. -/
namespace Async.Handler

variable {sig : Signature} {h : Handler sig} {α β : Type} {count need : Nat}

open Program

/-- An invariant of branches that share all but their own storage. -/
structure Common (h : Handler sig) (J : Fin count → Config sig β → Prop) : Prop where
  env : ∀ {i c} e, J i c → J i (c.1, c.2.mapWorld (h.disturb e))
  turn : ∀ {i c move d}, J i c → h.step c.1 move c.2 = some d → J i d
  other : ∀ {i j p l q k move d} {σ : State sig}, J i (p, σ.fork l) → J j (q, σ.fork k) →
    h.step q move (σ.fork k) = some d → J i (p, d.2.fork l)

/-- All branches that are under way keep the invariant. -/
def Abreast (J : Fin count → Config sig β → Prop) (need : Nat)
    (next : List (Fin count × Option β) → Program sig α) (d : Config sig α) : Prop :=
  ∃ locs branches finished, d.1 = par count need locs branches finished next ∧
    ∀ i, i ∉ finished.map Prod.fst → J i (branches i, d.2.fork (locs i))

variable {J : Fin count → Config sig β → Prop} {next : List (Fin count × Option β) → Program sig α}
  {d e : Config sig α}

theorem Abreast.env (common : Common h J) (abreast : Abreast J need next d) (e : h.Env) :
    Abreast J need next (d.1, d.2.mapWorld (h.disturb e)) := by
  obtain ⟨locs, branches, finished, hPar, hKept⟩ := abreast
  exact ⟨locs, branches, finished, hPar, fun i hRunning => common.env e (hKept i hRunning)⟩

/-- After the turn of one branch they still stand side by side: the others have not moved, and what
all of them hold in common is kept by what the one has done. -/
theorem Abreast.branch (common : Common h J) (abreast : Abreast J need next d) {index : Nat}
    {move : Move} (hTurn : h.choose d (.turn (.branch index move)) = some e) :
    Abreast J need next e := by
  obtain ⟨p, σ⟩ := d
  obtain ⟨locs, branches, finished, rfl, hKept⟩ := abreast
  obtain ⟨i, rfl, hRunning, c, hFirst, rfl⟩ := choose_branch hTurn
  refine ⟨_, _, _, rfl, fun j hOther => ?_⟩
  have hOther' : j ∉ finished.map Prod.fst := by
    intro hMem
    apply hOther
    cases c.1.value? with
    | none => exact hMem
    | some b => simp [hMem]
  by_cases hSame : j = i
  · subst hSame
    rw [Function.update_self, Function.update_self]
    exact common.turn (hKept j hRunning) hFirst
  · rw [Function.update_of_ne hSame, Function.update_of_ne hSame]
    exact common.other (hKept j hOther') (hKept i hRunning) hFirst

theorem Abreast.crash (abreast : Abreast J need next d) {index : Nat}
    (hTurn : h.choose d (.turn (.crash index)) = some e) : Abreast J need next e := by
  obtain ⟨p, σ⟩ := d
  obtain ⟨locs, branches, finished, rfl, hKept⟩ := abreast
  have hStep : h.step (par count need locs branches finished next) (.crash index) σ = some e := hTurn
  rw [step] at hStep
  split at hStep
  · split at hStep
    · cases hStep
    · cases hStep
      refine ⟨locs, branches, _, rfl, fun i hOther => hKept i fun hMem => hOther ?_⟩
      simp [hMem]
  · cases hStep

/-- A choice keeps the branches side by side, or joins them once enough of them have finished; the
program then goes on with what they have returned. -/
theorem Abreast.choose (common : Common h J) (abreast : Abreast J need next d) {choice : h.Choice}
    (hChoose : h.choose d choice = some e) :
    Abreast J need next e ∨
      choice = .turn .here ∧ ∃ finished, e = h.advance (next finished) d.2 := by
  cases choice with
  | env disturbance =>
      cases hChoose
      exact Or.inl (abreast.env common disturbance)
  | turn move =>
      cases move with
      | branch index move => exact Or.inl (abreast.branch common hChoose)
      | crash index => exact Or.inl (abreast.crash hChoose)
      | here =>
          obtain ⟨p, σ⟩ := d
          obtain ⟨locs, branches, finished, rfl, _⟩ := abreast
          have hStep : h.step (par count need locs branches finished next) .here σ = some e := hChoose
          rw [step] at hStep
          split at hStep <;> cases hStep
          exact Or.inr ⟨rfl, finished, rfl⟩
      | _ =>
          obtain ⟨p, σ⟩ := d
          obtain ⟨locs, branches, finished, rfl, _⟩ := abreast
          cases hChoose

/-- In every run the branches keep their invariant until they are joined. -/
theorem Abreast.reaches (common : Common h J) (abreast : Abreast J need next d)
    (reached : h.Reaches d e) :
    Abreast J need next e ∨
      ∃ finished σ, h.Reaches (h.advance (next finished) σ) e := by
  apply reached.induction (fun c => Abreast J need next c ∨
    ∃ finished σ, h.Reaches (h.advance (next finished) σ) c) (Or.inl abreast)
  intro c choice c' hKept hChoose
  rcases hKept with hAbreast | ⟨finished, σ, hJoined⟩
  · rcases hAbreast.choose common hChoose with hStill | ⟨_, finished, rfl⟩
    · exact Or.inl hStill
    · exact Or.inr ⟨finished, c.2, .refl h _⟩
  · exact Or.inr ⟨finished, σ, hJoined.trans ⟨[choice], by rw [run_cons, hChoose]; rfl⟩⟩

/-- What a branch can do alone it can do among the others. -/
theorem reaches_branch {locs : Fin count → sig.Local} {branches : Fin count → Program sig β}
    {finished : List (Fin count × Option β)} {σ : State sig} {i : Fin count} {c : Config sig β}
    (hRunning : i ∉ finished.map Prod.fst)
    (reached : h.Reaches (branches i, σ.fork (locs i)) c) (hWaits : c.1.value? = none) :
    ∃ d, h.Reaches (par count need locs branches finished next, σ) d ∧ d.2.world = c.2.world := by
  obtain ⟨choices, hRun⟩ := reached
  induction choices generalizing locs branches finished σ with
  | nil =>
      cases hRun
      exact ⟨_, .refl h _, rfl⟩
  | cons choice rest ih =>
      rw [run_cons, Option.bind_eq_some_iff] at hRun
      obtain ⟨c', hFirst, hRest⟩ := hRun
      cases choice with
      | env e =>
          cases hFirst
          obtain ⟨d, hReached, hWorld⟩ := @ih locs branches finished (σ.mapWorld (h.disturb e))
            hRunning hRest
          have hStep : h.choose (par count need locs branches finished next, σ) (.env e) =
              some (par count need locs branches finished next, σ.mapWorld (h.disturb e)) := rfl
          exact ⟨d, hReached.head hStep, hWorld⟩
      | turn move =>
          have hTurn : h.step (branches i) move (σ.fork (locs i)) = some c' := hFirst
          have hStep : h.choose (par count need locs branches finished next, σ)
              (.turn (.branch i move)) =
              some (closeBranch σ need locs branches finished next i c') := by
            show h.step (par count need locs branches finished next) (.branch i move) σ = _
            rw [step, dif_pos i.isLt, if_neg hRunning, hTurn]
            rfl
          cases hValue : c'.1.value? with
          | some b =>
              -- a branch that has returned goes on no further
              have hDone := eq_done_of_value? hValue
              obtain ⟨p', τ⟩ := c'
              cases hDone
              obtain ⟨w, _, hEq⟩ := Follows.done_cases (Reaches.follows ⟨rest, hRest⟩)
              rw [hEq] at hWaits
              cases hWaits
          | none =>
              have hOpen : closeBranch σ need locs branches finished next i c' =
                  (par count need (Function.update locs i c'.2.loc) (Function.update branches i c'.1)
                    finished next, c'.2.fork σ.loc) := by
                simp [closeBranch, hValue]
              rw [hOpen] at hStep
              have hSame : h.run (Function.update branches i c'.1 i,
                  (c'.2.fork σ.loc).fork (Function.update locs i c'.2.loc i)) rest = some c := by
                rw [Function.update_self, Function.update_self]
                exact hRest
              obtain ⟨d, hReached, hWorld⟩ := ih hRunning hSame
              exact ⟨d, hReached.head hStep, hWorld⟩

/-- Every turn of a program without races, regions and branches, from whatever state it
takes it, leads from that state to a configuration with `P`. -/
def EachTurn (h : Handler sig) {α : Type} :
    Program sig α → (State sig → Config sig α → Prop) → Prop
  | done _, _ => True
  | act a next, P =>
      (h.mode a ≠ .sync → ∀ σ reply τ, h.perform a σ = some (reply, τ) →
        P σ (h.advance (next reply) τ)) ∧ ∀ reply, EachTurn h (next reply) P
  | race _ _ _, _ => False
  | region _ _ _ _, _ => False
  | par _ _ _ _ _ _, _ => False

variable {P : State sig → Config sig α → Prop}

theorem EachTurn.advance {p : Program sig α} (each : EachTurn h p P) (σ : State sig) :
    EachTurn h (h.advance p σ).1 P := by
  induction p generalizing σ with
  | done value => exact each
  | act a next ih =>
      rw [Handler.advance]
      split
      · split
        · rename_i reply τ _
          exact ih reply (each.2 reply) τ
        · exact each
      · exact each
  | race alarm body next _ _ => exact each.elim
  | region loc shared body next _ _ => exact each.elim
  | par count need locs branches finished next _ _ => exact each.elim

/-- The program has returned or waits for something. -/
def Settled (h : Handler sig) (p : Program sig α) : Prop := p.value? = none → h.Waiting p

/-- No request of a program's own turn has to wait. -/
def Prompt (h : Handler sig) : Prop :=
  ∀ (a : sig.Act) (σ : State sig), h.mode a = .sync → (h.perform a σ).isSome

theorem EachTurn.settled (prompt : h.Prompt) {p : Program sig α} (each : EachTurn h p P)
    (σ : State sig) : h.Settled (h.advance p σ).1 := by
  induction p generalizing σ with
  | done value => exact fun hRunning => nomatch hRunning
  | act a next ih =>
      by_cases hMode : h.mode a = .sync
      · obtain ⟨⟨reply, τ⟩, hPerform⟩ := Option.isSome_iff_exists.mp (prompt a σ hMode)
        rw [h.advance_act_sync next hMode hPerform]
        exact ih reply (each.2 reply) τ
      · rw [h.advance_act_of_ne next σ hMode]
        exact fun _ => hMode
  | race alarm body next _ _ => exact each.elim
  | region loc shared body next _ _ => exact each.elim
  | par count need locs branches finished next _ _ => exact each.elim

/-- A turn of a program that waits. -/
theorem EachTurn.step (prompt : h.Prompt) {p : Program sig α} (each : EachTurn h p P)
    (settled : h.Settled p) {move : Move} {σ : State sig} (hStep : h.step p move σ = some d) :
    EachTurn h d.1 P ∧ h.Settled d.1 ∧ P σ d := by
  cases p with
  | done value => cases (h.step_done value move σ).symm.trans hStep
  | act a next =>
      cases move with
      | here =>
          obtain ⟨⟨reply, τ⟩, hPerform, rfl⟩ := Option.map_eq_some_iff.mp hStep
          exact ⟨(each.2 reply).advance τ, (each.2 reply).settled prompt τ,
            each.1 (settled rfl) σ reply τ hPerform⟩
      | _ => cases hStep
  | race alarm body next => exact each.elim
  | region loc shared body next => exact each.elim
  | par count need locs branches finished next => exact each.elim

end Async.Handler
