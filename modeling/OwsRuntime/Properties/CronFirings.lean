import OwsRuntime.Properties.ScheduleCancel
import OwsRuntime.Schedule.Timing

/-! Cron firings. The instant that a loop sleeps for lies after the second in which it was
computed, and the loop wakes no earlier. So the next one is computed in that second or
later, and lies after it. -/
namespace OwsRuntime

open Async Handler Program Schedule

/-- A `select` that ends with its timer or event has seen it ready. -/
theorem ScheduleWorld.ready_of_woken {α : Type} (w : ScheduleWorld) {ready : Option α} {epoch : Nat}
    {value : α} (hWoken : w.woken ready epoch = some (some value)) : ready = some value := by
  unfold woken at hWoken
  split at hWoken
  · cases hWoken
  · obtain ⟨_, hReady, hValue⟩ := Option.map_eq_some_iff.mp hWoken
    cases hValue
    exact hReady

section Turns

variable {cron : CronEngine} {expression : String} {reading : Int}

/-- What a sleeping loop does when it is woken. -/
def wakes (goOn : ScheduleFuture Unit) (notified : Bool) : ScheduleFuture Unit :=
  if notified then pure ()
  else askSchedule .isCancelled >>= fun flag => if !flag then goOn else pure ()

/-- What a cron loop does at the end of its sleep. -/
inductive CronRest (nextAfter : Int → Option Int) : ScheduleFuture Unit → Prop where
  | fires (fuel : Nat) : CronRest nextAfter (fire .null >>= fun _ => cronLoop nextAfter fuel)
  | outOfFuel : CronRest nextAfter Schedule.outOfFuel

/-- Where a cron loop is that has last read the clock at this reading. -/
inductive CronAt (cron : CronEngine) (expression : String) (reading : Int) :
    ScheduleFuture Unit → Prop where
  | spawned (fuel : Nat) : CronAt cron expression reading (runSchedule cron (.cron expression) fuel)
  | asleep {instant : Int} {epoch : Nat} {goOn : ScheduleFuture Unit}
      (hNext : cron.next expression reading = some instant)
      (rest : CronRest (cron.next expression) goOn) :
      CronAt cron expression reading
        (.act (.sleep ((instant - reading).toNat * 1000000000) epoch) (wakes goOn))
  | running (fuel : Nat) : CronAt cron expression reading
      (.act (.run .null) fun _ => cronLoop (cron.next expression) fuel)
  | ended : CronAt cron expression reading (.done ())
  | outOfFuel : CronAt cron expression reading Schedule.outOfFuel

/-- What one turn of a cron loop does. It fires when its timer has gone off. -/
inductive CronTurn (cron : CronEngine) (expression : String) (reading : Int)
    (p : ScheduleFuture Unit) (σ : State scheduleSig) (d : Config scheduleSig Unit) : Prop where
  | silent (hAt : CronAt cron expression σ.world.clock d.1) (hState : d.2 = σ)
  | fired {instant : Int} {epoch : Nat} {goOn : ScheduleFuture Unit}
      (hNext : cron.next expression reading = some instant)
      (hSleep : p = .act (.sleep ((instant - reading).toNat * 1000000000) epoch) (wakes goOn))
      (hReady : σ.world.oracle.timerReady = true)
      (hAt : CronAt cron expression σ.world.clock d.1) (hState : d.2 = counted σ)

theorem advance_sleeps (duration : Nat) (goOn : ScheduleFuture Unit) (σ : State scheduleSig) :
    scheduler.advance (sleepOrCancel duration >>= fun go => if go then goOn else pure ()) σ =
      if σ.world.cancelled then (.done (), σ)
      else (.act (.sleep duration σ.world.notifications) (wakes goOn), σ) := by
  have hRead : scheduler.perform .isCancelled σ = some (σ.world.cancelled, σ) := rfl
  refine (scheduler.advance_act_sync _ rfl hRead).trans ?_
  cases σ.world.cancelled with
  | true => rfl
  | false =>
      have hRegister : scheduler.perform .notified σ = some (σ.world.notifications, σ) := rfl
      refine (scheduler.advance_act_sync _ rfl hRegister).trans
        ((scheduler.advance_act_of_ne _ σ (await_waits rfl)).trans ?_)
      refine congrArg (fun next => (Program.act _ next, σ)) (funext fun notified => ?_)
      cases notified <;> rfl

/-- A cron loop that reads the clock sleeps until the next instant, or ends. -/
theorem cronRound_turn {goOn : ScheduleFuture Unit} (rest : CronRest (cron.next expression) goOn)
    (σ : State scheduleSig) : ∃ p,
      scheduler.advance (cronRound (cron.next expression) goOn) σ = (p, σ) ∧
        CronAt cron expression σ.world.clock p := by
  have hRead : scheduler.perform .epochSeconds σ = some (σ.world.clock, σ) := rfl
  have hRound := scheduler.advance_act_sync (cronSleep (cron.next expression) goOn) rfl hRead
  rw [cronSleep] at hRound
  cases hNext : cron.next expression σ.world.clock with
  | none =>
      rw [hNext] at hRound
      exact ⟨.done (), hRound, .ended⟩
  | some instant =>
      rw [hNext] at hRound
      have hSleep := hRound.trans
        (advance_sleeps ((instant - σ.world.clock).toNat * 1000000000) goOn σ)
      cases hFlag : σ.world.cancelled with
      | true =>
          rw [hFlag] at hSleep
          exact ⟨.done (), hSleep, .ended⟩
      | false =>
          rw [hFlag] at hSleep
          exact ⟨_, hSleep, .asleep hNext rest⟩

theorem cronLoop_turn (fuel : Nat) (σ : State scheduleSig) : ∃ p,
    scheduler.advance (cronLoop (cron.next expression) fuel) σ = (p, σ) ∧
      CronAt cron expression σ.world.clock p := by
  cases fuel with
  | zero => exact cronRound_turn .outOfFuel σ
  | succ fuel => exact cronRound_turn (.fires fuel) σ

theorem CronTurn.of_loop (fuel : Nat) (p : ScheduleFuture Unit) (σ : State scheduleSig) :
    CronTurn cron expression reading p σ
      (scheduler.advance (cronLoop (cron.next expression) fuel) σ) := by
  obtain ⟨rest, hRest, hAt⟩ := cronLoop_turn fuel σ
  rw [hRest]
  exact .silent hAt rfl

/-- The first turn of a cron schedule asks for the time from which its first instant is reckoned,
and ends with the sleep until then. -/
theorem spawned_turn (fuel : Nat) {move : Move} {σ : State scheduleSig}
    {d : Config scheduleSig Unit}
    (hStep : scheduler.step (runSchedule cron (.cron expression) fuel) move σ = some d) :
    CronTurn cron expression reading (runSchedule cron (.cron expression) fuel) σ d := by
  cases move with
  | here =>
      cases hParse : cron.parse expression with
      | error e =>
          have hEnd : scheduler.step (runSchedule cron (.cron expression) fuel) .here σ =
              some (.done (), σ) := by
            simp only [runSchedule, hParse]
            rfl
          cases hEnd.symm.trans hStep
          exact .silent .ended rfl
      | ok nextAfter =>
          have hNext : cron.next expression = nextAfter := by
            funext now
            simp only [CronEngine.next, hParse]
          have hBegin : scheduler.step (runSchedule cron (.cron expression) fuel) .here σ =
              some (scheduler.advance (cronLoop (cron.next expression) fuel) σ) := by
            simp only [runSchedule, hParse, hNext]
            rfl
          cases hBegin.symm.trans hStep
          exact .of_loop fuel _ σ
  | _ => cases hStep

/-- The turn of a loop whose timer goes off, or whose set is cancelled. -/
theorem asleep_turn {instant : Int} {epoch : Nat} {goOn : ScheduleFuture Unit}
    (hNext : cron.next expression reading = some instant)
    (rest : CronRest (cron.next expression) goOn) {move : Move} {σ : State scheduleSig}
    {d : Config scheduleSig Unit}
    (hStep : scheduler.step (.act (.sleep ((instant - reading).toNat * 1000000000) epoch)
      (wakes goOn)) move σ = some d) :
    CronTurn cron expression reading
      (.act (.sleep ((instant - reading).toNat * 1000000000) epoch) (wakes goOn)) σ d := by
  cases move with
  | here =>
      obtain ⟨⟨notified, τ⟩, hPerform, hTurn⟩ := Option.map_eq_some_iff.mp hStep
      obtain ⟨woken, hWoken, hReply⟩ := Option.map_eq_some_iff.mp hPerform
      cases hReply
      cases woken with
      | none =>
          cases hTurn
          exact .silent .ended rfl
      | some _ =>
          have hReady : σ.world.oracle.timerReady = true := by
            have hTimer := σ.world.ready_of_woken hWoken
            split at hTimer
            · assumption
            · cases hTimer
          have hFlag := (advance_isCancelled (fun flag => if !flag then goOn else pure ()) σ).symm.trans
            hTurn
          cases hCancelled : σ.world.cancelled with
          | true =>
              rw [hCancelled] at hFlag
              cases hFlag
              exact .silent .ended rfl
          | false =>
              rw [hCancelled] at hFlag
              cases rest with
              | outOfFuel =>
                  cases hFlag
                  exact .silent .outOfFuel rfl
              | fires fuel =>
                  cases (advance_fire .null _ σ).symm.trans hFlag
                  exact .fired hNext rfl hReady (.running fuel) rfl
  | _ => cases hStep

theorem running_turn (fuel : Nat) {move : Move} {σ : State scheduleSig}
    {d : Config scheduleSig Unit}
    (hStep : scheduler.step (.act (.run .null) fun _ => cronLoop (cron.next expression) fuel) move σ =
      some d) :
    CronTurn cron expression reading
      (.act (.run .null) fun _ => cronLoop (cron.next expression) fuel) σ d := by
  cases move with
  | here =>
      obtain ⟨⟨result, τ⟩, hPerform, hTurn⟩ := Option.map_eq_some_iff.mp hStep
      obtain ⟨_, _, hReply⟩ := Option.map_eq_some_iff.mp hPerform
      cases hReply
      cases hTurn
      exact .of_loop fuel _ σ
  | _ => cases hStep

/-- What a turn does, wherever the loop is. -/
theorem CronAt.turn {p : ScheduleFuture Unit} (hAt : CronAt cron expression reading p) {move : Move}
    {σ : State scheduleSig} {d : Config scheduleSig Unit}
    (hStep : scheduler.step p move σ = some d) : CronTurn cron expression reading p σ d := by
  cases hAt with
  | spawned fuel => exact spawned_turn fuel hStep
  | asleep hNext rest => exact asleep_turn hNext rest hStep
  | running fuel => exact running_turn fuel hStep
  | ended =>
      rw [scheduler.step_done] at hStep
      cases hStep
  | outOfFuel => cases move <;> cases hStep

end Turns

section Runs

variable {cron : CronEngine} {expression : String} {t u : TimedLoop}

/-- How the record of the firings stands to the clock, between the turns. -/
structure CronKept (cron : CronEngine) (expression : String) (t : TimedLoop) : Prop where
  place : CronAt cron expression (wholeSeconds t.since) t.loop.1
  clock : t.loop.2.world.clock = wholeSeconds t.now
  since : t.since ≤ t.now
  recorded : t.firings.length = t.loop.2.loc.firings.length
  due : ∀ f ∈ t.firings, f.instant ≤ f.reading ∧ f.reading ≤ wholeSeconds t.since
  ordered : t.firings.Pairwise fun f g => f.instant < g.instant

theorem wholeSeconds_mono {earlier later : Int} (h : earlier ≤ later) :
    wholeSeconds earlier ≤ wholeSeconds later :=
  Int.ediv_le_ediv (by decide) h

/-- A sleep of whole seconds from a time in the second that was read. -/
theorem le_wholeSeconds_of_slept {since now instant : Int}
    (hSlept : since + ((instant - wholeSeconds since).toNat * 1000000000 : Nat) ≤ now) :
    instant ≤ wholeSeconds now := by
  unfold wholeSeconds at *
  omega

theorem CronKept.spawn (cron : CronEngine) (expression : String) (fuel : Nat) (start : Int)
    (oracle : ScheduleOracle) :
    CronKept cron expression (TimedLoop.spawn cron expression fuel start oracle) where
  place := .spawned fuel
  clock := rfl
  since := Int.le_refl _
  recorded := rfl
  due := fun _ h => nomatch h
  ordered := .nil

/-- A turn of the loop keeps its reckoning: a firing comes at the instant that was computed, and the
next one is computed from it. There is a case for each place in the round. -/
theorem CronKept.turn
    (advances : ∀ time instant, cron.next expression time = some instant → time < instant)
    (kept : CronKept cron expression t) (punctual : t.Punctual) {move : Move}
    {d : Config scheduleSig Unit} (hTurn : scheduler.step t.loop.1 move t.loop.2 = some d) :
    CronKept cron expression
      { loop := d, now := t.now, since := t.now
        firings := t.firings ++ t.fired cron expression d } := by
  have hRead : ∀ f ∈ t.firings, f.instant ≤ f.reading ∧ f.reading ≤ wholeSeconds t.now :=
    fun f hf => ⟨(kept.due f hf).1, (kept.due f hf).2.trans (wholeSeconds_mono kept.since)⟩
  cases kept.place.turn hTurn with
  | silent hAt hState =>
      have hNone : t.fired cron expression d = [] := by
        rw [TimedLoop.fired, hState, if_neg (Nat.lt_irrefl _)]
      rw [hNone, List.append_nil]
      exact ⟨kept.clock ▸ hAt, hState ▸ kept.clock, Int.le_refl _, hState ▸ kept.recorded, hRead,
        kept.ordered⟩
  | @fired instant epoch goOn hNext hSleep hReady hAt hState =>
      have hCount : d.2.loc.firings.length = t.loop.2.loc.firings.length + 1 := by
        rw [hState]
        exact List.length_append
      have hOne : t.fired cron expression d = [⟨instant, wholeSeconds t.now⟩] := by
        rw [TimedLoop.fired, hCount, if_pos (Nat.lt_succ_self _), hNext]
        rfl
      have hDue : instant ≤ wholeSeconds t.now :=
        le_wholeSeconds_of_slept (punctual _ _ _ hSleep hReady)
      have hAfter : wholeSeconds t.since < instant := advances _ _ hNext
      rw [hOne]
      refine ⟨kept.clock ▸ hAt, ?_, Int.le_refl _, ?_, ?_, ?_⟩
      · rw [hState]
        exact kept.clock
      · rw [List.length_append, kept.recorded]
        exact hCount.symm
      · intro f hf
        rcases List.mem_append.mp hf with hf | hf
        · exact hRead f hf
        · cases List.mem_singleton.mp hf
          exact ⟨hDue, Int.le_refl _⟩
      · refine List.pairwise_append.mpr ⟨kept.ordered, List.pairwise_singleton .., ?_⟩
        intro f hf g hg
        cases List.mem_singleton.mp hg
        have hEarlier := kept.due f hf
        exact lt_of_le_of_lt (hEarlier.1.trans hEarlier.2) hAfter

theorem CronKept.step
    (advances : ∀ time instant, cron.next expression time = some instant → time < instant)
    (kept : CronKept cron expression t) (hStep : TimedLoop.Step cron expression t u) :
    CronKept cron expression u := by
  cases hStep with
  | elapse later hLater =>
      exact { kept with clock := rfl, since := kept.since.trans hLater }
  | cancel => exact { kept with }
  | replies oracle => exact { kept with }
  | others triggered => exact { kept with }
  | turn punctual hTurn => exact kept.turn advances punctual hTurn

theorem CronKept.reaches
    (advances : ∀ time instant, cron.next expression time = some instant → time < instant)
    (kept : CronKept cron expression t) (reached : TimedLoop.Reaches cron expression t u) :
    CronKept cron expression u := by
  induction reached with
  | refl => exact kept
  | tail _ hStep ih => exact ih.step advances hStep

/-- The instants for which a cron loop fires are strictly increasing, and it fires for none
of them before the clock has reached it. -/
theorem cron_firings_advance (cron : CronEngine) (expression : String) (fuel : Nat) (start : Int)
    (oracle : ScheduleOracle)
    (advances : ∀ time instant, cron.next expression time = some instant → time < instant)
    (reached : TimedLoop.Reaches cron expression
      (TimedLoop.spawn cron expression fuel start oracle) u) :
    u.firings.length = u.loop.2.loc.firings.length ∧
      (u.firings.map CronFiring.instant).Pairwise (· < ·) ∧
      ∀ f ∈ u.firings, f.instant ≤ f.reading := by
  have kept := (CronKept.spawn cron expression fuel start oracle).reaches advances reached
  exact ⟨kept.recorded, List.pairwise_map.mpr kept.ordered, fun f hf => (kept.due f hf).1⟩

/-- A cron expression that fires in every second. -/
def everySecond : CronEngine := { parse := fun _ => .ok fun time => some (time + 1) }

/-- An outside world that answers at once. -/
def promptOracle : ScheduleOracle :=
  { timerReady := true, subscribe := .ok (), event := none, notifiedFirst := false
    execution := some (.ok .null) }

theorem TimedLoop.Reaches.elapse (reached : TimedLoop.Reaches cron expression t u) (later : Int)
    (hLater : u.now ≤ later) : TimedLoop.Reaches cron expression t { u with
      loop := (u.loop.1, u.loop.2.mapWorld (scheduler.disturb (.clock (wholeSeconds later))))
      now := later } :=
  .tail reached (.elapse later hLater)

theorem TimedLoop.Reaches.turn (reached : TimedLoop.Reaches cron expression t u)
    (punctual : u.Punctual) {d : Config scheduleSig Unit}
    (hTurn : scheduler.step u.loop.1 .here u.loop.2 = some d) :
    TimedLoop.Reaches cron expression t
      { loop := d, now := u.now, since := u.now
        firings := u.firings ++ u.fired cron expression d } :=
  .tail reached (.turn punctual hTurn)

/-- From half a second on, a sleep to the next second, an execution of a second and a half,
and another sleep. -/
theorem everySecond_advances :
    ∃ u, TimedLoop.Reaches everySecond "* * * * * *"
        (TimedLoop.spawn everySecond "* * * * * *" 2 500000000 promptOracle) u ∧
      u.firings = [⟨1, 1⟩, ⟨4, 4⟩] ∧ (u.firings.map CronFiring.instant).Pairwise (· < ·) := by
  have advances : ∀ time instant, everySecond.next "* * * * * *" time = some instant →
      time < instant := by
    intro time instant hNext
    cases hNext
    exact Int.lt_succ time
  have spawned : TimedLoop.Reaches everySecond "* * * * * *" _
    (TimedLoop.spawn everySecond "* * * * * *" 2 500000000 promptOracle) := .refl
  have asleep := spawned.turn (by intro _ _ _ h; cases h) rfl
  have slept := asleep.elapse 1700000000 (by decide)
  have fired := slept.turn (by intro _ _ _ h _; cases h; decide) rfl
  have executed := fired.elapse 3200000000 (by decide)
  have asleepAgain := executed.turn (by intro _ _ _ h; cases h) rfl
  have sleptAgain := asleepAgain.elapse 4200000000 (by decide)
  have firedAgain := sleptAgain.turn (by intro _ _ _ h _; cases h; decide) rfl
  have hAdvance :=
    cron_firings_advance everySecond "* * * * * *" 2 500000000 promptOracle advances firedAgain
  exact ⟨_, firedAgain, rfl, hAdvance.2.1⟩

end Runs
end OwsRuntime
