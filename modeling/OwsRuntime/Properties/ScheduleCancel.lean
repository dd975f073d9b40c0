import OwsRuntime.Async.Abreast
import OwsRuntime.Async.Own
import OwsRuntime.Schedule.Loops

/-! Cancelled schedules. A loop that reads the flag in the turn in which it fires, and in
the turn in which it starts to wait, is silent from the cancellation on. -/
namespace OwsRuntime

open Async Handler Program Schedule

/-- The notification of a cancellation reaches what has been registered at this epoch. -/
def Signalled (epoch : Nat) (w : ScheduleWorld) : Prop :=
  epoch ≤ w.notifications ∧ (w.cancelled = true → epoch < w.notifications)

/-- A loop that waits in a `select` is woken when the set is cancelled. -/
def Woken : ScheduleFuture Unit → ScheduleWorld → Prop
  | .act (.sleep _ epoch) _, w => Signalled epoch w
  | .act (.receive epoch) _, w => Signalled epoch w
  | _, _ => True

/-- A turn which fires nothing and ends the loop, if the set is cancelled. -/
structure TurnHeeds (σ : State scheduleSig) (c : Config scheduleSig Unit) : Prop where
  woken : Woken c.1 c.2.world
  ends : σ.world.cancelled = true → c.1 = .done () ∧ c.2.world = σ.world

/-- Every turn of the loop heeds the token of its set. -/
def Heeds (p : ScheduleFuture Unit) : Prop := EachTurn scheduler p TurnHeeds

/-- Every request of the scheduler that needs no waiting is answered at once. -/
theorem scheduler_prompt : scheduler.Prompt := by
  intro a σ hMode
  cases a <;> first | rfl | cases hMode

section Loops

variable {p goOn rest : ScheduleFuture Unit} {σ : State scheduleSig}

/-- A part of a loop that may be run after any request. -/
structure Prudent (p : ScheduleFuture Unit) : Prop where
  heeds : Heeds p
  turn : ∀ σ, TurnHeeds σ (scheduler.advance p σ)

/-- A part of a loop that is run when the flag has just been read. -/
structure Bold (p : ScheduleFuture Unit) : Prop where
  heeds : Heeds p
  woken : ∀ σ, Woken (scheduler.advance p σ).1 (scheduler.advance p σ).2.world

/-- A prudent schedule may also begin with a check. -/
theorem Prudent.bold (prudent : Prudent p) : Bold p :=
  ⟨prudent.heeds, fun σ => (prudent.turn σ).woken⟩

/-- A schedule without rounds left never fires. -/
theorem outOfFuel_bold : Bold Schedule.outOfFuel := by
  constructor
  · exact ⟨fun _ _ never => (nomatch never), fun never => (nomatch never)⟩
  · exact fun _ => trivial

/-- Nor does one that is done. -/
theorem done_prudent : Prudent (pure ()) := by
  constructor
  · exact trivial
  · exact fun _ => ⟨trivial, fun _ => ⟨rfl, rfl⟩⟩

/-- The check for a cancellation is answered at once, by what holds then. -/
theorem advance_isCancelled {α : Type} (next : Bool → ScheduleFuture α) (σ : State scheduleSig) :
    scheduler.advance (askSchedule .isCancelled >>= next) σ =
      scheduler.advance (next σ.world.cancelled) σ := by
  have hRead : scheduler.perform .isCancelled σ = some (σ.world.cancelled, σ) := rfl
  exact scheduler.advance_act_sync next rfl hRead

/-- The end of a sleep, when the timer has gone off. -/
theorem wakeUp_turn (bold : Bold goOn) (σ : State scheduleSig) : TurnHeeds σ (scheduler.advance
    (askSchedule .isCancelled >>= fun flag => if !flag then goOn else pure ()) σ) := by
  rw [advance_isCancelled]
  cases hFlag : σ.world.cancelled with
  | true => exact ⟨trivial, fun _ => ⟨rfl, rfl⟩⟩
  | false => exact ⟨bold.woken σ, fun h => absurd (hFlag.symm.trans h) Bool.false_ne_true⟩

/-- A request that is awaited is not answered at once. -/
theorem await_waits {a : ScheduleAct} (hAwait : a.mode = .await) : scheduler.mode a ≠ .sync := by
  intro hSync
  cases hAwait.symm.trans hSync

/-- A sleep that the flag does not prevent waits for its timer. -/
theorem advance_sleepOrCancel (duration : Nat) (goOn : ScheduleFuture Unit)
    (hRunning : σ.world.cancelled = false) :
    ∃ next, scheduler.advance (sleepOrCancel duration >>= fun go => if go then goOn else pure ()) σ =
      (.act (.sleep duration σ.world.notifications) next, σ) := by
  have hRead : scheduler.perform .isCancelled σ = some (false, σ) := by
    rw [← hRunning]
    rfl
  have hRegister : scheduler.perform .notified σ = some (σ.world.notifications, σ) := rfl
  exact ⟨_, (scheduler.advance_act_sync _ rfl hRead).trans
    ((scheduler.advance_act_sync _ rfl hRegister).trans
      (scheduler.advance_act_of_ne _ σ (await_waits rfl)))⟩

/-- After a sleep the cancellation is known, and only without one does the schedule go on. -/
theorem sleepOrCancel_prudent (duration : Nat) (bold : Bold goOn) :
    Prudent (sleepOrCancel duration >>= fun go => if go then goOn else pure ()) := by
  constructor
  · refine ⟨fun h => absurd rfl h, fun flag => ?_⟩
    cases flag with
    | true => exact trivial
    | false =>
        refine ⟨fun h => absurd rfl h, fun epoch => ⟨fun _ σ notified τ hPerform => ?_, ?_⟩⟩
        · obtain ⟨ready, _, hEq⟩ := Option.map_eq_some_iff.mp hPerform
          cases hEq
          cases ready with
          | none => exact ⟨trivial, fun _ => ⟨rfl, rfl⟩⟩
          | some _ => exact wakeUp_turn bold σ
        · intro notified
          cases notified with
          | true => exact trivial
          | false =>
              refine ⟨fun h => absurd rfl h, fun flag => ?_⟩
              cases flag with
              | true => exact trivial
              | false => exact bold.heeds
  · intro σ
    cases hFlag : σ.world.cancelled with
    | true =>
        have hRead : scheduler.perform .isCancelled σ = some (true, σ) := by
          rw [← hFlag]
          rfl
        have hTurn : scheduler.advance (sleepOrCancel duration >>= fun go =>
            if go then goOn else pure ()) σ = (.done (), σ) := scheduler.advance_act_sync _ rfl hRead
        rw [hTurn]
        exact ⟨trivial, fun _ => ⟨rfl, rfl⟩⟩
    | false =>
        have hEver : σ.world.cancelled = true → False :=
          fun h => absurd (hFlag.symm.trans h) Bool.false_ne_true
        obtain ⟨next, hWait⟩ := advance_sleepOrCancel duration goOn hFlag
        rw [hWait]
        exact ⟨⟨Nat.le_refl _, fun h => (hEver h).elim⟩, fun h => (hEver h).elim⟩

/-- The state after a firing has been counted. -/
def counted (σ : State scheduleSig) : State scheduleSig :=
  { σ with
    loc := { σ.loc with firings := σ.loc.firings ++ [σ.loc.heard] }
    world := { σ.world with triggered := σ.world.triggered + 1 } }

/-- To fire is to count the trigger and to request a run. -/
theorem advance_fire (input : Value) (rest : ScheduleFuture Unit) (σ : State scheduleSig) :
    scheduler.advance (fire input >>= fun _ => rest) σ =
      (.act (.run input) fun _ => rest, counted σ) := by
  have hCount : scheduler.perform .trigger σ = some ((), counted σ) := rfl
  have hTurn := scheduler.advance_act_sync (fun _ => askSchedule (.run input) >>= fun _ => rest) rfl
    hCount
  exact hTurn.trans (scheduler.advance_act_of_ne _ _ (await_waits rfl))

/-- A schedule which fires and then checks is bold. -/
theorem fire_bold (input : Value) (prudent : Prudent rest) :
    Bold (fire input >>= fun _ => rest) := by
  constructor
  · refine ⟨fun h => absurd rfl h, fun _ => ⟨fun _ σ result τ hPerform => ?_, ?_⟩⟩
    · obtain ⟨_, _, hEq⟩ := Option.map_eq_some_iff.mp hPerform
      cases hEq
      exact prudent.turn σ
    · exact fun _ => prudent.heeds
  · intro σ
    rw [advance_fire]
    exact trivial

/-- The loop over intervals sleeps before each firing. The induction is on its rounds. -/
theorem everyLoop_prudent (interval fuel : Nat) : Prudent (everyLoop interval fuel) := by
  induction fuel with
  | zero => exact sleepOrCancel_prudent interval outOfFuel_bold
  | succ fuel ih => exact sleepOrCancel_prudent interval (fire_bold .null ih)

/-- What a `cron` loop does at a time: it sleeps until the next instant. -/
def cronSleep (nextAfter : Int → Option Int) (goOn : ScheduleFuture Unit) (now : Int) :
    ScheduleFuture Unit :=
  match nextAfter now with
  | none => pure ()
  | some next => sleepOrCancel ((next - now).toNat * 1000000000) >>= fun go =>
      if go then goOn else pure ()

/-- A round of a cron schedule sleeps until its next instant, or ends when there is none. -/
theorem cronRound_prudent (nextAfter : Int → Option Int) (bold : Bold goOn) :
    Prudent (cronRound nextAfter goOn) := by
  have hNext : ∀ now, Prudent (cronSleep nextAfter goOn now) := by
    intro now
    rw [cronSleep]
    cases nextAfter now with
    | none => exact done_prudent
    | some next => exact sleepOrCancel_prudent _ bold
  constructor
  · exact ⟨fun h => absurd rfl h, fun now => (hNext now).heeds⟩
  · exact fun σ => (hNext σ.world.clock).turn σ

/-- So the loop over instants sleeps before each firing. The induction is on its rounds. -/
theorem cronLoop_prudent (nextAfter : Int → Option Int) (fuel : Nat) :
    Prudent (cronLoop nextAfter fuel) := by
  induction fuel with
  | zero => exact cronRound_prudent nextAfter outOfFuel_bold
  | succ fuel ih => exact cronRound_prudent nextAfter (fire_bold .null ih)

/-- An `after` loop, once its first firing is under way. -/
theorem afterRest_prudent (delay fuel : Nat) :
    Prudent (sleepOrCancel delay >>= fun go => if go then afterLoop delay fuel else pure ()) := by
  induction fuel with
  | zero => exact sleepOrCancel_prudent delay outOfFuel_bold
  | succ fuel ih => exact sleepOrCancel_prudent delay (fire_bold .null ih)

/-- A loop that looks at the flag in every turn in which it may fire. -/
def ScheduleTrigger.Checks : ScheduleTrigger → Prop
  | .every _ => True
  | .cron _ => True
  | _ => False

/-- A trigger listens to events, waits for a single delay, or checks for the cancellation in every
round. -/
theorem ScheduleTrigger.kinds (trigger : ScheduleTrigger) :
    (∃ filters, trigger = .onEvents filters) ∨ (∃ delay, trigger = .after delay) ∨ trigger.Checks := by
  cases trigger with
  | onEvents filters => exact Or.inl ⟨filters, rfl⟩
  | after delay => exact Or.inr (Or.inl ⟨delay, rfl⟩)
  | every interval => exact Or.inr (Or.inr trivial)
  | cron expression => exact Or.inr (Or.inr trivial)

/-- A schedule which has just been spawned heeds a cancellation when its first turn does. -/
theorem spawned_heeds (bold : Bold rest) (turn : ∀ σ, TurnHeeds σ (scheduler.advance rest σ)) :
    Heeds (askSchedule .spawned >>= fun _ => rest) := by
  refine ⟨fun _ σ reply τ hPerform => ?_, fun _ => bold.heeds⟩
  cases hPerform
  exact turn σ

/-- A schedule that checks in every round heeds a cancellation from its start. -/
theorem runSchedule_heeds (cron : CronEngine) {trigger : ScheduleTrigger} (hChecks : trigger.Checks)
    (fuel : Nat) : Heeds (runSchedule cron trigger fuel) := by
  cases trigger with
  | every interval =>
      have prudent := everyLoop_prudent interval fuel
      exact spawned_heeds prudent.bold prudent.turn
  | cron expression =>
      cases hParse : cron.parse expression with
      | error e =>
          rw [runSchedule, hParse]
          exact spawned_heeds done_prudent.bold done_prudent.turn
      | ok nextAfter =>
          have prudent := cronLoop_prudent nextAfter fuel
          rw [runSchedule, hParse]
          exact spawned_heeds prudent.bold prudent.turn
  | after delay => exact hChecks.elim
  | onEvents filters => exact hChecks.elim

/-- The loop after a delay fires without another look at the cancellation. -/
theorem afterLoop_bold (delay fuel : Nat) : Bold (afterLoop delay fuel) := by
  cases fuel with
  | zero => exact outOfFuel_bold
  | succ fuel => exact fire_bold .null (afterRest_prudent delay fuel)

end Loops

section Sets

variable {cron : CronEngine} {triggers : List ScheduleTrigger} {fuel : Nat}

/-- What has been notified stays notified: neither a request of a schedule nor anything around it
takes a signal back. -/
theorem registered_lasting (epoch : Nat) : Lasting scheduler (Signalled epoch) where
  perform := by
    intro a σ reply τ hKept hPerform
    cases a with
    | sleep duration epoch' =>
        obtain ⟨_, _, hEq⟩ := Option.map_eq_some_iff.mp hPerform
        cases hEq
        exact hKept
    | receive epoch' =>
        obtain ⟨_, _, hEq⟩ := Option.map_eq_some_iff.mp hPerform
        cases hEq
        exact hKept
    | run input =>
        obtain ⟨_, _, hEq⟩ := Option.map_eq_some_iff.mp hPerform
        cases hEq
        exact hKept
    | outOfFuel => cases hPerform
    | _ =>
        obtain ⟨_, hState⟩ := Prod.mk.inj (Option.some.inj hPerform)
        rw [← hState]
        exact hKept
  disturb := by
    intro w e hKept
    cases e with
    | cancel => exact ⟨Nat.le_succ_of_le hKept.1, fun _ => Nat.lt_succ_of_le hKept.1⟩
    | _ => exact hKept

/-- What is registered stays so. -/
theorem woken_mono {p : ScheduleFuture Unit} {v w : ScheduleWorld}
    (hLater : ∀ epoch, Signalled epoch v → Signalled epoch w) (hWoken : Woken p v) : Woken p w := by
  unfold Woken at *
  split at hWoken
  · exact hLater _ hWoken
  · exact hLater _ hWoken
  · trivial

/-- A loop that has to do with the cancellation from now on. -/
structure Attentive (c : Config scheduleSig Unit) : Prop where
  heeds : Heeds c.1
  settled : scheduler.Settled c.1
  woken : Woken c.1 c.2.world

/-- A step of an attentive schedule leaves it attentive, and fires no more once it is cancelled. -/
theorem Attentive.turn {c d : Config scheduleSig Unit} (attentive : Attentive c) {move : Move}
    (hStep : scheduler.step c.1 move c.2 = some d) : Attentive d ∧ TurnHeeds c.2 d := by
  obtain ⟨heeds, settled, turn⟩ := attentive.heeds.step scheduler_prompt attentive.settled hStep
  exact ⟨⟨heeds, settled, turn.woken⟩, turn⟩

/-- The loops of a set: those of `after` have not begun or are attentive. -/
def LoopKept (cron : CronEngine) (triggers : List ScheduleTrigger) (fuel : Nat)
    (i : Fin triggers.length) (c : Config scheduleSig Unit) : Prop :=
  (∃ filters, triggers[i] = .onEvents filters) ∨ Attentive c ∨
    ∃ delay, triggers[i] = .after delay ∧ c.1 = runSchedule cron (.after delay) fuel

/-- The place of a schedule in its loop is not disturbed by what the other schedules do, -/
theorem loopKept_common : Common scheduler (LoopKept cron triggers fuel) where
  env := by
    intro i c e hKept
    refine hKept.imp_right fun hOther => hOther.imp_left fun attentive => ?_
    exact ⟨attentive.heeds, attentive.settled,
      woken_mono (fun epoch => (registered_lasting epoch).disturb e) attentive.woken⟩
  turn := by
    intro i c move d hKept hStep
    refine hKept.imp_right fun hOther => Or.inl ?_
    rcases hOther with attentive | ⟨delay, _, hStart⟩
    · exact (attentive.turn hStep).1
    · have bold := afterLoop_bold delay fuel
      rw [hStart] at hStep
      cases move with
      | here =>
          cases hStep
          exact ⟨bold.heeds.advance _, bold.heeds.settled scheduler_prompt _, bold.woken _⟩
      | _ => cases hStep
  other := by
    intro i j p l q k move d σ hKept _ hStep
    have hLater : ∀ epoch, Signalled epoch σ.world → Signalled epoch d.2.world :=
      fun epoch hReg => (registered_lasting epoch).step (σ := σ.fork k) hReg hStep
    refine hKept.imp_right fun hOther => hOther.imp_left fun attentive => ?_
    exact ⟨attentive.heeds, attentive.settled, woken_mono hLater attentive.woken⟩

/-- The loop of this number is under way, and this is what is left of it. -/
inductive LoopAt : ScheduleFuture Unit → Nat → ScheduleFuture Unit → Prop where
  | mk {count need : Nat} {locs : Fin count → ScheduleLoop} {branches : Fin count → ScheduleFuture Unit}
      {finished : List (Fin count × Option Unit)}
      {next : List (Fin count × Option Unit) → ScheduleFuture Unit} {i : Fin count}
      (hRunning : i ∉ finished.map Prod.fst) :
      LoopAt (.par count need locs branches finished next) i.val (branches i)

/-- The loop is idle: it waits in a `select`. -/
def Idle : ScheduleFuture Unit → Prop
  | .act (.sleep _ _) _ => True
  | .act (.receive _) _ => True
  | _ => False

/-- From here on no loop fires, every idle loop is woken, and every loop that takes a turn
ends. -/
structure Silent (c : Config scheduleSig Unit) : Prop where
  count : ∀ {d}, scheduler.Reaches c d → d.2.world.triggered = c.2.world.triggered
  wakes : ∀ {d index p}, scheduler.Reaches c d → LoopAt d.1 index p → Idle p →
    ∃ e, scheduler.choose d (.turn (.branch index .here)) = some e
  ends : ∀ {d index move e}, scheduler.Reaches c d →
    scheduler.choose d (.turn (.branch index move)) = some e → ∀ p, ¬ LoopAt e.1 index p

/-- and neither is its attention. -/
theorem attentive_common {count : Nat} :
    Common scheduler (fun (_ : Fin count) (c : Config scheduleSig Unit) => Attentive c) where
  env := by
    intro i c e attentive
    exact ⟨attentive.heeds, attentive.settled,
      woken_mono (fun epoch => (registered_lasting epoch).disturb e) attentive.woken⟩
  turn := fun attentive hStep => (attentive.turn hStep).1
  other := by
    intro i j p l q k move d σ attentive _ hStep
    have hLater : ∀ epoch, Signalled epoch σ.world → Signalled epoch d.2.world :=
      fun epoch hReg => (registered_lasting epoch).step (σ := σ.fork k) hReg hStep
    exact ⟨attentive.heeds, attentive.settled, woken_mono hLater attentive.woken⟩

/-- The state of a cancelled set whose loops are all attentive. -/
structure Hushed (count triggered : Nat) (d : Config scheduleSig Unit) : Prop where
  cancelled : d.2.world.cancelled = true
  triggered : d.2.world.triggered = triggered
  loops : Abreast (fun _ : Fin count => Attentive) count (fun _ => (.done () : ScheduleFuture Unit)) d ∨
    d.1 = .done ()

variable {count triggered : Nat} {d e : Config scheduleSig Unit}

/-- What goes on around the schedules neither takes a cancellation back nor counts a trigger. -/
theorem disturb_cancelled {w : ScheduleWorld} (hCancelled : w.cancelled = true)
    (disturbance : ScheduleDisturbance) :
    (scheduler.disturb disturbance w).cancelled = true ∧
      (scheduler.disturb disturbance w).triggered = w.triggered := by
  cases disturbance with
  | cancel => exact ⟨rfl, rfl⟩
  | _ => exact ⟨hCancelled, rfl⟩

/-- The turn of a loop of the hushed schedules changes nothing in the world, but it ends the loop,
as the notification is there. -/
theorem Hushed.branch (hushed : Hushed count triggered d) {index : Nat} {move : Move}
    (hChoose : scheduler.choose d (.turn (.branch index move)) = some e) :
    e.2.world = d.2.world ∧ ∀ p, ¬ LoopAt e.1 index p := by
  obtain ⟨p, σ⟩ := d
  obtain ⟨hCancelled, _, ⟨locs, branches, finished, rfl, hKept⟩ | rfl⟩ := hushed
  · obtain ⟨i, rfl, hRunning, c, hFirst, rfl⟩ := choose_branch hChoose
    obtain ⟨hDone, hWorld⟩ := ((hKept i hRunning).turn hFirst).2.ends hCancelled
    refine ⟨hWorld, fun p hLoop => ?_⟩
    obtain ⟨q, τ⟩ := c
    cases hDone
    rw [closeBranch] at hLoop
    generalize hIndex : i.val = index at hLoop
    cases hLoop with
    | @mk _ _ _ _ _ _ j hOther =>
        apply hOther
        rw [Fin.ext hIndex.symm]
        exact List.mem_map.mpr ⟨(i, some ()), List.mem_append_right _ List.mem_cons_self, rfl⟩
  · have hStep : scheduler.step (.done ()) (.branch index move) σ = some e := hChoose
    rw [scheduler.step_done] at hStep
    cases hStep

/-- A turn of the hushed schedules changes nothing of the world: each of them has ended or goes on
to its end, and joining them or losing one does not fire. -/
theorem Hushed.turn (hushed : Hushed count triggered d) {move : Move}
    (hChoose : scheduler.choose d (.turn move) = some e) : e.2.world = d.2.world := by
  obtain ⟨p, σ⟩ := d
  have hStep : scheduler.step p move σ = some e := hChoose
  rcases hushed.loops with ⟨locs, branches, finished, hPar, _⟩ | hDone
  · cases move with
    | branch index move => exact (hushed.branch hChoose).1
    | here =>
        rw [show p = _ from hPar, Handler.step] at hStep
        split at hStep <;> cases hStep
        rfl
    | crash index =>
        rw [show p = _ from hPar, Handler.step] at hStep
        split at hStep
        · split at hStep <;> cases hStep
          rfl
        · cases hStep
    | expire =>
        rw [show p = _ from hPar] at hStep
        cases hStep
    | inner move =>
        rw [show p = _ from hPar] at hStep
        cases hStep
  · rw [show p = _ from hDone, scheduler.step_done] at hStep
    cases hStep

/-- One choice of a run in which nothing fires any more keeps the count of triggers, -/
theorem Hushed.choose (hushed : Hushed count triggered d) {choice : scheduler.Choice}
    (hChoose : scheduler.choose d choice = some e) : Hushed count triggered e := by
  have hWorld : e.2.world.cancelled = true ∧ e.2.world.triggered = triggered := by
    cases choice with
    | env disturbance =>
        cases hChoose
        obtain ⟨hStill, hSame⟩ := disturb_cancelled hushed.cancelled disturbance
        exact ⟨hStill, hSame.trans hushed.triggered⟩
    | turn move =>
        rw [hushed.turn hChoose]
        exact ⟨hushed.cancelled, hushed.triggered⟩
  refine ⟨hWorld.1, hWorld.2, ?_⟩
  rcases hushed.loops with abreast | hDone
  · rcases abreast.choose attentive_common hChoose with hStill | ⟨_, finished, rfl⟩
    · exact Or.inl hStill
    · exact Or.inr rfl
  · obtain ⟨p, σ⟩ := d
    cases hDone
    cases choice with
    | env disturbance =>
        cases hChoose
        exact Or.inr rfl
    | turn move => cases (scheduler.step_done () move σ).symm.trans hChoose

/-- and so do all of them. -/
theorem Hushed.reaches (hushed : Hushed count triggered d) (reached : scheduler.Reaches d e) :
    Hushed count triggered e :=
  reached.induction (Hushed count triggered) hushed fun _ _ _ hKept hChoose => hKept.choose hChoose

/-- The notification of the cancellation is ready for a loop that is idle. -/
theorem Attentive.wakes {p : ScheduleFuture Unit} {σ : State scheduleSig}
    (attentive : Attentive (p, σ)) (hCancelled : σ.world.cancelled = true) (hIdle : Idle p) :
    ∃ c, scheduler.step p .here σ = some c := by
  have hWoken : ∀ {α : Type} (ready : Option α) {epoch : Nat}, Signalled epoch σ.world →
      ∃ r, σ.world.woken ready epoch = some r := by
    intro α ready epoch hRegistered
    have hPassed := hRegistered.2 hCancelled
    unfold ScheduleWorld.woken
    cases ready with
    | none => exact ⟨none, by simp [hPassed]⟩
    | some value => by_cases hFirst : σ.world.oracle.notifiedFirst = true <;> simp [hPassed, hFirst]
  unfold Idle at hIdle
  split at hIdle
  · rename_i duration epoch next
    obtain ⟨r, hReady⟩ := hWoken (if σ.world.oracle.timerReady then some () else none) attentive.woken
    have hPerform : scheduler.perform (.sleep duration epoch) σ = some (r.isNone, σ) := by
      show Option.map _ (σ.world.woken _ epoch) = _
      rw [hReady]
      rfl
    exact ⟨scheduler.advance (next r.isNone) σ, by rw [Handler.step, hPerform]; rfl⟩
  · rename_i epoch next
    obtain ⟨r, hReady⟩ := hWoken σ.world.oracle.event attentive.woken
    have hPerform : scheduler.perform (.receive epoch) σ =
        some (r, { σ with loc := σ.loc.hears r }) := by
      show Option.map _ (σ.world.woken _ epoch) = _
      rw [hReady]
      rfl
    exact ⟨scheduler.advance (next r) { σ with loc := σ.loc.hears r }, by rw [Handler.step, hPerform]; rfl⟩
  · exact hIdle.elim

/-- From there on the schedules are silent. -/
theorem Hushed.silent (hushed : Hushed count d.2.world.triggered d) : Silent d where
  count reached := (hushed.reaches reached).triggered
  ends reached hChoose := ((hushed.reaches reached).branch hChoose).2
  wakes := by
    intro e index p reached hLoop hIdle
    obtain ⟨q, σ⟩ := e
    obtain ⟨hCancelled, _, ⟨locs, branches, finished, rfl, hKept⟩ | rfl⟩ := hushed.reaches reached
    · cases hLoop with
      | @mk _ _ _ _ _ _ i hRunning =>
          obtain ⟨c, hStep⟩ := (hKept i hRunning).wakes hCancelled hIdle
          have hTurn : scheduler.step (branches i) .here (σ.fork (locs i)) = some c := hStep
          refine ⟨closeBranch σ count locs branches finished (fun _ => .done ()) i c, ?_⟩
          show scheduler.step (.par count count locs branches finished fun _ => .done ())
            (.branch i .here) σ = _
          rw [Handler.step, dif_pos i.isLt, if_neg hRunning, hTurn]
          rfl
    · cases hLoop

/-- A set of schedules that has just been started. -/
def beginSchedules (cron : CronEngine) (triggers : List ScheduleTrigger) (fuel : Nat) (clock : Int)
    (oracle : ScheduleOracle) : Config scheduleSig Unit :=
  scheduler.advance (startSchedules cron triggers fuel)
    ⟨.initial, (), { cancelled := false, notifications := 0, triggered := 0, clock, oracle }⟩

/-- In every run of a set of schedules, each of them is somewhere in its own loop. -/
theorem beginSchedules_kept {clock : Int} {oracle : ScheduleOracle} {c : Config scheduleSig Unit}
    (reached : scheduler.Reaches (beginSchedules cron triggers fuel clock oracle) c) :
    Abreast (LoopKept cron triggers fuel) triggers.length (fun _ => (.done () : ScheduleFuture Unit)) c ∨
      c.1 = .done () := by
  have hStart : Abreast (LoopKept cron triggers fuel) triggers.length
      (fun _ => (.done () : ScheduleFuture Unit))
      (beginSchedules cron triggers fuel clock oracle) := by
    refine ⟨_, _, _, rfl, fun i _ => ?_⟩
    have hAttentive : triggers[i].Checks → LoopKept cron triggers fuel i
        (runSchedule cron triggers[i] fuel, ⟨.initial, (),
          { cancelled := false, notifications := 0, triggered := 0, clock, oracle }⟩) := by
      intro hChecks
      exact Or.inr (Or.inl ⟨runSchedule_heeds cron hChecks fuel, fun _ => await_waits rfl, trivial⟩)
    rcases triggers[i].kinds with ⟨filters, hOn⟩ | ⟨delay, hAfter⟩ | hChecks
    · exact Or.inl ⟨filters, hOn⟩
    · exact Or.inr (Or.inr ⟨delay, hAfter, congrArg (runSchedule cron · fuel) hAfter⟩)
    · exact hAttentive hChecks
  rcases hStart.reaches loopKept_common reached with hAbreast | ⟨_, σ, hJoined⟩
  · exact Or.inl hAbreast
  · obtain ⟨w, _, hEq⟩ := Follows.done_cases (Reaches.follows hJoined)
    rw [hEq]
    exact Or.inr rfl

/-- The task of the loop has not been run yet. -/
def Unbegun : ScheduleFuture Unit → Prop
  | .act .spawned _ => True
  | _ => False

/-- A loop of the trigger for which a cancellation does not come too early. -/
def ScheduleTrigger.Past : ScheduleTrigger → ScheduleFuture Unit → Prop
  | .after _, p => ¬ Unbegun p
  | .onEvents _, _ => False
  | _, _ => True

/-- When every schedule is past its last look at the world, a cancellation silences them all. -/
theorem silent_of_past {clock : Int} {oracle : ScheduleOracle} {c : Config scheduleSig Unit}
    (reached : scheduler.Reaches (beginSchedules cron triggers fuel clock oracle) c)
    (hCancelled : c.2.world.cancelled = true)
    (hPast : ∀ (i : Fin triggers.length) p, LoopAt c.1 i p → triggers[i].Past p) : Silent c := by
  apply @Hushed.silent triggers.length
  refine ⟨hCancelled, rfl, (beginSchedules_kept reached).imp_left ?_⟩
  obtain ⟨q, σ⟩ := c
  rintro ⟨locs, branches, finished, rfl, hKept⟩
  refine ⟨locs, branches, finished, rfl, fun i hRunning => ?_⟩
  have hLoop := hPast i (branches i) (.mk hRunning)
  rcases hKept i hRunning with ⟨filters, hOn⟩ | attentive | ⟨delay, hAfter, hStart⟩
  · rw [hOn] at hLoop
    exact hLoop.elim
  · exact attentive
  · rw [hAfter, show branches i = _ from hStart] at hLoop
    exact absurd trivial hLoop

/-- One that checks in every round is never past it. -/
theorem ScheduleTrigger.Checks.past {trigger : ScheduleTrigger} (hChecks : trigger.Checks)
    (p : ScheduleFuture Unit) : trigger.Past p := by
  cases trigger with
  | onEvents filters => exact hChecks.elim
  | after delay => exact hChecks.elim
  | every interval => trivial
  | cron expression => trivial

/-- What a loop does that is run for the first time after the cancellation. -/
def FiresLate (cron : CronEngine) (trigger : ScheduleTrigger) (oracle : ScheduleOracle) : Prop :=
  ∀ {σ : State scheduleSig}, σ.world.oracle = oracle →
    ∃ c, scheduler.Reaches (runSchedule cron trigger 1, σ) c ∧ c.1.value? = none ∧
      c.2.world.triggered = σ.world.triggered + 1

/-- A schedule after a delay fires although it was cancelled in the meantime: its sleep is not cut
short. -/
theorem after_firesLate (delay : Nat) (oracle : ScheduleOracle) :
    FiresLate cron (.after delay) oracle := by
  intro σ _
  have hTurn : scheduler.choose (runSchedule cron (.after delay) 1, σ) (.turn .here) =
      some (.act (.run .null) _, counted σ) := congrArg some (advance_fire .null _ σ)
  exact ⟨_, .head hTurn (.refl _ _), rfl, rfl⟩

/-- Every list of filters matches some event. -/
theorem exists_eventMatches (filters : List EventMessageLike) :
    ∃ event, eventMatches event filters = true := by
  cases filters with
  | nil => exact ⟨(CloudEvent.new "" "" "").toMessage, rfl⟩
  | cons like rest =>
      refine ⟨(CloudEvent.new "" (like.source.getD "") like.type).toMessage, ?_⟩
      have hSource : (like.source.all fun s => s == like.source.getD "") = true := by
        cases like.source <;> simp
      simp [eventMatches, CloudEvent.new, CloudEvent.toMessage, hSource]

/-- A schedule on events that has been spawned waits for its first event. -/
theorem advance_receive (next : Option (Option EventMessage) → ScheduleFuture Unit)
    (σ : State scheduleSig) :
    scheduler.advance (askSchedule .notified >>= fun epoch => askSchedule (.receive epoch) >>= next) σ =
      (.act (.receive σ.world.notifications) next, σ) := by
  have hRegister : scheduler.perform .notified σ = some (σ.world.notifications, σ) := rfl
  have hTurn := scheduler.advance_act_sync (fun epoch => askSchedule (.receive epoch) >>= next) rfl
    hRegister
  have hWait : scheduler.mode (.receive σ.world.notifications) ≠ .sync := await_waits rfl
  have hReceive : scheduler.advance (.act (.receive σ.world.notifications) next) σ =
      (.act (.receive σ.world.notifications) next, σ) := scheduler.advance_act_of_ne _ σ hWait
  exact hTurn.trans hReceive

/-- When the event comes after the cancellation, it fires all the same. -/
theorem onEvents_firesLate {filters : List EventMessageLike} {event : EventMessage}
    (hMatches : eventMatches event filters = true) (oracle : ScheduleOracle)
    (hSubscribe : oracle.subscribe = .ok ()) (hEvent : oracle.event = some (some event)) :
    FiresLate cron (.onEvents filters) oracle := by
  rintro σ rfl
  have hFirst : scheduler.choose (runSchedule cron (.onEvents filters) 1, σ) (.turn .here) =
      some (.act .subscribe _, σ) := congrArg some (scheduler.advance_act_of_ne _ σ (await_waits rfl))
  have hSubscribed : scheduler.perform .subscribe σ = some (.ok (), σ) := by
    rw [← hSubscribe]
    rfl
  have hReceived : scheduler.perform (.receive σ.world.notifications) σ =
      some (some (some event), { σ with loc := σ.loc.hears (some (some event)) }) := by
    show (σ.world.woken σ.world.oracle.event σ.world.notifications).map _ = _
    rw [hEvent]
    simp [ScheduleWorld.woken]
  have hMatched : scheduler.advance (onWoken filters (eventLoop filters 0) (some (some event)))
      { σ with loc := σ.loc.hears (some (some event)) } =
      (.act (.run (.array [eventEnvelope event])) fun _ => eventLoop filters 0,
        counted { σ with loc := σ.loc.hears (some (some event)) }) := by
    rw [onWoken, if_pos hMatches, advance_fire]
  have hLoop : scheduler.advance (eventLoop filters 1) σ =
      (.act (.receive σ.world.notifications) (onWoken filters (eventLoop filters 0)), σ) :=
    advance_receive (onWoken filters (eventLoop filters 0)) σ
  have hSecond : ∀ next : Except WorkflowError Unit → ScheduleFuture Unit,
      next (.ok ()) = eventLoop filters 1 →
        scheduler.choose (.act .subscribe next, σ) (.turn .here) =
          some (scheduler.advance (eventLoop filters 1) σ) := by
    intro next hNext
    show (scheduler.perform .subscribe σ).map (fun r => scheduler.advance (next r.1) r.2) = _
    rw [hSubscribed, ← hNext]
    rfl
  have hThird : ∀ next : Option (Option EventMessage) → ScheduleFuture Unit,
      scheduler.choose (.act (.receive σ.world.notifications) next, σ) (.turn .here) =
        some (scheduler.advance (next (some (some event)))
          { σ with loc := σ.loc.hears (some (some event)) }) := by
    intro next
    show (scheduler.perform (.receive σ.world.notifications) σ).map
      (fun r => scheduler.advance (next r.1) r.2) = _
    rw [hReceived]
    rfl
  have hReached : scheduler.Reaches (scheduler.advance (eventLoop filters 1) σ)
      (.act (.run (.array [eventEnvelope event])) fun _ => eventLoop filters 0,
        counted { σ with loc := σ.loc.hears (some (some event)) }) := by
    rw [hLoop]
    exact Reaches.head ((hThird _).trans (congrArg some hMatched)) (.refl _ _)
  exact ⟨_, Reaches.head hFirst (Reaches.head (hSecond _ rfl) hReached), rfl, rfl⟩

/-- A loop that does not check the flag before it fires may fire after the cancellation. -/
theorem not_silent {trigger : ScheduleTrigger} (hTrigger : trigger ∈ triggers)
    {oracle : ScheduleOracle} (firesLate : FiresLate cron trigger oracle) :
    ∃ c, scheduler.Reaches (beginSchedules cron triggers 1 0 oracle) c ∧
      c.2.world.cancelled = true ∧ ¬ Silent c := by
  obtain ⟨index, hIndex, rfl⟩ := List.getElem_of_mem hTrigger
  let w : ScheduleWorld :=
    { cancelled := true, notifications := 1, triggered := 0, clock := 0, oracle }
  have hCancel : scheduler.choose (beginSchedules cron triggers 1 0 oracle) (.env .cancel) =
      some (startSchedules cron triggers 1, ⟨.initial, (), w⟩) := rfl
  obtain ⟨c, hAlone, hWaits, hFired⟩ := @firesLate ⟨.initial, (), w⟩ rfl
  obtain ⟨d, hReached, hWorld⟩ := @reaches_branch scheduleSig scheduler Unit Unit triggers.length
    triggers.length (fun _ => .done ()) (fun _ => .initial)
    (fun i => runSchedule cron triggers[i] 1) [] ⟨.initial, (), w⟩ ⟨index, hIndex⟩ c
    List.not_mem_nil hAlone hWaits
  refine ⟨_, Reaches.head hCancel (.refl _ _), rfl, fun silent => ?_⟩
  have hCount := silent.count hReached
  rw [hWorld, hFired] at hCount
  cases hCount

end Sets

/-- In every run of a set of schedules its cancellation is the end of all firing, and of every
loop that is idle or ends its firing, exactly if no schedule of the set is an `after` or an
`on` one. In a set with such schedules this still holds from a cancellation on at which the
former have all begun and the latter have all ended. -/
theorem scheduleSilent_iff (triggers : List ScheduleTrigger) :
    ((∀ cron fuel clock oracle c,
      scheduler.Reaches (beginSchedules cron triggers fuel clock oracle) c →
        c.2.world.cancelled = true → Silent c) ↔ ∀ t ∈ triggers, t.Checks) ∧
    ∀ cron fuel clock oracle c,
      scheduler.Reaches (beginSchedules cron triggers fuel clock oracle) c →
        c.2.world.cancelled = true →
          (∀ (i : Fin triggers.length) p, LoopAt c.1 i p → triggers[i].Past p) → Silent c := by
  refine ⟨⟨?_, ?_⟩, fun _ _ _ _ _ reached => silent_of_past reached⟩
  · intro hSilent t hTrigger
    have hNever : ∀ {oracle}, FiresLate ⟨fun _ => .ok fun _ => none⟩ t oracle → False := by
      intro oracle firesLate
      obtain ⟨c, reached, hCancelled, hLoud⟩ := not_silent hTrigger firesLate
      exact hLoud (hSilent _ _ _ _ c reached hCancelled)
    rcases t.kinds with ⟨filters, rfl⟩ | ⟨delay, rfl⟩ | hChecks
    · obtain ⟨event, hMatches⟩ := exists_eventMatches filters
      exact (hNever (onEvents_firesLate hMatches
        { timerReady := false, subscribe := .ok (), event := some (some event)
          notifiedFirst := false, execution := none } rfl rfl)).elim
    · exact (hNever (after_firesLate delay
        { timerReady := false, subscribe := .ok (), event := none, notifiedFirst := false
          execution := none })).elim
    · exact hChecks
  · intro hChecks cron fuel clock oracle c reached hCancelled
    apply silent_of_past reached hCancelled
    exact fun i p _ => (hChecks triggers[i] (List.getElem_mem i.isLt)).past p

/-- An oracle that has an event for everybody who waits for one. -/
def busyOracle : ScheduleOracle :=
  { timerReady := false, subscribe := .ok (), event := some (some (CloudEvent.new "1" "a" "b").toMessage)
    notifiedFirst := false, execution := some (.ok .null) }

/-- The turns of the only loop of a set. -/
def turns (count : Nat) : List scheduler.Choice := List.replicate count (.turn (.branch 0 .here))

/-- An `on` schedule that is cancelled while it fires misses the notification, and fires on
the next event too. -/
theorem onEvents_fires_again :
    ∃ c d, scheduler.Reaches (beginSchedules ⟨fun _ => .ok fun _ => none⟩ [.onEvents []] 2 0
      busyOracle) c ∧ c.2.world.cancelled = true ∧ scheduler.Reaches c d ∧
        c.2.world.triggered = 1 ∧ d.2.world.triggered = 2 := by
  have hCancelled : (scheduler.run (beginSchedules ⟨fun _ => .ok fun _ => none⟩ [.onEvents []] 2 0
      busyOracle) (turns 3 ++ [.env .cancel])).map
        (fun c => (c.2.world.cancelled, c.2.world.triggered)) = some (true, 1) := by decide +kernel
  have hAgain : (scheduler.run (beginSchedules ⟨fun _ => .ok fun _ => none⟩ [.onEvents []] 2 0
      busyOracle) ((turns 3 ++ [.env .cancel]) ++ turns 2)).map (fun d => d.2.world.triggered) =
        some 2 := by decide +kernel
  obtain ⟨c, hReached, hAt⟩ := Option.map_eq_some_iff.mp hCancelled
  obtain ⟨d, hLater, hCount⟩ := Option.map_eq_some_iff.mp hAgain
  rw [run_append, hReached] at hLater
  obtain ⟨hFlag, hOnce⟩ := Prod.mk.inj hAt
  exact ⟨c, d, ⟨_, hReached⟩, hFlag, ⟨_, hLater⟩, hOnce, hCount⟩

end OwsRuntime
