import OwsRuntime.Async.Machine

/-! Invariants of asynchronous programs. A discipline says what must hold when
a request is performed, and how the storage may move while a task waits. A
program which is safe for a discipline keeps its invariant in every run, with
every choice of turns, timers and acts of the environment. -/
namespace Async

open Program

/-- What a family of programs agrees on. `inv` is about the shared storage,
`locInv` about the storage of one task; `relS` and `relW` say how shared storage
and world may move, and `pre` is owed by whoever makes a request. -/
structure Discipline {sig : Signature} (h : Handler sig) where
  inv : sig.Shared → Prop
  locInv : sig.Local → sig.Shared → Prop
  relS : sig.Shared → sig.Shared → Prop
  relW : sig.World → sig.World → Prop
  pre : sig.Act → State sig → Prop
  relS_refl : ∀ s, relS s s
  relS_trans : ∀ {s t u}, relS s t → relS t u → relS s u
  relW_refl : ∀ w, relW w w
  relW_trans : ∀ {v w x}, relW v w → relW w x → relW v x
  locInv_mono : ∀ {l s t}, locInv l s → relS s t → locInv l t
  env_ok : ∀ e w, relW w (h.disturb e w)
  act_ok : ∀ {a σ reply σ'}, inv σ.shared → locInv σ.loc σ.shared → pre a σ →
    h.perform a σ = some (reply, σ') →
    relS σ.shared σ'.shared ∧ relW σ.world σ'.world ∧ inv σ'.shared ∧ locInv σ'.loc σ'.shared
  sync_ok : ∀ {a σ}, h.mode a = .sync → inv σ.shared → locInv σ.loc σ.shared → pre a σ →
    (h.perform a σ).isSome

namespace Discipline

variable {sig : Signature} {h : Handler sig} (D : Discipline h) {α β γ : Type}

/-- The invariant of a task and of the region it runs in. -/
structure Good (σ : State sig) : Prop where
  inv : D.inv σ.shared
  locInv : D.locInv σ.loc σ.shared

/-- The storage has moved as the discipline allows. Nothing is said of `loc`. -/
structure Moved (σ τ : State sig) : Prop where
  shared : D.relS σ.shared τ.shared
  world : D.relW σ.world τ.world
  inv : D.inv τ.shared

/-- What a task finds after it has waited: its own storage is untouched. -/
def Later (σ τ : State sig) : Prop := τ.loc = σ.loc ∧ D.Moved σ τ

/-- The states in which a request issued in `σ` may be performed. -/
def Meets (a : sig.Act) (σ τ : State sig) : Prop :=
  if h.mode a = .sync then τ = σ else D.Later σ τ

/-- The program keeps the discipline from this state on, and returns only values
and states with `Q`. -/
def Safe {α : Type} : Program sig α → (α → State sig → Prop) → State sig → Prop
  | done value, Q, σ => Q value σ
  | act a next, Q, σ => ∀ τ, D.Meets a σ τ →
      D.pre a τ ∧ ∀ reply τ', h.perform a τ = some (reply, τ') → Safe (next reply) Q τ'
  | race _ body next, Q, σ =>
      Safe body (fun b τ => Safe (next (some b)) Q τ) σ ∧
        ∀ τ, D.Moved σ τ → D.locInv τ.loc τ.shared → Safe (next none) Q τ
  | region loc shared body next, Q, σ =>
      D.Good (σ.enter loc shared) ∧
        Safe body (fun b inner => ∀ τ, D.Later σ τ → τ.world = inner.world → Safe (next b) Q τ)
          (σ.enter loc shared)
  | par _ _ locs branches finished next, Q, σ =>
      (∀ i, i ∉ finished.map Prod.fst → D.locInv (locs i) σ.shared ∧ h.Waiting (branches i) ∧
        ∀ τ, D.Moved σ τ → Safe (branches i) (fun _ _ => True) (τ.fork (locs i))) ∧
      ∀ fin τ, D.Later σ τ → Safe (next fin) Q τ

variable {D}

theorem Moved.refl {σ : State sig} (hInv : D.inv σ.shared) : D.Moved σ σ :=
  ⟨D.relS_refl _, D.relW_refl _, hInv⟩

theorem Moved.trans {σ τ υ : State sig} (first : D.Moved σ τ) (second : D.Moved τ υ) :
    D.Moved σ υ :=
  ⟨D.relS_trans first.shared second.shared, D.relW_trans first.world second.world, second.inv⟩

theorem Later.refl {σ : State sig} (hInv : D.inv σ.shared) : D.Later σ σ := ⟨rfl, Moved.refl hInv⟩

theorem Later.trans {σ τ υ : State sig} (first : D.Later σ τ) (second : D.Later τ υ) :
    D.Later σ υ :=
  ⟨second.1.trans first.1, first.2.trans second.2⟩

theorem Later.good {σ τ : State sig} (hGood : D.Good σ) (later : D.Later σ τ) : D.Good τ := by
  refine ⟨later.2.inv, ?_⟩
  rw [later.1]
  exact D.locInv_mono hGood.locInv later.2.shared

theorem Moved.of_perform {a : sig.Act} {σ τ : State sig} {reply : sig.Resp a} (hGood : D.Good σ)
    (hPre : D.pre a σ) (hPerform : h.perform a σ = some (reply, τ)) : D.Moved σ τ ∧ D.Good τ := by
  obtain ⟨hShared, hWorld, hInv, hLoc⟩ := D.act_ok hGood.inv hGood.locInv hPre hPerform
  exact ⟨⟨hShared, hWorld, hInv⟩, hInv, hLoc⟩

theorem Meets.later {a : sig.Act} {σ τ : State sig} (hGood : D.Good σ) (meets : D.Meets a σ τ) :
    D.Later σ τ := by
  unfold Meets at meets
  split at meets
  · subst meets
    exact Later.refl hGood.inv
  · exact meets

theorem Safe.mono {p : Program sig α} {Q R : α → State sig → Prop} {σ : State sig}
    (safe : D.Safe p Q σ) (hQR : ∀ value τ, Q value τ → R value τ) : D.Safe p R σ := by
  induction p generalizing σ with
  | done value => exact hQR value σ safe
  | act a next ih =>
      intro τ meets
      obtain ⟨hPre, hNext⟩ := safe τ meets
      exact ⟨hPre, fun reply τ' hPerform => ih reply (hNext reply τ' hPerform) hQR⟩
  | race alarm body next ihBody ih =>
      refine ⟨ihBody safe.1 fun b τ hNext => ih (some b) hNext hQR, fun τ hMoved hLoc => ?_⟩
      exact ih none (safe.2 τ hMoved hLoc) hQR
  | region loc shared body next ihBody ih =>
      refine ⟨safe.1, ihBody safe.2 fun b inner hNext τ later hWorld => ?_⟩
      exact ih b (hNext τ later hWorld) hQR
  | par count need locs branches finished next _ ih =>
      exact ⟨safe.1, fun fin τ later => ih fin (safe.2 fin τ later) hQR⟩

/-- Weaken the condition on returned values, which may use that the storage
has moved as allowed and that the invariants still hold. -/
theorem Safe.weaken {p : Program sig α} {Q R : α → State sig → Prop} {σ : State sig}
    (hGood : D.Good σ) (safe : D.Safe p Q σ)
    (hQR : ∀ value τ, Q value τ → D.Moved σ τ → D.Good τ → R value τ) : D.Safe p R σ := by
  induction p generalizing σ with
  | done value => exact hQR value σ safe (Moved.refl hGood.inv) hGood
  | act a next ih =>
      intro τ meets
      obtain ⟨hPre, hNext⟩ := safe τ meets
      refine ⟨hPre, fun reply τ' hPerform => ?_⟩
      have later := meets.later hGood
      obtain ⟨moved, good⟩ := Moved.of_perform (later.good hGood) hPre hPerform
      exact ih reply good (hNext reply τ' hPerform) fun value υ hQ hMoved hGood' =>
        hQR value υ hQ ((later.2.trans moved).trans hMoved) hGood'
  | race alarm body next ihBody ih =>
      refine ⟨ihBody hGood safe.1 ?_, fun τ hMoved hLoc => ?_⟩
      · intro b τ hNext moved good
        exact ih (some b) good hNext fun value υ hQ hMoved hGood' =>
          hQR value υ hQ (moved.trans hMoved) hGood'
      · exact ih none ⟨hMoved.inv, hLoc⟩ (safe.2 τ hMoved hLoc) fun value υ hQ hMoved' hGood' =>
          hQR value υ hQ (hMoved.trans hMoved') hGood'
  | region loc shared body next ihBody ih =>
      refine ⟨safe.1, ihBody safe.1 safe.2 ?_⟩
      intro b inner hNext _ _ τ later hWorld
      exact ih b (later.good hGood) (hNext τ later hWorld) fun value υ hQ hMoved hGood' =>
        hQR value υ hQ (later.2.trans hMoved) hGood'
  | par count need locs branches finished next _ ih =>
      refine ⟨safe.1, fun fin τ later => ?_⟩
      exact ih fin (later.good hGood) (safe.2 fin τ later) fun value υ hQ hMoved hGood' =>
        hQR value υ hQ (later.2.trans hMoved) hGood'

/-- The rule of sequential composition. -/
theorem Safe.bind {p : Program sig α} {f : α → Program sig β} {Q : β → State sig → Prop}
    {σ : State sig} (safe : D.Safe p (fun value τ => D.Safe (f value) Q τ) σ) :
    D.Safe (p.bind f) Q σ := by
  induction p generalizing σ with
  | done value => exact safe
  | act a next ih =>
      intro τ meets
      obtain ⟨hPre, hNext⟩ := safe τ meets
      exact ⟨hPre, fun reply τ' hPerform => ih reply (hNext reply τ' hPerform)⟩
  | race alarm body next _ ih =>
      refine ⟨safe.1.mono fun b τ hNext => ih (some b) hNext, ?_⟩
      exact fun τ hMoved hLoc => ih none (safe.2 τ hMoved hLoc)
  | region loc shared body next _ ih =>
      refine ⟨safe.1, safe.2.mono fun b inner hNext τ later hWorld => ?_⟩
      exact ih b (hNext τ later hWorld)
  | par count need locs branches finished next _ ih =>
      exact ⟨safe.1, fun fin τ later => ih fin (safe.2 fin τ later)⟩

/-- Composition, with what is known of the state in between. -/
theorem Safe.seq {p : Program sig α} {f : α → Program sig β} {R : α → State sig → Prop}
    {Q : β → State sig → Prop} {σ : State sig} (hGood : D.Good σ) (first : D.Safe p R σ)
    (second : ∀ value τ, R value τ → D.Moved σ τ → D.Good τ → D.Safe (f value) Q τ) :
    D.Safe (p.bind f) Q σ :=
  (first.weaken hGood second).bind

/-- A request of the program's own turn. -/
theorem Safe.sync {a : sig.Act} {next : sig.Resp a → Program sig α} {Q : α → State sig → Prop}
    {σ : State sig} (hMode : h.mode a = .sync) (hPre : D.pre a σ)
    (hNext : ∀ reply τ, h.perform a σ = some (reply, τ) → D.Safe (next reply) Q τ) :
    D.Safe (act a next) Q σ := by
  intro τ meets
  rw [Meets, if_pos hMode] at meets
  subst meets
  exact ⟨hPre, hNext⟩

/-- A request before which other tasks may run. -/
theorem Safe.await {a : sig.Act} {next : sig.Resp a → Program sig α} {Q : α → State sig → Prop}
    {σ : State sig} (hGood : D.Good σ) (hPre : ∀ τ, D.Later σ τ → D.pre a τ)
    (hNext : ∀ τ, D.Later σ τ → D.Good τ → ∀ reply τ', h.perform a τ = some (reply, τ') →
      D.Safe (next reply) Q τ') :
    D.Safe (act a next) Q σ := by
  intro τ meets
  have later := meets.later hGood
  exact ⟨hPre τ later, hNext τ later (later.good hGood)⟩

/-- A program that waits stays safe while the storage moves as the discipline allows, since its
safety already speaks of every later state. -/
theorem Safe.later {p : Program sig α} {Q : α → State sig → Prop} {σ τ : State sig}
    (hGood : D.Good σ) (waiting : h.Waiting p) (safe : D.Safe p Q σ) (later : D.Later σ τ) :
    D.Safe p Q τ := by
  induction p generalizing σ τ with
  | done value => exact waiting.elim
  | act a next _ =>
      intro υ meets
      refine safe υ ?_
      rw [Meets, if_neg waiting] at meets ⊢
      exact later.trans meets
  | race alarm body next ihBody _ =>
      exact ⟨ihBody hGood waiting safe.1 later, fun υ hMoved hLoc =>
        safe.2 υ (later.2.trans hMoved) hLoc⟩
  | region loc shared body next ihBody _ =>
      have inside : D.Later (σ.enter loc shared) (τ.enter loc shared) :=
        ⟨rfl, D.relS_refl _, later.2.world, safe.1.inv⟩
      refine ⟨⟨safe.1.inv, safe.1.locInv⟩, ?_⟩
      refine (ihBody safe.1 waiting safe.2 inside).mono fun b inner hNext υ hLater hWorld => ?_
      exact hNext υ (later.trans hLater) hWorld
  | par count need locs branches finished next _ _ =>
      refine ⟨fun i hi => ?_, fun fin υ hLater => safe.2 fin υ (later.trans hLater)⟩
      obtain ⟨hLoc, hWaiting, hBranch⟩ := safe.1 i hi
      exact ⟨D.locInv_mono hLoc later.2.shared, hWaiting, fun υ hMoved =>
        hBranch υ (later.2.trans hMoved)⟩

variable (D)

/-- A configuration between two turns which the discipline accounts for. -/
structure Keeps (Q : α → State sig → Prop) (c : Config sig α) : Prop where
  good : D.Good c.2
  safe : D.Safe c.1 Q c.2
  settled : c.1.value?.isSome ∨ h.Waiting c.1

variable {D}

theorem Keeps.waiting {Q : α → State sig → Prop} {c : Config sig α} (keeps : D.Keeps Q c)
    (hRunning : c.1.value? = none) : h.Waiting c.1 := by
  rcases keeps.settled with hDone | hWaiting
  · simp [hRunning] at hDone
  · exact hWaiting

theorem Keeps.post {Q : α → State sig → Prop} {c : Config sig α} (keeps : D.Keeps Q c)
    {value : α} (hDone : c.1.value? = some value) : Q value c.2 := by
  have safe := keeps.safe
  rw [eq_done_of_value? hDone] at safe
  exact safe

/-- A race that goes on keeps the alarm over its program, and one that is over goes on with the
value, or with none where the alarm came first; it is safe in each case. -/
private theorem closeRace_keeps {alarm : sig.Alarm} {next : Option β → Program sig α}
    {Q : α → State sig → Prop} {σ : State sig} {c : Config sig β}
    (keeps : D.Keeps (fun b τ => D.Safe (next (some b)) Q τ) c) (moved : D.Moved σ c.2)
    (hExpire : ∀ τ, D.Moved σ τ → D.locInv τ.loc τ.shared → D.Safe (next none) Q τ)
    (hNext : ∀ b τ, D.Good τ → D.Safe (next (some b)) Q τ →
      D.Keeps Q (h.advance (next (some b)) τ) ∧ D.Moved τ (h.advance (next (some b)) τ).2) :
    D.Keeps Q (h.closeRace alarm next c) ∧
      D.Moved σ (h.closeRace alarm next c).2 := by
  cases hDone : c.1.value? with
  | none =>
      simp only [Handler.closeRace, hDone]
      refine ⟨⟨keeps.good, ⟨keeps.safe, fun τ hMoved hLoc => ?_⟩, ?_⟩, moved⟩
      · exact hExpire τ (moved.trans hMoved) hLoc
      · exact Or.inr (keeps.waiting hDone)
  | some b =>
      simp only [Handler.closeRace, hDone]
      obtain ⟨hKeeps, hMoved⟩ := hNext b c.2 keeps.good (keeps.post hDone)
      exact ⟨hKeeps, moved.trans hMoved⟩

/-- A region that is left gives the world back to the program around it, with the storage that it
had before; so the program is safe there if it was so at every later state. -/
private theorem closeRegion_keeps {loc : sig.Local} {shared : sig.Shared}
    {next : β → Program sig α} {Q : α → State sig → Prop} {σ : State sig} {c : Config sig β}
    (hGood : D.Good σ)
    (keeps : D.Keeps
      (fun b inner => ∀ τ, D.Later σ τ → τ.world = inner.world → D.Safe (next b) Q τ) c)
    (moved : D.Moved (σ.enter loc shared) c.2)
    (hNext : ∀ b τ, D.Good τ → D.Safe (next b) Q τ →
      D.Keeps Q (h.advance (next b) τ) ∧ D.Moved τ (h.advance (next b) τ).2) :
    D.Keeps Q (h.closeRegion σ next c) ∧ D.Moved σ (h.closeRegion σ next c).2 := by
  have later : D.Later σ (σ.leave c.2) := ⟨rfl, D.relS_refl _, moved.world, hGood.inv⟩
  cases hDone : c.1.value? with
  | none =>
      simp only [Handler.closeRegion, hDone]
      refine ⟨⟨later.good hGood, ⟨keeps.good, ?_⟩, Or.inr (keeps.waiting hDone)⟩, later.2⟩
      exact keeps.safe.mono fun b inner hSafe τ hLater hWorld =>
        hSafe τ (later.trans hLater) hWorld
  | some b =>
      simp only [Handler.closeRegion, hDone]
      obtain ⟨hKeeps, hMoved⟩ :=
        hNext b (σ.leave c.2) (later.good hGood) (keeps.post hDone _ later rfl)
      exact ⟨hKeeps, later.2.trans hMoved⟩

/-- What a program does up to its next suspension point keeps the discipline. -/
theorem Safe.advance {p : Program sig α} {Q : α → State sig → Prop} {σ : State sig}
    (hGood : D.Good σ) (safe : D.Safe p Q σ) :
    D.Keeps Q (h.advance p σ) ∧ D.Moved σ (h.advance p σ).2 := by
  induction p generalizing σ with
  | done value => exact ⟨⟨hGood, safe, Or.inl rfl⟩, Moved.refl hGood.inv⟩
  | act a next ih =>
      by_cases hMode : h.mode a = .sync
      · obtain ⟨hPre, hNext⟩ := safe σ (by rw [Meets, if_pos hMode])
        obtain ⟨⟨reply, τ⟩, hPerform⟩ :=
          Option.isSome_iff_exists.mp (D.sync_ok hMode hGood.inv hGood.locInv hPre)
        obtain ⟨moved, good⟩ := Moved.of_perform hGood hPre hPerform
        rw [h.advance_act_sync next hMode hPerform]
        obtain ⟨keeps, hMoved⟩ := ih reply good (hNext reply τ hPerform)
        exact ⟨keeps, moved.trans hMoved⟩
      · rw [h.advance_act_of_ne next σ hMode]
        exact ⟨⟨hGood, safe, Or.inr hMode⟩, Moved.refl hGood.inv⟩
  | race alarm body next ihBody ih =>
      obtain ⟨keeps, moved⟩ := ihBody hGood safe.1
      rw [h.advance_race]
      exact closeRace_keeps keeps moved safe.2 fun b τ good hNext => ih (some b) good hNext
  | region loc shared body next ihBody ih =>
      obtain ⟨keeps, moved⟩ := ihBody safe.1 safe.2
      rw [h.advance_region]
      exact closeRegion_keeps hGood keeps moved fun b τ good hNext => ih b good hNext
  | par count need locs branches finished next _ _ =>
      exact ⟨⟨hGood, safe, Or.inr fun i hi => (safe.1 i hi).2.1⟩, Moved.refl hGood.inv⟩

/-- After the turn of a branch the program is as safe as it was before: the other branches have not
moved, and what the branch did was allowed for all of them. -/
private theorem closeBranch_keeps {count need : Nat} {locs : Fin count → sig.Local}
    {branches : Fin count → Program sig β} {finished : List (Fin count × Option β)}
    {next : List (Fin count × Option β) → Program sig α} {Q : α → State sig → Prop}
    {σ : State sig} {i : Fin count} {c : Config sig β} (hGood : D.Good σ)
    (safe : D.Safe (par count need locs branches finished next) Q σ)
    (keeps : D.Keeps (fun _ _ => True) c) (moved : D.Moved σ c.2) :
    D.Keeps Q (Handler.closeBranch σ need locs branches finished next i c) ∧
      D.Moved σ (Handler.closeBranch σ need locs branches finished next i c).2 := by
  have later : D.Later σ (c.2.fork σ.loc) := ⟨rfl, moved.shared, moved.world, moved.inv⟩
  have hBranches : ∀ finished' : List (Fin count × Option β),
      (∀ j, j ∈ finished.map Prod.fst → j ∈ finished'.map Prod.fst) →
      (c.1.value?.isSome → i ∈ finished'.map Prod.fst) →
      D.Safe (par count need (Function.update locs i c.2.loc) (Function.update branches i c.1)
        finished' next) Q (c.2.fork σ.loc) := by
    intro finished' hMore hDone
    refine ⟨fun j hj => ?_, fun fin τ hLater => safe.2 fin τ (later.trans hLater)⟩
    by_cases hji : j = i
    · subst hji
      have hWaiting : h.Waiting c.1 := keeps.waiting (by
        cases hValue : c.1.value? with
        | none => rfl
        | some b => exact absurd (hDone (by simp [hValue])) hj)
      rw [Function.update_self, Function.update_self]
      refine ⟨keeps.good.locInv, hWaiting, fun τ hMoved => ?_⟩
      exact keeps.safe.later keeps.good hWaiting ⟨rfl, hMoved.shared, hMoved.world, hMoved.inv⟩
    · rw [Function.update_of_ne hji, Function.update_of_ne hji]
      obtain ⟨hLoc, hWaiting, hBranch⟩ := safe.1 j fun hOld => hj (hMore j hOld)
      exact ⟨D.locInv_mono hLoc moved.shared, hWaiting, fun τ hMoved =>
        hBranch τ (moved.trans ⟨hMoved.shared, hMoved.world, hMoved.inv⟩)⟩
  unfold Handler.closeBranch
  cases hValue : c.1.value? with
  | none =>
      have safe' := hBranches finished (fun j hj => hj) (by simp [hValue])
      exact ⟨⟨later.good hGood, safe', Or.inr fun j hj => (safe'.1 j hj).2.1⟩, later.2⟩
  | some b =>
      have safe' := hBranches (finished ++ [(i, some b)]) (by simp +contextual) (by simp)
      exact ⟨⟨later.good hGood, safe', Or.inr fun j hj => (safe'.1 j hj).2.1⟩, later.2⟩

/-- A turn of a program with branches keeps the discipline when the turns of each branch do. The
branches are joined, one of them takes a turn, or one of them is lost. -/
theorem Keeps.step_par {count need : Nat} {locs : Fin count → sig.Local}
    {branches : Fin count → Program sig β} {finished : List (Fin count × Option β)}
    {next : List (Fin count × Option β) → Program sig α} {Q : α → State sig → Prop} {move : Move}
    {σ : State sig} {d : Config sig α}
    (keeps : D.Keeps Q (par count need locs branches finished next, σ))
    (hTurn : ∀ (i : Fin count) {move : Move} {τ : State sig} {c : Config sig β},
      D.Keeps (fun _ _ => True) (branches i, τ) → h.step (branches i) move τ = some c →
        D.Keeps (fun _ _ => True) c ∧ D.Moved τ c.2)
    (hStep : h.step (par count need locs branches finished next) move σ = some d) :
    D.Keeps Q d ∧ D.Moved σ d.2 := by
  cases move with
  | here =>
      simp only [Handler.step, Option.ite_none_right_eq_some, Option.some.injEq] at hStep
      obtain ⟨_, rfl⟩ := hStep
      exact (keeps.safe.2 finished σ (Later.refl keeps.good.inv)).advance keeps.good
  | branch index move =>
      simp only [Handler.step] at hStep
      split at hStep
      · rename_i bound
        split at hStep
        · cases hStep
        · rename_i hRunning
          obtain ⟨c, hBranch, rfl⟩ := Option.map_eq_some_iff.mp hStep
          obtain ⟨hLoc, hWaiting, hSafe⟩ := keeps.safe.1 ⟨index, bound⟩ hRunning
          have good : D.Good (σ.fork (locs ⟨index, bound⟩)) := ⟨keeps.good.inv, hLoc⟩
          obtain ⟨hKeeps, hMoved⟩ := hTurn ⟨index, bound⟩
            ⟨good, hSafe σ (Moved.refl keeps.good.inv), Or.inr hWaiting⟩ hBranch
          exact closeBranch_keeps keeps.good keeps.safe hKeeps
            ⟨hMoved.shared, hMoved.world, hMoved.inv⟩
      · cases hStep
  | crash index =>
      simp only [Handler.step] at hStep
      split at hStep
      · rename_i bound
        split at hStep
        · cases hStep
        · rw [Option.some.injEq] at hStep
          subst hStep
          have safe := keeps.safe
          have hBranches : ∀ (i j : Fin count) (b : Option _),
              j ∉ (finished ++ [(i, b)]).map Prod.fst → j ∉ finished.map Prod.fst := by
            intro i j b hj hOld
            exact hj (by rw [List.map_append]; exact List.mem_append_left _ hOld)
          refine ⟨⟨keeps.good, ⟨fun j hj => safe.1 j (hBranches _ j _ hj), safe.2⟩, ?_⟩,
            Moved.refl keeps.good.inv⟩
          exact Or.inr fun j hj => (safe.1 j (hBranches _ j _ hj)).2.1
      · cases hStep
  | _ => simp [Handler.step] at hStep

/-- Every turn keeps the discipline, and leads only where the program may move to. The induction is
on the program: a request is answered, a race elapses, or a part of the program takes the turn. -/
theorem Keeps.step {Q : α → State sig → Prop} {p : Program sig α} {move : Move} {σ : State sig}
    {d : Config sig α} (keeps : D.Keeps Q (p, σ)) (hStep : h.step p move σ = some d) :
    D.Keeps Q d ∧ D.Moved σ d.2 := by
  induction p generalizing move σ with
  | done value => simp [h.step_done] at hStep
  | act a next _ =>
      have hMode : h.mode a ≠ .sync := keeps.waiting rfl
      obtain ⟨hPre, hNext⟩ := keeps.safe σ
        (by rw [Meets, if_neg hMode]; exact Later.refl keeps.good.inv)
      cases move with
      | here =>
          simp only [Handler.step, Option.map_eq_some_iff] at hStep
          obtain ⟨⟨reply, τ⟩, hPerform, rfl⟩ := hStep
          obtain ⟨moved, good⟩ := Moved.of_perform keeps.good hPre hPerform
          obtain ⟨hKeeps, hMoved⟩ := (hNext reply τ hPerform).advance good
          exact ⟨hKeeps, moved.trans hMoved⟩
      | _ => simp [Handler.step] at hStep
  | race alarm body next ihBody _ =>
      cases move with
      | expire =>
          simp only [Handler.step, Option.ite_none_right_eq_some, Option.some.injEq] at hStep
          obtain ⟨_, rfl⟩ := hStep
          have hNone := keeps.safe.2 σ (Moved.refl keeps.good.inv) keeps.good.locInv
          exact hNone.advance keeps.good
      | inner move =>
          simp only [Handler.step, Option.map_eq_some_iff] at hStep
          obtain ⟨c, hBody, rfl⟩ := hStep
          have hWaiting : h.Waiting body := keeps.waiting rfl
          obtain ⟨hKeeps, hMoved⟩ :=
            ihBody ⟨keeps.good, keeps.safe.1, Or.inr hWaiting⟩ hBody
          exact closeRace_keeps hKeeps hMoved keeps.safe.2 fun b τ good safe =>
            safe.advance good
      | _ => simp [Handler.step] at hStep
  | region loc shared body next ihBody _ =>
      cases move with
      | inner move =>
          simp only [Handler.step, Option.map_eq_some_iff] at hStep
          obtain ⟨c, hBody, rfl⟩ := hStep
          have hWaiting : h.Waiting body := keeps.waiting rfl
          obtain ⟨hKeeps, hMoved⟩ :=
            ihBody ⟨keeps.safe.1, keeps.safe.2, Or.inr hWaiting⟩ hBody
          exact closeRegion_keeps keeps.good hKeeps hMoved fun b τ good safe => safe.advance good
      | _ => simp [Handler.step] at hStep
  | par count need locs branches finished next ihBranch _ =>
      exact keeps.step_par (fun i _ _ _ hKeeps hTurn => ihBranch i hKeeps hTurn) hStep

/-- The invariants hold in every state of every run, and every state is one the
first may move to. -/
theorem Keeps.reaches {Q : α → State sig → Prop} {c d : Config sig α} (keeps : D.Keeps Q c)
    (hStable : ∀ value σ τ, Q value σ → D.Later σ τ → Q value τ) (reached : h.Reaches c d) :
    D.Keeps Q d ∧ D.Moved c.2 d.2 := by
  refine reached.induction (fun e => D.Keeps Q e ∧ D.Moved c.2 e.2)
    ⟨keeps, Moved.refl keeps.good.inv⟩ ?_
  rintro ⟨p, σ⟩ choice e ⟨hKeeps, hMoved⟩ hChoose
  cases choice with
  | env act =>
      simp only [Handler.choose, Option.some.injEq] at hChoose
      subst hChoose
      have later : D.Later σ (σ.mapWorld (h.disturb act)) :=
        ⟨rfl, D.relS_refl _, D.env_ok act _, hKeeps.good.inv⟩
      refine ⟨⟨later.good hKeeps.good, ?_, hKeeps.settled⟩, hMoved.trans later.2⟩
      rcases hKeeps.settled with hDone | hWaiting
      · obtain ⟨value, hValue⟩ := Option.isSome_iff_exists.mp hDone
        have hDoneEq : p = done value := eq_done_of_value? hValue
        subst hDoneEq
        exact hStable value _ _ (hKeeps.post hValue) later
      · exact hKeeps.safe.later hKeeps.good hWaiting later
  | turn move =>
      obtain ⟨hNext, moved⟩ := hKeeps.step hChoose
      exact ⟨hNext, hMoved.trans moved⟩

/-- The invariant holds of every region under way, not only of the outermost. -/
theorem Safe.regions {p : Program sig α} {Q : α → State sig → Prop} {σ : State sig}
    (hGood : D.Good σ) (safe : D.Safe p Q σ) : p.AllRegions D.inv := by
  induction p generalizing σ with
  | done value => trivial
  | act a next _ => trivial
  | race alarm body next ihBody _ => exact ihBody hGood safe.1
  | region loc shared body next ihBody _ => exact ⟨safe.1.inv, ihBody safe.1 safe.2⟩
  | par count need locs branches finished next ihBranch _ =>
      intro i hi
      obtain ⟨hLoc, _, hSafe⟩ := safe.1 i hi
      have good : D.Good (σ.fork (locs i)) := ⟨hGood.inv, hLoc⟩
      exact ihBranch i good (hSafe σ (Moved.refl hGood.inv))

end Discipline
end Async
