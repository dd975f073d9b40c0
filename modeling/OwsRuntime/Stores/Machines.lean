import Mathlib.Data.List.Defs

/-! Machines which answer one input after another, and machines which imitate them: they give
the same answers, up to what the answers look like. -/
namespace Machines

variable {σ τ ι ο π ε : Type}

/-- The answers to a sequence of inputs. -/
def outputs (step : σ → ι → σ × ο) (s : σ) : List ι → List ο
  | [] => []
  | input :: rest => (step s input).2 :: outputs step (step s input).1 rest

/-- What relates a machine to one which imitates it, for the inputs that are admitted. -/
structure Imitation (step : σ → ι → σ × ο) (imitated : τ → ι → τ × π) (look : π → ο) where
  rel : τ → σ → Prop
  admits : ι → Prop
  answer : ∀ {t s input}, rel t s → admits input → (step s input).2 = look (imitated t input).2
  next : ∀ {t s input}, rel t s → admits input → rel (imitated t input).1 (step s input).1

variable {step : σ → ι → σ × ο} {imitated : τ → ι → τ × π} {look : π → ο}

/-- All answers of an imitation are those of the machine that it imitates. -/
theorem Imitation.outputs_eq (imitation : Imitation step imitated look) {t : τ} {s : σ}
    (hRel : imitation.rel t s) {inputs : List ι}
    (hAdmits : ∀ input ∈ inputs, imitation.admits input) :
    outputs step s inputs = (outputs imitated t inputs).map look := by
  induction inputs generalizing t s with
  | nil => rfl
  | cons input rest ih =>
      have hFirst := hAdmits input List.mem_cons_self
      have hRest := ih (imitation.next hRel hFirst) fun later hLater =>
        hAdmits later (List.mem_cons_of_mem _ hLater)
      rw [outputs, outputs, List.map_cons, imitation.answer hRel hFirst, hRest]

section Guards

/-- A machine behind a guard with a state of its own. An input that the guard refuses does not
reach the machine. -/
def guarded (guard : σ → ι → σ × Except ε Unit) (step : τ → ι → τ × Except ε π) (s : τ × σ)
    (input : ι) : (τ × σ) × Except ε π :=
  match guard s.2 input with
  | (g, .ok ()) => (((step s.1 input).1, g), (step s.1 input).2)
  | (g, .error e) => ((s.1, g), .error e)

/-- What relates a machine to one which imitates it behind a guard: it fails as the guard does,
and imitates the other one otherwise. Its state is that of the guard. -/
structure GuardedImitation (step : σ → ι → σ × Except ε ο) (guard : σ → ι → σ × Except ε Unit)
    (imitated : τ → ι → τ × Except ε π) (look : π → ο) where
  rel : τ → σ → Prop
  admits : ι → Prop
  refused : ∀ {t s input g e}, guard s input = (g, .error e) → rel t s →
    step s input = (g, .error e) ∧ rel t g
  accepted : ∀ {t s input g}, guard s input = (g, .ok ()) → rel t s → admits input →
    step s input = (g, (imitated t input).2.map look) ∧ rel (imitated t input).1 g

variable {step : σ → ι → σ × Except ε ο} {guard : σ → ι → σ × Except ε Unit}
  {imitated : τ → ι → τ × Except ε π} {look : π → ο}

/-- One input: the guard refuses it, and so does the machine, or both machines answer it. -/
theorem GuardedImitation.answered (guardedImitation : GuardedImitation step guard imitated look)
    {t : τ} {s : σ} {input : ι} (hRel : guardedImitation.rel t s)
    (hAdmits : guardedImitation.admits input) :
    ∃ t' g answer, guarded guard imitated (t, s) input = ((t', g), answer) ∧
      step s input = (g, answer.map look) ∧ guardedImitation.rel t' g := by
  rw [guarded]
  cases hGuard : guard s input with
  | mk g verdict =>
      cases verdict with
      | error e =>
          obtain ⟨hStep, hNext⟩ := guardedImitation.refused hGuard hRel
          exact ⟨t, g, .error e, rfl, hStep, hNext⟩
      | ok done =>
          obtain ⟨hStep, hNext⟩ := guardedImitation.accepted hGuard hRel hAdmits
          exact ⟨_, g, _, rfl, hStep, hNext⟩

/-- The machine behind the guard is imitated, refusals included. -/
def GuardedImitation.imitation (guardedImitation : GuardedImitation step guard imitated look) :
    Imitation step (guarded guard imitated) (Except.map look) where
  rel t s := t.2 = s ∧ guardedImitation.rel t.1 s
  admits := guardedImitation.admits
  answer := by
    rintro ⟨t, s⟩ _ input ⟨rfl, hRel⟩ hAdmits
    obtain ⟨t', g, answer, hGuarded, hStep, _⟩ := guardedImitation.answered hRel hAdmits
    rw [hGuarded, hStep]
  next := by
    rintro ⟨t, s⟩ _ input ⟨rfl, hRel⟩ hAdmits
    obtain ⟨t', g, answer, hGuarded, hStep, hNext⟩ := guardedImitation.answered hRel hAdmits
    rw [hGuarded, hStep]
    exact ⟨rfl, hNext⟩

end Guards

section Writing

variable {ρ μ : Type} {encoded : Except ε ρ} {send : ρ → σ × Except μ Unit} {tell : μ → ε}
  {s s' : σ} {e : ε}

/-- Sends to a server what was encoded, if it was, and tells of a failure of the server. -/
def write (encoded : Except ε ρ) (send : ρ → σ × Except μ Unit) (tell : μ → ε) (s : σ) :
    σ × Except ε Unit :=
  match encoded with
  | .ok written => (send written).map id (·.mapError tell)
  | .error e => (s, .error e)

theorem write_ok (hWrite : write encoded send tell s = (s', .ok ())) :
    ∃ written, encoded = .ok written ∧ send written = (s', .ok ()) := by
  cases encoded with
  | error failure => cases hWrite
  | ok written =>
      refine ⟨written, rfl, ?_⟩
      obtain ⟨hState, hReply⟩ := Prod.mk.inj hWrite
      cases hSent : send written with
      | mk state reply =>
          rw [hSent] at hState hReply
          cases hState
          cases reply with
          | error message => cases hReply
          | ok done => rfl

/-- What has not been written has not reached the server, or the server has failed. -/
theorem write_error (hWrite : write encoded send tell s = (s', .error e)) :
    s' = s ∨ ∃ written message, send written = (s', .error message) := by
  cases encoded with
  | error failure =>
      cases hWrite
      exact Or.inl rfl
  | ok written =>
      obtain ⟨hState, hReply⟩ := Prod.mk.inj hWrite
      cases hSent : send written with
      | mk state reply =>
          rw [hSent] at hState hReply
          cases hState
          cases reply with
          | error message => exact Or.inr ⟨written, message, hSent⟩
          | ok done => cases hReply

end Writing

end Machines
