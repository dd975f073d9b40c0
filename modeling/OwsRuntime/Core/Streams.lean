import Mathlib.Data.List.Basic

/-! Streams that a computation may fail to produce. A filter takes a value to such
a stream, and filters compose as the arrows of a category. -/
namespace Streams

variable {ε α β γ δ : Type}

/-- The streams of some values, one after the other. The first failure is the result. -/
def collect (f : α → Except ε (List β)) : List α → Except ε (List β)
  | [] => .ok []
  | a :: rest => do
      let first ← f a
      let more ← collect f rest
      return first ++ more

/-- One result for each value. -/
def each (f : α → Except ε β) : List α → Except ε (List β) := collect fun a => (f a).map ([·])

/-- One filter after another. -/
def andThen (f : α → Except ε (List β)) (g : β → Except ε (List γ)) (a : α) :
    Except ε (List γ) :=
  f a >>= collect g

/-- Either both fail, or the results are equal. -/
def Agree (x y : Except ε α) : Prop := x.toOption = y.toOption

@[simp] theorem collect_nil (f : α → Except ε (List β)) : collect f [] = .ok [] := rfl

theorem collect_cons (f : α → Except ε (List β)) (a : α) (rest : List α) :
    collect f (a :: rest) =
      (f a >>= fun first => collect f rest >>= fun more => .ok (first ++ more)) := rfl

/-- Collecting from two lists one after the other is collecting from both, and fails with the first
error of the first list that has one. -/
theorem collect_append (f : α → Except ε (List β)) (xs ys : List α) :
    collect f (xs ++ ys) =
      (collect f xs >>= fun first => collect f ys >>= fun more => .ok (first ++ more)) := by
  induction xs with
  | nil =>
      rw [List.nil_append, collect_nil]
      show collect f ys = collect f ys >>= fun more => .ok ([] ++ more)
      cases collect f ys <;> rfl
  | cons a rest ih =>
      rw [List.cons_append, collect_cons, collect_cons, ih]
      cases f a with
      | error e => rfl
      | ok first =>
          cases collect f rest with
          | error e => rfl
          | ok middle =>
              cases collect f ys with
              | error e => rfl
              | ok more => exact congrArg Except.ok (List.append_assoc first middle more).symm

/-- Values that stand for themselves. -/
theorem collect_pure (xs : List α) : collect (fun a => (.ok [a] : Except ε (List α))) xs = .ok xs := by
  induction xs with
  | nil => rfl
  | cons a rest ih =>
      rw [collect_cons, ih]
      rfl

theorem collect_singleton (f : α → Except ε (List β)) (a : α) : collect f [a] = f a := by
  rw [collect_cons, collect_nil]
  cases f a with
  | error e => rfl
  | ok first => exact congrArg Except.ok (List.append_nil first)

theorem each_cons (f : α → Except ε β) (a : α) (rest : List α) :
    each f (a :: rest) = (f a >>= fun first => each f rest >>= fun more => .ok (first :: more)) := by
  rw [each, collect_cons]
  cases f a <;> rfl

section Agreement

variable {x y z : Except ε α}

theorem Agree.refl (x : Except ε α) : Agree x x := Eq.refl _

theorem Agree.symm (agree : Agree x y) : Agree y x := Eq.symm agree

theorem Agree.trans (first : Agree x y) (second : Agree y z) : Agree x z := Eq.trans first second

theorem Agree.bind {f g : α → Except ε β} (first : Agree x y) (next : ∀ a, Agree (f a) (g a)) :
    Agree (x >>= f) (y >>= g) := by
  cases x with
  | error e =>
      cases y with
      | error e' => rfl
      | ok b => cases first
  | ok a =>
      cases y with
      | error e => cases first
      | ok b =>
          injection first with h
          subst h
          exact next a

end Agreement

/-- Where the parts of a stream go through a filter one by one, other failures may come
first than where the whole stream does. The results are the same. -/
theorem collect_andThen (f : α → Except ε (List β)) (g : β → Except ε (List γ)) (xs : List α) :
    Agree (collect (andThen f g) xs) (collect f xs >>= collect g) := by
  induction xs with
  | nil => rfl
  | cons a rest ih =>
      rw [collect_cons, collect_cons, andThen]
      cases f a with
      | error e => rfl
      | ok first =>
          have hSplit : Agree ((collect f rest >>= fun more => .ok (first ++ more)) >>= collect g)
              (collect g first >>= fun begun => (collect f rest >>= collect g) >>= fun more =>
                .ok (begun ++ more)) := by
            cases collect f rest with
            | error e =>
                cases collect g first with
                | error e' => rfl
                | ok begun => rfl
            | ok more => exact congrArg Except.toOption (collect_append g first more)
          refine Agree.trans ?_ hSplit.symm
          exact (Agree.refl (collect g first)).bind fun begun => ih.bind fun more => Agree.refl _

/-- Composition is associative. -/
theorem andThen_assoc (f : α → Except ε (List β)) (g : β → Except ε (List γ))
    (h : γ → Except ε (List δ)) (a : α) :
    Agree (andThen (andThen f g) h a) (andThen f (andThen g h) a) := by
  rw [andThen, andThen, andThen]
  cases f a with
  | error e => rfl
  | ok stream => exact (collect_andThen g h stream).symm

/-- A filter that yields its input is a unit on the left, and on the right. -/
theorem pure_andThen (f : α → Except ε (List β)) (a : α) :
    andThen (fun a => .ok [a]) f a = f a := collect_singleton f a

theorem andThen_pure (f : α → Except ε (List β)) (a : α) :
    andThen f (fun b => .ok [b]) a = f a := by
  rw [andThen]
  cases f a with
  | error e => rfl
  | ok stream => exact collect_pure stream

end Streams
