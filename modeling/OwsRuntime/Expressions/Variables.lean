import OwsRuntime.Expressions.Eval

/-! The variables of an expression. Its value depends on no others. -/
namespace OwsRuntime
namespace Jq

mutual

/-- Whether a variable stands in an expression, also within the strings and the keys in it. -/
def Expr.mentions (name : String) : Expr → Bool
  | .identity => false
  | .field base _ => base.mentions name
  | .index base idx => base.mentions name || idx.mentions name
  | .iterate base => base.mentions name
  | .var x => x == name
  | .literal _ => false
  | .str parts => partsMention name parts
  | .binary _ l r => l.mentions name || r.mentions name
  | .unary _ inner => inner.mentions name
  | .pipe l r => l.mentions name || r.mentions name
  | .array elems => exprsMention name elems
  | .object entries => entriesMention name entries
  | .if_ cond then_ else_ => cond.mentions name || then_.mentions name || else_.mentions name
  | .call _ args => exprsMention name args
  | .stream parts => exprsMention name parts

def exprsMention (name : String) : List Expr → Bool
  | [] => false
  | e :: rest => e.mentions name || exprsMention name rest

def partMentions (name : String) : InterpPart → Bool
  | .literal _ => false
  | .expr e => e.mentions name

def partsMention (name : String) : List InterpPart → Bool
  | [] => false
  | part :: rest => partMentions name part || partsMention name rest

def keyMentions (name : String) : ObjKey → Bool
  | .ident _ => false
  | .str _ => false
  | .computed e => e.mentions name

def entriesMention (name : String) : List (ObjKey × Expr) → Bool
  | [] => false
  | (key, e) :: rest => keyMentions name key || e.mentions name || entriesMention name rest

end

/-- The two maps give the same values to the variables that are meant. -/
def SameOn (mentioned : String → Bool) (v w : Map) : Prop :=
  ∀ name, mentioned name = true → v.lookup name = w.lookup name

theorem SameOn.left {f g : String → Bool} {v w : Map} (agree : SameOn (fun x => f x || g x) v w) :
    SameOn f v w := fun name hName => agree name (Bool.or_eq_true_iff.mpr (Or.inl hName))

theorem SameOn.right {f g : String → Bool} {v w : Map} (agree : SameOn (fun x => f x || g x) v w) :
    SameOn g v w := fun name hName => agree name (Bool.or_eq_true_iff.mpr (Or.inr hName))

section Coincidence

variable (platform : Platform) {v w : Map}

mutual

/-- The value of an expression depends on the variables in it alone. -/
theorem eval_congr : ∀ e : Expr, SameOn (e.mentions ·) v w → eval platform v e = eval platform w e
  | .identity, _ => rfl
  | .field base name, agree => by rw [eval, eval, eval_congr base agree]
  | .index base idx, agree => by
      rw [eval, eval, eval_congr base agree.left, eval_congr idx agree.right]
  | .iterate base, agree => by rw [eval, eval, eval_congr base agree]
  | .var name, agree => by rw [eval, eval, agree name (beq_self_eq_true name)]
  | .literal _, _ => rfl
  | .str parts, agree => by rw [eval, eval, evalString_congr parts agree]
  | .binary op l r, agree => by
      rw [eval, eval, eval_congr l agree.left, eval_congr r agree.right]
  | .unary op inner, agree => by rw [eval, eval, eval_congr inner agree]
  | .pipe l r, agree => by rw [eval, eval, eval_congr l agree.left, eval_congr r agree.right]
  | .array elems, agree => by rw [eval, eval, evalAll_congr elems agree]
  | .object entries, agree => by rw [eval, eval, evalEntries_congr entries agree]
  | .if_ cond then_ else_, agree => by
      rw [eval, eval, eval_congr cond agree.left.left, eval_congr then_ agree.left.right,
        eval_congr else_ agree.right]
  | .call name args, agree => by rw [eval, eval, evalArgs_congr args agree]
  | .stream parts, agree => by rw [eval, eval, evalAll_congr parts agree]

theorem evalAll_congr : ∀ elems : List Expr, SameOn (exprsMention · elems) v w →
    evalAll platform v elems = evalAll platform w elems
  | [], _ => rfl
  | e :: rest, agree => by
      rw [evalAll, evalAll, eval_congr e agree.left, evalAll_congr rest agree.right]

theorem evalArgs_congr : ∀ args : List Expr, SameOn (exprsMention · args) v w →
    evalArgs platform v args = evalArgs platform w args
  | [], _ => rfl
  | e :: rest, agree => by
      rw [evalArgs, evalArgs, eval_congr e agree.left, evalArgs_congr rest agree.right]

theorem evalString_congr : ∀ parts : List InterpPart, SameOn (partsMention · parts) v w →
    evalString platform v parts = evalString platform w parts
  | [], _ => rfl
  | part :: rest, agree => by
      rw [evalString, evalString, evalPart_congr part agree.left, evalString_congr rest agree.right]

theorem evalPart_congr : ∀ part : InterpPart, SameOn (partMentions · part) v w →
    evalPart platform v part = evalPart platform w part
  | .literal _, _ => rfl
  | .expr e, agree => by rw [evalPart, evalPart, eval_congr e agree]

theorem evalEntries_congr : ∀ entries : List (ObjKey × Expr), SameOn (entriesMention · entries) v w →
    evalEntries platform v entries = evalEntries platform w entries
  | [], _ => rfl
  | (key, e) :: rest, agree => by
      rw [evalEntries, evalEntries, evalKey_congr key agree.left.left, eval_congr e agree.left.right,
        evalEntries_congr rest agree.right]

theorem evalKey_congr : ∀ key : ObjKey, SameOn (keyMentions · key) v w →
    evalKey platform v key = evalKey platform w key
  | .ident _, _ => rfl
  | .str _, _ => rfl
  | .computed e, agree => by rw [evalKey, evalKey, eval_congr e agree]

end

end Coincidence

end Jq
end OwsRuntime
