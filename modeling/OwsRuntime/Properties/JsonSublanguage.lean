import OwsRuntime.Expressions.Depth
import OwsRuntime.Expressions.JsonText

/-! JSON texts are expressions, which have the values that they are the texts of. -/
namespace OwsRuntime
namespace Jq

variable {platform : Platform} {v : Value}

/-- The compact text of a JSON value is accepted, and has that value only. -/
theorem json_sublanguage (integral : Integral v) :
    ∃ e, parse platform (v.display platform.jsonFloat) = .ok e ∧
      ∀ vars input, eval platform vars e input = .ok [v] := by
  obtain ⟨tokens, e, hMeans⟩ := @Integral.means platform v integral
  have hLexes := hMeans.lexes [] follows_nil
  have hLength := String.length_toList (s := v.display platform.jsonFloat)
  have hTakes := hMeans.takes (v.display platform.jsonFloat).length .eof (by omega)
    (Or.inr (Or.inr (Or.inr rfl)))
  rw [List.append_nil] at hLexes
  exact ⟨e, parse_of_takes hMeans.noEof hLexes (Or.inl rfl) (hTakes.expr (by nofun)), hMeans.value⟩

/-- A value with every kind of escape in it. -/
def escapes : Value :=
  .object [("a", .array [.number (.int (-1)), .bool true, .null]), ("b\n", .string "\\(\"/")]

theorem integral_escapes : Integral escapes := by
  refine .object (by decide) (List.forall_mem_cons.mpr ⟨.array ?_, List.forall_mem_singleton.mpr ?_⟩)
  · exact List.forall_mem_cons.mpr ⟨.int (by decide), List.forall_mem_cons.mpr
      ⟨.bool true, List.forall_mem_singleton.mpr .null⟩⟩
  · exact .string _

/-- Also one whose strings are written with escapes. -/
theorem json_sublanguage_escapes : ∃ e,
    parse (.ascii true) (escapes.display (Platform.ascii true).jsonFloat) = .ok e ∧
      ∀ vars input, eval (.ascii true) vars e input = .ok [escapes] :=
  json_sublanguage integral_escapes

end Jq
end OwsRuntime
