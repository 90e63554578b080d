import MappedQuery.Sql.Text

/-!
# What writing comes to

Writing an expression, a condition or a statement notes the values that are bound to it and gives
its text. Both are functions of what is written: the values do not depend on how they are marked,
nor the text on the values that were noted before.
-/
namespace MappedQuery.Sql

/-- Notes values and gives a result. -/
def noting {α : Type} (ps : List Cell) (a : α) : Writing α := fun noted => (a, noted ++ ps)

/-- Writing after values were noted. -/
def Writing.after {α : Type} (ps : List Cell) (w : Writing α) : Writing α :=
  fun noted => w (noted ++ ps)

section Notes

variable {α β : Type} (ps qs : List Cell) (a : α)

theorem pure_eq_noting : (pure a : Writing α) = noting [] a := by
  funext noted
  change (a, noted) = (a, noted ++ [])
  rw [List.append_nil]

theorem noting_bind (f : α → Writing β) : (noting ps a >>= f) = (f a).after ps := rfl

theorem after_noting : (noting qs a).after ps = noting (ps ++ qs) a := by
  funext noted
  change (a, noted ++ ps ++ qs) = (a, noted ++ (ps ++ qs))
  rw [List.append_assoc]

end Notes

section Texts

-- how the place of a bound value is marked
variable (mark : Cell → String)

mutual

def Expression.text : Expression → String
  | .column c => c.text
  | .parameter c => mark c
  | .lower e => "LOWER(" ++ e.text ++ ")"
  | .compare op left right => left.text ++ " " ++ op.text ++ " " ++ right.text
  | .isIn _ [] => "1=0"
  | .isIn e (c :: cs) =>
    e.text ++ " IN (" ++ String.intercalate "," (Expression.texts (c :: cs)) ++ ")"
  | .isNull e => e.text ++ " IS NULL"
  | .isNotNull e => e.text ++ " IS NOT NULL"
  | .condition c => c.text

def Expression.texts : List Expression → List String
  | [] => []
  | e :: rest => e.text :: Expression.texts rest

def Condition.text : Condition → String
  | .and left right => "(" ++ left.text ++ " AND " ++ right.text ++ ")"
  | .or left right => "(" ++ left.text ++ " OR " ++ right.text ++ ")"
  | .not e => "(NOT " ++ e.text ++ ")"
  | .single e => e.text
  | .always => "1=1"
  | .never => "1=0"

end

def Join.text (j : Join) : String := "LEFT JOIN " ++ j.table.text ++ " ON " ++ j.on.text mark

namespace Statement

def columnsText (s : Statement) : String :=
  if s.columns.isEmpty then "*" else String.intercalate ", " (Expression.texts mark s.columns)

def conditionTexts (s : Statement) : List String :=
  (s.condition?.map fun c => "WHERE " ++ c.text mark).toList

def orderTexts (s : Statement) : List String :=
  if s.order.isEmpty then []
  else
    let keys := Expression.texts mark s.order
    ["ORDER BY " ++ String.intercalate ", " (keys.map (· ++ " ASC"))]

def clauses (s : Statement) : List String :=
  ["SELECT", s.columnsText mark] ++ (s.table?.map fun t => "FROM " ++ t.text).toList ++
    s.joins.map (Join.text mark) ++ s.conditionTexts mark ++ s.orderTexts mark

def text (s : Statement) : String := String.intercalate " " (s.clauses mark)

end Statement

end Texts

mutual

/-- The values that are bound to an expression. -/
def Expression.parameters : Expression → List Cell
  | .column _ => []
  | .parameter c => [c]
  | .lower e => e.parameters
  | .compare _ left right => left.parameters ++ right.parameters
  | .isIn _ [] => []
  | .isIn e (c :: cs) => e.parameters ++ Expression.parametersAll (c :: cs)
  | .isNull e => e.parameters
  | .isNotNull e => e.parameters
  | .condition c => c.parameters

def Expression.parametersAll : List Expression → List Cell
  | [] => []
  | e :: rest => e.parameters ++ Expression.parametersAll rest

def Condition.parameters : Condition → List Cell
  | .and left right => left.parameters ++ right.parameters
  | .or left right => left.parameters ++ right.parameters
  | .not e => e.parameters
  | .single e => e.parameters
  | .always => []
  | .never => []

end

namespace Statement

def conditionParameters (s : Statement) : List Cell :=
  (s.condition?.map Condition.parameters).getD []

/-- The values that are bound to a statement. -/
def parameters (s : Statement) : List Cell :=
  Expression.parametersAll s.columns ++ (s.joins.flatMap (·.on.parameters) ++
    (s.conditionParameters ++ Expression.parametersAll s.order))

end Statement

section Writing

variable (mark : Cell → String)

mutual

/-- Writing an expression notes its parameters and gives its text. -/
theorem Expression.write_eq : ∀ e : Expression, e.write mark = noting e.parameters (e.text mark)
  | .column c => pure_eq_noting c.text
  | .parameter c => rfl
  | .lower e | .isNull e | .isNotNull e => by
    simp only [Expression.write, Expression.text, Expression.parameters, Expression.write_eq e,
      noting_bind, pure_eq_noting, after_noting, List.append_nil]
  | .compare op left right => by
    simp only [Expression.write, Expression.text, Expression.parameters, Expression.write_eq left,
      Expression.write_eq right, noting_bind, pure_eq_noting, after_noting, List.append_nil]
  | .isIn _ [] => pure_eq_noting "1=0"
  | .isIn e (c :: cs) => by
    simp only [Expression.write, Expression.text, Expression.parameters, Expression.write_eq e,
      Expression.writeAll_eq (c :: cs), noting_bind, pure_eq_noting, after_noting,
      List.append_nil]
  | .condition c => by
    simp only [Expression.write, Expression.text, Expression.parameters, Condition.write_eq c]

theorem Expression.writeAll_eq : ∀ es : List Expression,
    Expression.writeAll mark es = noting (Expression.parametersAll es) (Expression.texts mark es)
  | [] => pure_eq_noting []
  | e :: rest => by
    simp only [Expression.writeAll, Expression.texts, Expression.parametersAll,
      Expression.write_eq e, Expression.writeAll_eq rest, noting_bind, pure_eq_noting,
      after_noting, List.append_nil]

theorem Condition.write_eq : ∀ c : Condition, c.write mark = noting c.parameters (c.text mark)
  | .and left right | .or left right => by
    simp only [Condition.write, Condition.text, Condition.parameters, Expression.write_eq left,
      Expression.write_eq right, noting_bind, pure_eq_noting, after_noting, List.append_nil]
  | .not e => by
    simp only [Condition.write, Condition.text, Condition.parameters, Expression.write_eq e,
      noting_bind, pure_eq_noting, after_noting, List.append_nil]
  | .single e => by
    simp only [Condition.write, Condition.text, Condition.parameters, Expression.write_eq e]
  | .always => pure_eq_noting "1=1"
  | .never => pure_eq_noting "1=0"

end

theorem Join.write_eq (j : Join) : j.write mark = noting j.on.parameters (j.text mark) := by
  simp only [Join.write, Join.text, Condition.write_eq, noting_bind, pure_eq_noting, after_noting,
    List.append_nil]

theorem Join.writeAll_eq : ∀ js : List Join, js.mapM (Join.write mark) =
    noting (js.flatMap (·.on.parameters)) (js.map (Join.text mark))
  | [] => pure_eq_noting []
  | j :: rest => by
    simp only [List.mapM_cons, Join.write_eq, Join.writeAll_eq rest, noting_bind, pure_eq_noting,
      after_noting, List.append_nil, List.flatMap_cons, List.map_cons]

namespace Statement

theorem writeColumns_eq (s : Statement) :
    s.writeColumns mark = noting (Expression.parametersAll s.columns) (s.columnsText mark) := by
  unfold writeColumns columnsText
  cases s.columns with
  | nil => exact pure_eq_noting "*"
  | cons e rest =>
    simp only [List.isEmpty_cons, Bool.false_eq_true, if_false, Expression.writeAll_eq,
      noting_bind, pure_eq_noting, after_noting, List.append_nil]

theorem writeCondition_eq (s : Statement) :
    s.writeCondition mark = noting s.conditionParameters (s.conditionTexts mark) := by
  unfold writeCondition conditionParameters conditionTexts
  cases s.condition? with
  | none => exact pure_eq_noting []
  | some c =>
    simp only [Condition.write_eq, noting_bind, pure_eq_noting, after_noting, List.append_nil]
    rfl

theorem writeOrder_eq (s : Statement) :
    s.writeOrder mark = noting (Expression.parametersAll s.order) (s.orderTexts mark) := by
  unfold writeOrder orderTexts
  cases s.order with
  | nil => exact pure_eq_noting []
  | cons e rest =>
    simp only [List.isEmpty_cons, Bool.false_eq_true, if_false, Expression.writeAll_eq,
      noting_bind, pure_eq_noting, after_noting, List.append_nil]

theorem write_eq (s : Statement) : s.write mark = noting s.parameters (s.text mark) := by
  simp only [write, text, clauses, parameters, writeColumns_eq, Join.writeAll_eq,
    writeCondition_eq, writeOrder_eq, noting_bind, pure_eq_noting, after_noting, List.append_nil,
    List.append_assoc]

theorem run_write (s : Statement) : (s.write mark).run [] = (s.text mark, s.parameters) := by
  rw [write_eq]
  rfl

end Statement

end Writing

theorem toList_placeholder (c : Cell) : (placeholder c).toList = ['?'] := by
  rw [placeholder]
  decide

/-! ## Quoted names -/

/-- The back quote. -/
def quote : Char := Char.ofNat 96

/-- The characters of a name, its quotes written twice. -/
def escape (cs : List Char) : List Char := cs.flatMap fun c => if c = quote then [c, c] else [c]

section Escape

variable {c : Char} {cs : List Char}

theorem escape_quote (h : c = quote) : escape (c :: cs) = quote :: quote :: escape cs := by
  rw [escape, List.flatMap_cons, if_pos h, h]
  rfl

theorem escape_of_ne (h : c ≠ quote) : escape (c :: cs) = c :: escape cs := by
  rw [escape, List.flatMap_cons, if_neg h]
  rfl

end Escape

theorem toNat_eq_iff (c : Char) : c.toNat = 96 ↔ c = quote := by
  rw [← Char.toNat_inj]
  rfl

theorem toList_quoteName (name : String) :
    (quoteName name).toList = quote :: (escape name.toList ++ [quote]) := by
  simp only [quoteName, String.toList_append, String.toList_ofList, toNat_eq_iff]
  rfl

end MappedQuery.Sql
