import MappedQuery.Proofs.WrittenText

/-!
# Placeholders and parameters

A statement is written with one question mark outside of quotes for every value that is bound to
it, and the values are bound in the order of these marks: written with other marks, the statement
reads as if its question marks were replaced, one after the other. So the text does not depend on
the values, and every parameter of the statement is bound once, but for those on the left of a
choice among nothing.
-/
namespace MappedQuery.Sql

/-! ## Question marks outside of quotes -/

/-- How many question marks stand outside of quotes. -/
def marksFrom (quoted : Bool) : List Char → Nat
  | [] => 0
  | c :: cs =>
    if c = quote then marksFrom (!quoted) cs
    else if c = '?' && !quoted then marksFrom quoted cs + 1
    else marksFrom quoted cs

def marks (sql : String) : Nat := marksFrom false sql.toList

/-- Replaces the question marks outside of quotes by texts, one after the other. -/
def fillFrom (quoted : Bool) : List Char → List String → List Char
  | [], _ => []
  | c :: cs, texts =>
    if c = quote then c :: fillFrom (!quoted) cs texts
    else if c = '?' && !quoted then
      (texts.head?.getD "?").toList ++ fillFrom quoted cs texts.tail
    else c :: fillFrom quoted cs texts

def fill (sql : String) (texts : List String) : String :=
  String.ofList (fillFrom false sql.toList texts)

/-- Neither a quote nor a question mark. -/
def isPlain (c : Char) : Bool := c ≠ quote && c ≠ '?'

section Scanning

variable {cs rest : List Char} {texts : List String}

theorem marksFrom_plain {quoted : Bool} (h : cs.all isPlain = true) :
    marksFrom quoted (cs ++ rest) = marksFrom quoted rest := by
  induction cs with
  | nil => rfl
  | cons c cs ih =>
    simp only [List.all_cons, Bool.and_eq_true, isPlain, decide_eq_true_eq] at h
    obtain ⟨⟨hquote, hmark⟩, h⟩ := h
    rw [List.cons_append, marksFrom, if_neg hquote, if_neg (by simp [hmark]), ih h]

theorem fillFrom_plain {quoted : Bool} (h : cs.all isPlain = true) :
    fillFrom quoted (cs ++ rest) texts = cs ++ fillFrom quoted rest texts := by
  induction cs with
  | nil => rfl
  | cons c cs ih =>
    simp only [List.all_cons, Bool.and_eq_true, isPlain, decide_eq_true_eq] at h
    obtain ⟨⟨hquote, hmark⟩, h⟩ := h
    rw [List.cons_append, fillFrom, if_neg hquote, if_neg (by simp [hmark]), ih h,
      List.cons_append]

/-- Inside quotes a name stays inside: of each quote in it there are two. -/
theorem marksFrom_escape : ∀ cs : List Char,
    marksFrom true (escape cs ++ rest) = marksFrom true rest
  | [] => rfl
  | c :: cs => by
    by_cases hc : c = quote
    · rw [escape_quote hc]
      simp [marksFrom, marksFrom_escape cs]
    · simp [escape_of_ne hc, marksFrom, hc, marksFrom_escape cs]

theorem fillFrom_escape : ∀ cs : List Char,
    fillFrom true (escape cs ++ rest) texts = escape cs ++ fillFrom true rest texts
  | [] => rfl
  | c :: cs => by
    by_cases hc : c = quote
    · rw [escape_quote hc]
      simp [fillFrom, fillFrom_escape cs]
    · simp [escape_of_ne hc, fillFrom, hc, fillFrom_escape cs]

end Scanning

/-! ## Texts whose marks line up -/

/-- What is written line up with the values that are bound to it: it has as many question marks
outside of quotes, and with other marks it reads as if these were replaced in order. It leaves no
quote open. -/
structure LinesUp (text : (Cell → String) → String) (bound : List Cell) : Prop where
  marks : ∀ rest, marksFrom false ((text placeholder).toList ++ rest) =
    bound.length + marksFrom false rest
  fill : ∀ mark rest texts, fillFrom false ((text placeholder).toList ++ rest)
    (bound.map mark ++ texts) = (text mark).toList ++ fillFrom false rest texts

/-- Several texts line up with the values that are bound to them. -/
inductive LineUp : ((Cell → String) → List String) → List Cell → Prop where
  | nil : LineUp (fun _ => []) []
  | cons {text : (Cell → String) → String} {texts : (Cell → String) → List String}
      {ps qs : List Cell} : LinesUp text ps → LineUp texts qs →
      LineUp (fun mark => text mark :: texts mark) (ps ++ qs)

namespace LinesUp

variable {t u : (Cell → String) → String} {ps qs : List Cell}

theorem literal (s : String) (h : s.toList.all isPlain = true) : LinesUp (fun _ => s) [] where
  marks rest := by rw [marksFrom_plain h, List.length_nil, Nat.zero_add]
  fill mark rest texts := fillFrom_plain h

theorem name (name : String) : LinesUp (fun _ => quoteName name) [] where
  marks rest := by
    simp [toList_quoteName, marksFrom, marksFrom_escape]
  fill mark rest texts := by
    simp [toList_quoteName, fillFrom, fillFrom_escape]

theorem parameter (c : Cell) : LinesUp (fun mark => mark c) [c] where
  marks rest := by
    rw [toList_placeholder, List.singleton_append, marksFrom, if_neg (by decide),
      if_pos (by decide), Nat.add_comm]
    rfl
  fill mark rest texts := by
    rw [toList_placeholder, List.singleton_append, fillFrom, if_neg (by decide), if_pos (by decide)]
    rfl

theorem append (ht : LinesUp t ps) (hu : LinesUp u qs) :
    LinesUp (fun mark => t mark ++ u mark) (ps ++ qs) where
  marks rest := by
    rw [String.toList_append, List.append_assoc, ht.marks, hu.marks, List.length_append,
      Nat.add_assoc]
  fill mark rest texts := by
    rw [String.toList_append, String.toList_append, List.append_assoc, List.append_assoc,
      List.map_append, List.append_assoc, ht.fill, hu.fill]

/-- What stands before and behind a text, and has no marks, changes nothing. -/
theorem behind (s : String) (hs : s.toList.all isPlain = true) (ht : LinesUp t ps) :
    LinesUp (fun mark => s ++ t mark) ps :=
  (literal s hs).append ht

theorem before (ht : LinesUp t ps) (s : String) (hs : s.toList.all isPlain = true) :
    LinesUp (fun mark => t mark ++ s) ps := by
  have happend := ht.append (literal s hs)
  rwa [List.append_nil] at happend

end LinesUp

namespace LineUp

variable {ts us : (Cell → String) → List String} {ps qs : List Cell}

theorem append (ht : LineUp ts ps) (hu : LineUp us qs) :
    LineUp (fun mark => ts mark ++ us mark) (ps ++ qs) := by
  induction ht with
  | nil => exact hu
  | cons hfirst _ ih =>
    rw [List.append_assoc]
    exact .cons hfirst ih

theorem singleton {t : (Cell → String) → String} (h : LinesUp t ps) :
    LineUp (fun mark => [t mark]) ps := by
  have hcons := LineUp.cons h .nil
  rwa [List.append_nil] at hcons

theorem literal (s : String) (h : s.toList.all isPlain = true) : LineUp (fun _ => [s]) [] :=
  singleton (.literal s h)

/-- What stands behind each text lines up with nothing. -/
theorem map_append (h : LineUp ts ps) (s : String) (hs : s.toList.all isPlain = true) :
    LineUp (fun mark => (ts mark).map (· ++ s)) ps := by
  induction h with
  | nil => exact .nil
  | @cons t ts ps qs hfirst _ ih =>
    exact .cons (hfirst.before s hs) ih

theorem intercalate (h : LineUp ts ps) (sep : String) (hsep : sep.toList.all isPlain = true) :
    LinesUp (fun mark => String.intercalate sep (ts mark)) ps := by
  induction h with
  | nil => exact .literal "" rfl
  | @cons t ts ps qs hfirst hrest ih =>
    cases hrest with
    | nil =>
      rw [List.append_nil]
      simpa only [String.intercalate_singleton] using hfirst
    | cons hsecond hrest =>
      have hall := (hfirst.before sep hsep).append ih
      simp only [String.intercalate_cons_of_ne_nil (List.cons_ne_nil _ _)] at hall ⊢
      exact hall

end LineUp

/-! ## What is written lines up -/

theorem Column.linesUp (c : Column) : LinesUp (fun _ => c.text) [] := by
  unfold Column.text
  split
  · exact ((LinesUp.name _).before "." rfl).append (.name _)
  · exact .name _

theorem Table.linesUp (t : Table) : LinesUp (fun _ => t.text) [] := by
  unfold Table.text
  split
  · exact ((LinesUp.name _).before " AS " rfl).append (.name _)
  · exact .name _

theorem Comparison.isPlain_text (op : Comparison) : op.text.toList.all isPlain = true := by
  cases op <;> decide

mutual

theorem Expression.linesUp : ∀ e : Expression, LinesUp (fun mark => e.text mark) e.parameters
  | .column c => c.linesUp
  | .parameter c => .parameter c
  | .lower e => (e.linesUp.behind "LOWER(" rfl).before ")" rfl
  | .compare op left right =>
    (((left.linesUp.before " " rfl).before op.text op.isPlain_text).before " " rfl).append
      right.linesUp
  | .isIn _ [] => .literal "1=0" rfl
  | .isIn e (c :: cs) =>
    ((e.linesUp.before " IN (" rfl).append
      ((Expression.lineUp (c :: cs)).intercalate "," rfl)).before ")" rfl
  | .isNull e => e.linesUp.before " IS NULL" rfl
  | .isNotNull e => e.linesUp.before " IS NOT NULL" rfl
  | .condition c => c.linesUp

theorem Expression.lineUp : ∀ es : List Expression,
    LineUp (fun mark => Expression.texts mark es) (Expression.parametersAll es)
  | [] => .nil
  | e :: rest => .cons e.linesUp (Expression.lineUp rest)

theorem Condition.linesUp : ∀ c : Condition, LinesUp (fun mark => c.text mark) c.parameters
  | .and left right =>
    (((left.linesUp.behind "(" rfl).before " AND " rfl).append right.linesUp).before ")" rfl
  | .or left right =>
    (((left.linesUp.behind "(" rfl).before " OR " rfl).append right.linesUp).before ")" rfl
  | .not e => (e.linesUp.behind "(NOT " rfl).before ")" rfl
  | .single e => e.linesUp
  | .always => .literal "1=1" rfl
  | .never => .literal "1=0" rfl

end

theorem Join.linesUp (j : Join) : LinesUp (fun mark => j.text mark) j.on.parameters :=
  ((j.table.linesUp.behind "LEFT JOIN " rfl).before " ON " rfl).append j.on.linesUp

theorem Join.lineUp : ∀ js : List Join,
    LineUp (fun mark => js.map (Join.text mark)) (js.flatMap (·.on.parameters))
  | [] => .nil
  | j :: rest => .cons j.linesUp (Join.lineUp rest)

namespace Statement

theorem columns_linesUp (s : Statement) :
    LinesUp (fun mark => s.columnsText mark) (Expression.parametersAll s.columns) := by
  unfold columnsText
  cases s.columns with
  | nil => exact .literal "*" rfl
  | cons e rest => exact (Expression.lineUp (e :: rest)).intercalate ", " rfl

theorem table_lineUp (s : Statement) :
    LineUp (fun _ => (s.table?.map fun t => "FROM " ++ t.text).toList) [] := by
  cases s.table? with
  | none => exact .nil
  | some t => exact .singleton (t.linesUp.behind "FROM " rfl)

theorem condition_lineUp (s : Statement) :
    LineUp (fun mark => s.conditionTexts mark) s.conditionParameters := by
  unfold conditionTexts conditionParameters
  cases s.condition? with
  | none => exact .nil
  | some c => exact .singleton (c.linesUp.behind "WHERE " rfl)

theorem order_lineUp (s : Statement) :
    LineUp (fun mark => s.orderTexts mark) (Expression.parametersAll s.order) := by
  unfold orderTexts
  cases s.order with
  | nil => exact .nil
  | cons e rest =>
    have hkeys := (Expression.lineUp (e :: rest)).map_append " ASC" rfl
    exact .singleton ((hkeys.intercalate ", " rfl).behind "ORDER BY " rfl)

theorem linesUp (s : Statement) : LinesUp (fun mark => s.text mark) s.parameters := by
  have hcolumns : LineUp (fun mark => ["SELECT", s.columnsText mark])
      (Expression.parametersAll s.columns) :=
    (LineUp.literal "SELECT" rfl).append (.singleton s.columns_linesUp)
  have hall := (((hcolumns.append s.table_lineUp).append (Join.lineUp s.joins)).append
    s.condition_lineUp).append s.order_lineUp
  rw [List.append_nil, List.append_assoc, List.append_assoc] at hall
  exact hall.intercalate " " rfl

end Statement

/-! ## Parameters -/

/-- A place for a value in an expression, and whether it is left out of the text as it stands on
the left of a choice among nothing. -/
structure Parameter where
  value : Cell
  dropped : Bool
deriving DecidableEq, Repr

mutual

/-- All places for values in an expression, in order. -/
def Expression.places (dropped : Bool) : Expression → List Parameter
  | .column _ => []
  | .parameter c => [⟨c, dropped⟩]
  | .lower e => e.places dropped
  | .compare _ left right => left.places dropped ++ right.places dropped
  | .isIn e choices =>
    e.places (dropped || choices.isEmpty) ++ Expression.placesAll dropped choices
  | .isNull e => e.places dropped
  | .isNotNull e => e.places dropped
  | .condition c => c.places dropped

def Expression.placesAll (dropped : Bool) : List Expression → List Parameter
  | [] => []
  | e :: rest => e.places dropped ++ Expression.placesAll dropped rest

def Condition.places (dropped : Bool) : Condition → List Parameter
  | .and left right => left.places dropped ++ right.places dropped
  | .or left right => left.places dropped ++ right.places dropped
  | .not e => e.places dropped
  | .single e => e.places dropped
  | .always => []
  | .never => []

end

/-- The values of the places that are not left out. -/
def kept (places : List Parameter) : List Cell :=
  (places.filter fun p => !p.dropped).map (·.value)

theorem kept_append (ps qs : List Parameter) : kept (ps ++ qs) = kept ps ++ kept qs := by
  rw [kept, List.filter_append, List.map_append]
  rfl

mutual

theorem Expression.kept_dropped : ∀ e : Expression, kept (e.places true) = []
  | .column _ | .parameter _ => rfl
  | .lower e | .isNull e | .isNotNull e => e.kept_dropped
  | .compare _ left right => by
    rw [Expression.places, kept_append, left.kept_dropped, right.kept_dropped]
    rfl
  | .isIn e choices => by
    rw [Expression.places, kept_append, Bool.true_or, e.kept_dropped,
      Expression.keptAll_dropped choices]
    rfl
  | .condition c => c.kept_dropped

theorem Expression.keptAll_dropped : ∀ es : List Expression,
    kept (Expression.placesAll true es) = []
  | [] => rfl
  | e :: rest => by
    rw [Expression.placesAll, kept_append, e.kept_dropped, Expression.keptAll_dropped rest]
    rfl

theorem Condition.kept_dropped : ∀ c : Condition, kept (c.places true) = []
  | .and left right | .or left right => by
    rw [Condition.places, kept_append, left.kept_dropped, right.kept_dropped]
    rfl
  | .not e | .single e => e.kept_dropped
  | .always | .never => rfl

end

mutual

/-- The values that are bound to an expression are those of its places that are not left out. -/
theorem Expression.parameters_eq : ∀ e : Expression, e.parameters = kept (e.places false)
  | .column _ | .parameter _ => rfl
  | .lower e | .isNull e | .isNotNull e => e.parameters_eq
  | .compare _ left right => by
    rw [Expression.places, kept_append, ← left.parameters_eq, ← right.parameters_eq]
    rfl
  | .isIn e [] => by
    rw [Expression.places, kept_append]
    exact (congrArg (· ++ []) e.kept_dropped).symm
  | .isIn e (c :: cs) => by
    rw [Expression.places, kept_append, ← Expression.parametersAll_eq (c :: cs)]
    exact congrArg (· ++ Expression.parametersAll (c :: cs)) e.parameters_eq
  | .condition c => c.parameters_eq

theorem Expression.parametersAll_eq : ∀ es : List Expression,
    Expression.parametersAll es = kept (Expression.placesAll false es)
  | [] => rfl
  | e :: rest => by
    rw [Expression.placesAll, kept_append, ← e.parameters_eq, ← Expression.parametersAll_eq rest]
    rfl

theorem Condition.parameters_eq : ∀ c : Condition, c.parameters = kept (c.places false)
  | .and left right | .or left right => by
    rw [Condition.places, kept_append, ← left.parameters_eq, ← right.parameters_eq]
    rfl
  | .not e | .single e => e.parameters_eq
  | .always | .never => rfl

end

/-- All places for values in a statement, in order. -/
def Statement.places (s : Statement) : List Parameter :=
  Expression.placesAll false s.columns ++ (s.joins.flatMap (·.on.places false) ++
    (((s.condition?.map (·.places false)).getD []) ++ Expression.placesAll false s.order))

theorem Statement.parameters_eq (s : Statement) : s.parameters = kept s.places := by
  have hjoins : s.joins.flatMap (·.on.parameters) = kept (s.joins.flatMap (·.on.places false)) := by
    induction s.joins with
    | nil => rfl
    | cons j rest ih =>
      rw [List.flatMap_cons, List.flatMap_cons, kept_append, ← j.on.parameters_eq, ih]
  have hcondition : s.conditionParameters = kept ((s.condition?.map (·.places false)).getD []) := by
    unfold conditionParameters
    cases s.condition? with
    | none => rfl
    | some c => exact c.parameters_eq
  rw [parameters, places, kept_append, kept_append, kept_append, ← hjoins, ← hcondition,
    ← Expression.parametersAll_eq, ← Expression.parametersAll_eq]

/-! ## Statements without their values -/

mutual

/-- An expression with null for all its values. -/
def Expression.blank : Expression → Expression
  | .column c => .column c
  | .parameter _ => .parameter .null
  | .lower e => .lower e.blank
  | .compare op left right => .compare op left.blank right.blank
  | .isIn e choices => .isIn e.blank (Expression.blankAll choices)
  | .isNull e => .isNull e.blank
  | .isNotNull e => .isNotNull e.blank
  | .condition c => .condition c.blank

def Expression.blankAll : List Expression → List Expression
  | [] => []
  | e :: rest => e.blank :: Expression.blankAll rest

def Condition.blank : Condition → Condition
  | .and left right => .and left.blank right.blank
  | .or left right => .or left.blank right.blank
  | .not e => .not e.blank
  | .single e => .single e.blank
  | .always => .always
  | .never => .never

end

mutual

theorem Expression.text_blank : ∀ e : Expression, e.blank.text placeholder = e.text placeholder
  | .column _ | .parameter _ => rfl
  | .lower e | .isNull e | .isNotNull e => by
    simp only [Expression.blank, Expression.text, e.text_blank]
  | .compare op left right => by
    simp only [Expression.blank, Expression.text, left.text_blank, right.text_blank]
  | .isIn _ [] => rfl
  | .isIn e (c :: cs) => by
    have hchoices := Expression.texts_blankAll (c :: cs)
    rw [Expression.blankAll] at hchoices
    simp only [Expression.blank, Expression.blankAll, Expression.text, e.text_blank, hchoices]
  | .condition c => c.text_blank

theorem Expression.texts_blankAll : ∀ es : List Expression,
    Expression.texts placeholder (Expression.blankAll es) = Expression.texts placeholder es
  | [] => rfl
  | e :: rest => by
    simp only [Expression.blankAll, Expression.texts, e.text_blank, Expression.texts_blankAll rest]

theorem Condition.text_blank : ∀ c : Condition, c.blank.text placeholder = c.text placeholder
  | .and left right | .or left right => by
    simp only [Condition.blank, Condition.text, left.text_blank, right.text_blank]
  | .not e => by simp only [Condition.blank, Condition.text, e.text_blank]
  | .single e => e.text_blank
  | .always | .never => rfl

end

/-- A statement with null for all its values. -/
def Statement.blank (s : Statement) : Statement where
  columns := Expression.blankAll s.columns
  table? := s.table?
  joins := s.joins.map fun j => ⟨j.table, j.on.blank⟩
  condition? := s.condition?.map (·.blank)
  order := Expression.blankAll s.order

theorem Expression.isEmpty_blankAll (es : List Expression) :
    (Expression.blankAll es).isEmpty = es.isEmpty := by
  cases es <;> rfl

namespace Statement

theorem text_blank (s : Statement) : s.blank.text placeholder = s.text placeholder := by
  have hcolumns : s.blank.columnsText placeholder = s.columnsText placeholder := by
    simp only [columnsText, blank, Expression.isEmpty_blankAll, Expression.texts_blankAll]
  have hjoins : s.blank.joins.map (Join.text placeholder) =
      s.joins.map (Join.text placeholder) := by
    simp only [blank, List.map_map]
    exact List.map_congr_left fun j _ => by
      simp only [Function.comp_apply, Join.text, Condition.text_blank]
  have hcondition : s.blank.conditionTexts placeholder = s.conditionTexts placeholder := by
    simp only [conditionTexts, blank, Option.map_map]
    exact congrArg _ (Option.map_congr fun c _ => by
      simp only [Function.comp_apply, Condition.text_blank])
  have horder : s.blank.orderTexts placeholder = s.orderTexts placeholder := by
    simp only [orderTexts, blank, Expression.isEmpty_blankAll, Expression.texts_blankAll]
  rw [text, text, clauses, clauses, hcolumns, hjoins, hcondition, horder]
  rfl

/-- A statement has as many question marks outside of quotes as values are bound to it, and the
values are bound in the order of the marks: with other marks it reads as if the question marks were
replaced by them. Its text stays the same when other values take the place of its own, and each of
its places is bound once, but for those on the left of a choice among nothing. -/
theorem placeholders_line_up (s : Statement) :
    marks s.build.1 = s.build.2.length ∧
      (∀ mark : Cell → String,
        ((s.write mark).run []).1 = fill s.build.1 (s.build.2.map mark)) ∧
      (∀ t : Statement, t.blank = s.blank → t.build.1 = s.build.1) ∧
      s.build.2 = (s.places.filter fun p => !p.dropped).map (·.value) := by
  have hbuild : ∀ t : Statement, t.build = (t.text placeholder, t.parameters) := run_write _
  refine ⟨?_, fun mark => ?_, fun t ht => ?_, ?_⟩
  · have hmarks := s.linesUp.marks []
    rw [List.append_nil] at hmarks
    rw [hbuild]
    exact hmarks
  · have hfill := s.linesUp.fill mark [] []
    rw [List.append_nil, List.append_nil] at hfill
    rw [run_write, hbuild, fill, hfill, fillFrom, List.append_nil, String.ofList_toList]
  · rw [hbuild, hbuild, ← t.text_blank, ht, s.text_blank]
  · rw [hbuild]
    exact s.parameters_eq

end Statement

end MappedQuery.Sql
