import RabbitmqLite.Collections.FiniteMap

/-! # The schema of a database

The catalogue of a database, and the statements that create a table or an index
if there is none of that name yet. A list of such statements runs until one is
refused; the objects it leaves behind are those there were and, under each
other name, the first one the list creates.
-/

namespace RabbitmqLite.Sql
open Collections

inductive ColumnType where
  | text
  | integer
  | blob
  deriving DecidableEq

/-- A column as it is declared in a `CREATE TABLE`. -/
structure Column where
  name : String
  type : ColumnType
  notNull : Bool := true
  default : Option String := none
  primaryKey : Bool := false
  autoincrement : Bool := false
  unique : Bool := false
  deriving DecidableEq

/-- What a name of the catalogue stands for; `key` is a primary key of several columns. -/
inductive Object where
  | table (columns : List Column) (key : List String)
  | index (table : String) (columns : List String)
  deriving DecidableEq

abbrev Catalogue := Map String Object

/-- `CREATE TABLE IF NOT EXISTS` and `CREATE INDEX IF NOT EXISTS`. -/
inductive Create where
  | table (name : String) (columns : List Column) (key : List String)
  | index (name table : String) (columns : List String)
  deriving DecidableEq

/-- Why a statement is refused. -/
inductive Refusal where
  | indexNamed (name : String)
  | tableNamed (name : String)
  | noSuchTable (name : String)
  | noSuchColumn (table column : String)
  deriving DecidableEq

namespace Create

def name : Create → String
  | .table name _ _ | .index name _ _ => name

def object : Create → Object
  | .table _ columns key => .table columns key
  | .index _ target columns => .index target columns

def exec : Create → Catalogue → Except Refusal Catalogue
  | .table name columns key, c =>
    match c.lookup name with
    | some (Object.table _ _) => .ok c
    | some (Object.index _ _) => .error (.indexNamed name)
    | none => .ok (c.insert name (.table columns key))
  | .index name target columns, c =>
    match c.lookup target with
    | some (Object.table declared _) =>
      match c.lookup name with
      | some (Object.index _ _) => .ok c
      | some (Object.table _ _) => .error (.tableNamed name)
      | none =>
        match columns.find? (fun column => declared.all (fun d => d.name ≠ column)) with
        | some column => .error (.noSuchColumn target column)
        | none => .ok (c.insert name (.index target columns))
    | _ => .error (.noSuchTable target)

def execAll : List Create → Catalogue → Except Refusal Catalogue
  | [], c => .ok c
  | s :: rest, c =>
    match s.exec c with
    | .error e => .error e
    | .ok c' => execAll rest c'

/-- A statement that is not refused finds its object or creates it. -/
theorem exec_ok {s : Create} {c c' : Catalogue} (h : s.exec c = .ok c') :
    (c' = c ∧ ∃ object, c.lookup s.name = some object) ∨
      (c.lookup s.name = none ∧ c' = c.insert s.name s.object) := by
  cases s with
  | table name columns key =>
    simp only [exec] at h
    split at h
    · rename_i hl
      exact Or.inl ⟨(Except.ok.inj h).symm, _, hl⟩
    · cases h
    · rename_i hl
      exact Or.inr ⟨hl, (Except.ok.inj h).symm⟩
  | index name target columns =>
    simp only [exec] at h
    split at h
    · split at h
      · rename_i hl
        exact Or.inl ⟨(Except.ok.inj h).symm, _, hl⟩
      · cases h
      · rename_i hl
        split at h
        · cases h
        · exact Or.inr ⟨hl, (Except.ok.inj h).symm⟩
    · cases h

theorem lookup_exec {s : Create} {c c' : Catalogue} (h : s.exec c = .ok c') (name : String) :
    c'.lookup name = (c.lookup name).or (if s.name = name then some s.object else none) := by
  rcases exec_ok h with ⟨rfl, object, hl⟩ | ⟨hl, rfl⟩
  · split_ifs with hn
    · rw [← hn, hl]
      rfl
    · exact Option.or_none.symm
  · rw [lookup_insert_eq]
    by_cases hn : s.name = name
    · rw [if_pos hn.symm, if_pos hn, ← hn, hl]
      rfl
    · rw [if_neg (Ne.symm hn), if_neg hn, Option.or_none]

/-- The first of the statements that creates an object of this name. -/
def created (statements : List Create) (name : String) : Option Object :=
  (statements.find? (fun s => s.name = name)).map object

theorem lookup_execAll {statements : List Create} {c c' : Catalogue}
    (h : execAll statements c = .ok c') (name : String) :
    c'.lookup name = (c.lookup name).or (created statements name) := by
  induction statements generalizing c with
  | nil =>
    obtain rfl := Except.ok.inj h
    exact Option.or_none.symm
  | cons s rest ih =>
    simp only [execAll] at h
    split at h
    · cases h
    · rename_i c₁ hs
      rw [ih h, lookup_exec hs, Option.or_assoc]
      congr 1
      by_cases hn : s.name = name <;> simp [created, hn]

theorem execAll_append (first second : List Create) (c : Catalogue) :
    execAll (first ++ second) c =
      match execAll first c with
      | .error e => .error e
      | .ok c' => execAll second c' := by
  induction first generalizing c with
  | nil => rfl
  | cons s rest ih =>
    simp only [List.cons_append, execAll]
    split
    · rfl
    · exact ih _

end Create
end RabbitmqLite.Sql
