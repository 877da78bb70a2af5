import ScriptTables.Table.Basic
import ScriptTables.Script.Program

/-!
# The heap

Objects live in numbered cells.  A cell that was never set holds a default, so reading and changing
a cell are defined for every number and obey their laws without side conditions.

* `Cells`            numbered cells; `Cells.get`, `Cells.modify`, `Cells.push`;
* `Function`         a callable: a name, and a library function or the body of a script's function;
* `Heap`             the cells of the tables, the functions and the opaque objects;
* `Heap.metatable?`  the metatable of a value;
* `Heap.metamethod`  what the metatable of a value holds for an event.
-/

namespace ScriptTables

/-! ## cells -/

/-- numbered cells, each of them a default until it is set -/
structure Cells (α : Type) where
  stored : Array α := #[]

namespace Cells

section
variable {α : Type} [Inhabited α]

def size (c : Cells α) : Nat := c.stored.size

def get (c : Cells α) (i : Nat) : α := c.stored.getD i default

def modify (c : Cells α) (i : Nat) (f : α → α) : Cells α :=
  if i < c.size then ⟨c.stored.modify i f⟩
  else ⟨(c.stored ++ Array.replicate (i - c.size) default).push (f default)⟩

def push (c : Cells α) (a : α) : Cells α := ⟨c.stored.push a⟩

theorem get_modify (c : Cells α) (i : Nat) (f : α → α) (j : Nat) :
    (c.modify i f).get j = if i = j then f (c.get i) else c.get j := by
  simp only [get, modify, Array.getD_eq_getD_getElem?]
  by_cases h : i < c.size
  · rw [if_pos h, Array.getElem?_modify]
    by_cases hij : i = j
    · subst hij
      have hi : c.stored[i]? = some c.stored[i] := Array.getElem?_eq_getElem h
      simp [hi]
    · rw [if_neg hij, if_neg hij]
  · have hs : c.stored.size ≤ i := Nat.le_of_not_lt h
    have hc : c.stored.size + (i - c.size) = i := by rw [size]; omega
    rw [if_neg h, Array.getElem?_push, Array.getElem?_append]
    simp only [Array.size_append, Array.size_replicate, Array.getElem?_replicate, hc]
    by_cases hij : i = j
    · subst hij
      simp [Array.getElem?_eq_none hs]
    · rw [if_neg (fun e => hij e.symm), if_neg hij]
      split
      · rfl
      · next hj =>
        rw [Array.getElem?_eq_none (Nat.le_of_not_lt hj)]
        split <;> rfl

theorem get_push (c : Cells α) (a : α) (j : Nat) :
    (c.push a).get j = if j = c.size then a else c.get j := by
  simp only [get, push, size, Array.getD_eq_getD_getElem?, Array.getElem?_push]
  split <;> rfl

end

end Cells

/-! ## objects -/

/-- what a function does when it is called -/
inductive Code where
  | library (f : LibraryFunction)
  | script (body : List Step)

instance : Inhabited Code := ⟨.script []⟩

structure Function where
  name : String := ""
  code : Code := default

instance : Inhabited Function := ⟨{}⟩

/-- an opaque object: all it has is a metatable -/
structure Userdata where
  metatable : Option TableId := none
  deriving DecidableEq, Repr

instance : Inhabited Userdata := ⟨{}⟩

/-! ## heap -/

structure Heap where
  tables : Cells Table := {}
  functions : Cells Function := {}
  userdata : Cells Userdata := {}

namespace Heap

def table (h : Heap) (id : TableId) : Table := h.tables.get id.index

def function (h : Heap) (id : FunctionId) : Function := h.functions.get id.index

def modifyTable (h : Heap) (id : TableId) (f : Table → Table) : Heap :=
  { h with tables := h.tables.modify id.index f }

def modifyUserdata (h : Heap) (id : UserdataId) (f : Userdata → Userdata) : Heap :=
  { h with userdata := h.userdata.modify id.index f }

def nextTable (h : Heap) : TableId := ⟨h.tables.size⟩
def nextFunction (h : Heap) : FunctionId := ⟨h.functions.size⟩
def nextUserdata (h : Heap) : UserdataId := ⟨h.userdata.size⟩

def pushTable (h : Heap) (t : Table) : Heap := { h with tables := h.tables.push t }
def pushFunction (h : Heap) (f : Function) : Heap := { h with functions := h.functions.push f }
def pushUserdata (h : Heap) (u : Userdata) : Heap := { h with userdata := h.userdata.push u }

theorem table_modifyTable (h : Heap) (id : TableId) (f : Table → Table) (id' : TableId) :
    (h.modifyTable id f).table id' = if id = id' then f (h.table id) else h.table id' := by
  obtain ⟨i⟩ := id
  obtain ⟨j⟩ := id'
  simp only [modifyTable, table, Cells.get_modify, TableId.mk.injEq]

theorem table_pushTable (h : Heap) (t : Table) (id : TableId) :
    (h.pushTable t).table id = if id = h.nextTable then t else h.table id := by
  obtain ⟨i⟩ := id
  simp only [pushTable, table, nextTable, Cells.get_push, TableId.mk.injEq]

/-! ### metatables -/

/-- the metatable of a value; only tables and opaque objects have one -/
def metatable? (h : Heap) : Value → Option TableId
  | .table id => (h.table id).metatable
  | .userdata id => (h.userdata.get id.index).metatable
  | _ => none

/-- what the metatable of a value holds for an event, read raw -/
def metamethod (h : Heap) (v : Value) (event : String) : Value :=
  match h.metatable? v with
  | some id => (h.table id).getString event
  | none => .nil

/-- the length of a value that needs no hook: the border of a table, the bytes of a string -/
def rawLength? (h : Heap) : Value → Option Int64
  | .table id => some (Int64.ofNat (h.table id).border)
  | .string s => some (Int64.ofNat s.utf8ByteSize)
  | _ => none

theorem metamethod_of_none {h : Heap} {v : Value} (hv : h.metatable? v = none) (event : String) :
    h.metamethod v event = .nil := by
  rw [metamethod, hv]

end Heap

end ScriptTables
