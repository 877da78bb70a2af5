import ScriptTables.Library.Arguments

/-!
# Between lists and values

* `gather`                                  the results of an action on consecutive positions;
* `Host.concat`, `Host.concatFunction`      the texts of a range, with a separator between them;
* `packed`, `Host.pack`                     a new table of given values, with their count;
* `Host.unpack`, `Host.unpackFunction`      the elements of a range.
-/

namespace ScriptTables

section
variable {σ : Type} (host : Host σ)

/-! ## ranges -/

/-- run an action on `n` consecutive positions, the results behind those so far -/
def gatherOnto {α : Type} (f : Int → Action σ α) : Nat → Int → Array α → Action σ (Array α)
  | 0, _, results => pure results
  | n + 1, i, results => do
    let a ← f i
    gatherOnto f n (i + 1) (results.push a)

def gather {α : Type} (f : Int → Action σ α) (n : Nat) (i : Int) : Action σ (List α) := do
  let results ← gatherOnto f n i #[]
  pure results.toList

def rangeCount (first last : Int64) : Int := last.toInt - first.toInt + 1

/-! ## joining -/

def Collection.textAt (c : Collection) (i : Int) : Action σ String := do
  let v ← c.get host i
  match v.toText? with
  | some text => pure text
  | none => fail (.cannotJoin v.typeName i)

/-- join the elements of a range, by default from one to the border -/
def Collection.join (c : Collection) (border : Int64) (separator : String)
    (first last : Option Int64) : Action σ String := do
  let first := first.getD 1
  let last := last.getD border
  let texts ← gather (c.textAt host) (rangeCount first last).toNat first.toInt
  pure (separator.intercalate texts)

def Host.concat (list : Value) (separator : String) (first last : Option Int64) :
    Action σ String := do
  let (c, border) ← host.collectionWithBorder (some list) 1 "concat" .reading
  c.join host border separator first last

/-- the arguments are a list and perhaps separator, first and last position -/
def Host.concatFunction (args : List Value) : Action σ (List Value) := do
  let (c, border) ← host.collectionWithBorder (argument? args 1) 1 "concat" .reading
  let separator ← optionalText "concat" args 2
  let first ← optionalInteger "concat" args 3
  let last ← optionalInteger "concat" args 4
  let joined ← c.join host border (separator.getD "") first last
  pure [.string joined]

/-! ## packing -/

/-- the field of a packed table that holds the count of its values -/
def countField : String := "n"

def packed (values : List Value) : Table :=
  (Table.ofList values).setString countField (.integer (Int64.ofNat values.length))

def Host.pack (values : List Value) : Action σ TableId := host.newTable (packed values)

def Host.packFunction (args : List Value) : Action σ (List Value) := do
  let id ← host.pack args
  pure [.table id]

/-! ## unpacking -/

/-- the most results of one unpacking -/
def maxResults : Nat := 1000000

/-- the elements of a range of a list, by default from one to the border, which is computed only
when it is needed -/
def Host.unpack (list : Value) (first last : Option Int64) : Action σ (List Value) := do
  let (c, last) ← match last with
    | some last => do
      let c ← host.checkCollection (some list) 1 "unpack" .reading
      pure (c, last)
    | none => host.collectionWithBorder (some list) 1 "unpack" .reading
  let first := first.getD 1
  let count := rangeCount first last
  if count ≤ 0 ∨ maxResults < count then fail .tooManyResults
  else if ← host.fits count.toNat then gather (c.get host) count.toNat first.toInt
  else fail .tooManyResults

def Host.unpackFunction (args : List Value) : Action σ (List Value) := do
  let first ← optionalInteger "unpack" args 2
  let last ← optionalInteger "unpack" args 3
  host.unpack (argumentOrNil args 1) first last

end

end ScriptTables
