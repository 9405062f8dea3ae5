import CborCodec.Setting
/-!
Tables of a TOML document while it is read. A header opens its table once and an element of an
array of tables as often as it comes. Keys with points make tables on the way and enter those that
no header has opened, but a table that such a key has filled cannot be opened any more.
-/

namespace CborCodec.Toml

inductive Origin where
  /-- A longer header. -/
  | implied
  | header
  /-- A key with points. -/
  | dotted
  deriving DecidableEq, Repr

inductive Node where
  | value (v : Setting)
  | table (origin : Origin) (members : List (String × Node))
  /-- The elements of an array of tables: the closed ones, last first, and the open one. -/
  | tables (closed : List (List (String × Node))) (last : List (String × Node))

abbrev Members := List (String × Node)

namespace Members

def put (key : String) (node : Node) : Members → Members
  | [] => [(key, node)]
  | (k, n) :: members => if k = key then (key, node) :: members else (k, n) :: put key node members

/-- Changes the table at a path of headers. Missing tables on the way are made, and of an array of
tables it is the open element that is meant. -/
def within (change : Members → Option Members) : List String → Members → Option Members
  | [], members => change members
  | key :: path, members =>
    match members.lookup key with
    | none => (within change path []).map fun inner => members.put key (.table .implied inner)
    | some (.table origin inner) =>
      (within change path inner).map fun inner => members.put key (.table origin inner)
    | some (.tables closed last) =>
      (within change path last).map fun last => members.put key (.tables closed last)
    | some (.value _) => none

def openTable (key : String) (members : Members) : Option Members :=
  match members.lookup key with
  | none => some (members.put key (.table .header []))
  | some (.table .implied inner) => some (members.put key (.table .header inner))
  | some _ => none

def openElement (key : String) (members : Members) : Option Members :=
  match members.lookup key with
  | none => some (members.put key (.tables [] []))
  | some (.tables closed last) => some (members.put key (.tables (last :: closed) []))
  | some _ => none

/-- Sets a value by its key. A key with points leads through tables that no header has opened, or
through the open element of an array of tables. It may not end in such an element, and the table in
which it ends counts as made by a key with points. -/
def assign (value : Setting) : List String → Members → Option Members
  | [], _ => none
  | [key], members =>
    match members.lookup key with
    | none => some (members.put key (.value value))
    | some _ => none
  | key :: path, members =>
    match members.lookup key with
    | none => (assign value path []).map fun inner => members.put key (.table .dotted inner)
    | some (.table .header _) => none
    | some (.table origin inner) =>
      let origin := if path.length = 1 then .dotted else origin
      (assign value path inner).map fun inner => members.put key (.table origin inner)
    | some (.tables closed last) =>
      if path.length = 1 then none
      else (assign value path last).map fun last => members.put key (.tables closed last)
    | some (.value _) => none

end Members

mutual

def Node.setting : Node → Setting
  | .value v => v
  | .table _ members => .table (settings members)
  | .tables closed last => .array ((elements closed).reverse ++ [.table (settings last)])

def settings : List (String × Node) → List (String × Setting)
  | [] => []
  | (key, node) :: members => (key, node.setting) :: settings members

def elements : List (List (String × Node)) → List Setting
  | [] => []
  | members :: rest => .table (settings members) :: elements rest

end

end CborCodec.Toml
