import LetPoly.Yaml.Token

/-! # YAML nodes

The tree that the tokens of a file make: scalars, lists and maps, in blocks of lines or
in brackets.  A node may have a name, and a later reference stands for the node of that
name.  Only the first document of a file is read.
-/

namespace LetPoly.Yaml

inductive Node where
  | scalar (sense : Sense) (text : String)
  | list (items : List Node)
  /-- A map by the texts of its keys. -/
  | map (entries : List (String × Node))
  /-- A node without a value: its tag does not allow it, its keys are none or not
  different, or it refers to what it is part of. -/
  | misfit
deriving Repr

namespace Node

/-- The node of an empty place. -/
def empty : Node := .scalar .nothing ""

/-- A scalar that says that there is no value. -/
def isNull : Node → Bool
  | .scalar .nothing _ => true
  | _ => false

/-- A scalar with a tag. -/
def ofScalar (plain : Bool) (tag : Option String) (s : String) : Node :=
  match sense? plain tag s with
  | some (sense, text) => .scalar sense text
  | none => .misfit

/-! ## Maps -/

/-- The text of a key. -/
def keyText? : Node → Option String
  | .scalar _ s => some s
  | _ => none

/-- The entries that a map takes over from a map, or from a list of maps. -/
def takenOver? : Node → Option (List (String × Node))
  | .map entries => some entries
  | .list items => (items.mapM entries?).map List.flatten
  | _ => none
where
  /-- The entries of a map. -/
  entries? : Node → Option (List (String × Node))
    | .map entries => some entries
    | _ => none

/-- Entries with those that are taken over, as far as their names are new. -/
def withNew (entries : List (String × Node)) : List (String × Node) → List (String × Node)
  | [] => entries
  | (name, v) :: more =>
    if (entries.lookup name).isSome then withNew entries more
    else withNew (entries ++ [(name, v)]) more

/-- **The map of some keys and values.**  All keys are scalars, and their texts differ.
An entry whose key says nothing is left out, and the map's own entries go before those
that it takes over. -/
def ofEntries (entries : List (Node × Node)) : Node :=
  let map? := do
    let texts ← entries.mapM (keyText? ·.1)
    if !texts.Nodup then none
    let own := entries.filterMap fun
      | (.scalar .text s, v) => some (s, v)
      | _ => none
    let others := entries.filterMap fun
      | (.scalar .takeOver _, v) => some v
      | _ => none
    let taken ← others.mapM takenOver?
    return withNew own taken.flatten
  match map? with
  | some entries => .map entries
  | none => .misfit

/-! ## Tokens as nodes -/

/-- What is left to read, and what is known by name. -/
structure Left where
  tokens : List Token
  /-- The named nodes in the order in which they start.  A node that is still being
  read is not there yet. -/
  named : Array (String × Option Node) := #[]
  /-- What the handles of tags stand for. -/
  handles : List (String × String) := Tag.commonHandles

/-- A reader of tokens. -/
abbrev Reader := StateT Left Option

/-- The next token, which is not taken. -/
def peek : Reader (Option Token) := fun left =>
  match left.tokens with
  | .fault :: _ => none
  | ts => some (ts.head?, left)

/-- Takes a token. -/
def advance : Reader Unit := modify fun left => { left with tokens := left.tokens.drop 1 }

/-- The name of an anchor, if one follows. -/
def anchor? : Reader (Option String) := do
  match ← peek with
  | some (.anchor name) =>
    advance
    return some name
  | _ => return none

/-- A tag, if one follows. -/
def tag? : Reader (Option String) := do
  match ← peek with
  | some (.tag t) =>
    advance
    match t.whole? (← get).handles with
    | some tag => return some tag
    | none => failure
  | _ => return none

/-- The anchor and the tag of a node, in either order. -/
def properties : Reader (Option String × Option String) := do
  let before ← anchor?
  let tag ← tag?
  match before with
  | some name => return (some name, tag)
  | none => return (← anchor?, tag)

/-- The node of a name. -/
def referred (name : String) : Reader Node := do
  match (← get).named.toList.reverse.lookup name with
  | some node => return node.getD .misfit
  | none => failure

/-- Reads a node of a name, which may be referred to from inside it. -/
def underName (name : Option String) (reader : Reader Node) : Reader Node := do
  match name with
  | none => reader
  | some name =>
    let place := (← get).named.size
    modify fun left => { left with named := left.named.push (name, none) }
    let node ← reader
    modify fun left => { left with named := left.named.setIfInBounds place (name, some node) }
    return node

/-- Reads a node, unless one of these tokens follows: the place is empty then. -/
def orEmpty (stops : List Token) (reader : Reader Node) : Reader Node := do
  match ← peek with
  | some t => if stops.contains t then return empty else reader
  | none => reader

/-- What follows the mark of a value; without the mark the place is empty. -/
def valuePart (stops : List Token) (reader : Reader Node) : Reader Node := do
  if (← peek) == some .value then
    advance
    orEmpty stops reader
  else return empty

mutual
/-- **A node.**  A block may start only outside brackets, and a list at the column of
its key has no start. -/
def node : (bound : Nat) → (block keyed : Bool) → Reader Node
  | 0, _, _ => failure
  | n + 1, block, keyed => do
    match ← peek with
    | some (.reference name) =>
      advance
      referred name
    | _ =>
      let (name, tag) ← properties
      underName name (content n block keyed name.isSome tag)

/-- A node after its anchor and its tag. -/
def content : (bound : Nat) → (block keyed named : Bool) → (tag : Option String) → Reader Node
  | 0, _, _, _, _ => failure
  | n + 1, block, keyed, named, tag => do
    match ← peek, block, keyed with
    | some (.scalar plain s), _, _ =>
      advance
      return ofScalar plain tag s
    | some .entry, _, true => return .list (← keyedItems n)
    | some .openList, _, _ =>
      advance
      return .list (← listItems n)
    | some .openMap, _, _ =>
      advance
      return ofEntries (← mapEntries n)
    | some .blockList, true, _ =>
      advance
      return .list (← blockItems n)
    | some .blockMap, true, _ =>
      advance
      return ofEntries (← blockEntries n)
    | _, _, _ =>
      if named || tag.isSome then return ofScalar true tag ""
      else failure

/-- The items of a block. -/
def blockItems : (bound : Nat) → Reader (List Node)
  | 0 => failure
  | n + 1 => do
    match ← peek with
    | some .entry =>
      advance
      let item ← orEmpty [.entry, .blockEnd] (node n true false)
      return item :: (← blockItems n)
    | some .blockEnd =>
      advance
      return []
    | _ => failure

/-- The items of a list at the column of its key. -/
def keyedItems : (bound : Nat) → Reader (List Node)
  | 0 => failure
  | n + 1 => do
    match ← peek with
    | some .entry =>
      advance
      let item ← orEmpty [.entry, .key, .value, .blockEnd] (node n true false)
      return item :: (← keyedItems n)
    | _ => return []

/-- The entries of a block. -/
def blockEntries : (bound : Nat) → Reader (List (Node × Node))
  | 0 => failure
  | n + 1 => do
    match ← peek with
    | some .key =>
      advance
      let key ← orEmpty [.key, .value, .blockEnd] (node n true true)
      let value ← valuePart [.key, .value, .blockEnd] (node n true true)
      return (key, value) :: (← blockEntries n)
    | some .blockEnd =>
      advance
      return []
    | _ => failure

/-- The items of a list in brackets.  An item with a key is a map of one entry. -/
def listItems : (bound : Nat) → Reader (List Node)
  | 0 => failure
  | n + 1 => do
    match ← peek with
    | some .closeList =>
      advance
      return []
    | some .key =>
      advance
      let key ← match ← peek with
        | some .value | some .comma | some .closeList =>
          advance
          pure empty
        | _ => node n false false
      let value ← valuePart [.comma, .closeList] (node n false false)
      return ofEntries [(key, value)] :: (← afterItem n)
    | _ =>
      let item ← node n false false
      return item :: (← afterItem n)

/-- The items after a comma, or none before the closing bracket. -/
def afterItem : (bound : Nat) → Reader (List Node)
  | 0 => failure
  | n + 1 => do
    match ← peek with
    | some .comma =>
      advance
      listItems n
    | some .closeList => listItems n
    | _ => failure

/-- The entries of a map in brackets.  An item without a key is a key without a
value. -/
def mapEntries : (bound : Nat) → Reader (List (Node × Node))
  | 0 => failure
  | n + 1 => do
    match ← peek with
    | some .closeMap =>
      advance
      return []
    | some .key =>
      advance
      let key ← orEmpty [.value, .comma, .closeMap] (node n false false)
      let value ← valuePart [.comma, .closeMap] (node n false false)
      return (key, value) :: (← afterEntry n)
    | _ =>
      let key ← node n false false
      return (key, empty) :: (← afterEntry n)

/-- The entries after a comma, or none before the closing bracket. -/
def afterEntry : (bound : Nat) → Reader (List (Node × Node))
  | 0 => failure
  | n + 1 => do
    match ← peek with
    | some .comma =>
      advance
      mapEntries n
    | some .closeMap => mapEntries n
    | _ => failure
end

/-! ## Documents -/

/-- Reads the lines with percent signs.  A version is given once, and so is every
handle; says whether there were any. -/
def directives : (bound : Nat) → (version : Bool) → (own : List (String × String)) → Reader Bool
  | 0, _, _ => failure
  | n + 1, version, own => do
    match ← peek with
    | some (.version major minor) =>
      if version || major != 1 || minor != 1 then failure
      advance
      directives n true own
    | some (.handle name start) =>
      if (own.lookup name).isSome then failure
      advance
      directives n version (own ++ [(name, start)])
    | _ =>
      modify fun left => { left with handles := own ++ left.handles }
      return version || !own.isEmpty

/-- **The first document.**  It ends where its node does, before a token that has a
reading. -/
def document (bound : Nat) : Reader Node := do
  let told ← directives bound false []
  let node ← match ← peek with
    | none => if told then failure else pure empty
    | some .documentStart => do
      advance
      match ← peek with
      | none | some .documentStart | some .documentEnd => pure empty
      | some (.version ..) | some (.handle ..) => pure empty
      | _ => node bound true false
    | _ => if told then failure else node bound true false
  let _ ← peek
  return node

/-- **The node that a text is**, if it is one. -/
def parse (s : String) : Option Node :=
  let tokens := scan s
  (document (4 * tokens.length + 8) { tokens }).map (·.1)

end Node

end LetPoly.Yaml
