import PolishingRobot.Lists.Insertions
import PolishingRobot.Params.Text

/-!
# The parameter merge script

`sync_param.py` adds the keys of a template that the user's file lacks. The YAML
loader is a parameter; where a key lies in the text is found line by line.
-/

namespace PolishingRobot.Params

open PolishingRobot.Lists

/-- A key of a loaded mapping: a string, or a value of another type. -/
inductive Key where
  | str (s : Line)
  | other (n : Nat)
  deriving DecidableEq

/-- A loaded value: a `dict` in insertion order, or another value with its truth value
and its `in` test, which may raise. -/
inductive Loaded (α : Type) where
  | mapping (items : List (Key × α))
  | other (truthy : Bool) (contains : Key → Option Bool)

namespace Loaded

variable {α : Type}

/-- `value or {}`. -/
def orEmpty : Loaded α → Loaded α
  | other false _ => mapping []
  | value => value

/-- `key in value`. -/
def contains (key : Key) : Loaded α → Option Bool
  | mapping items => some (items.any (·.1 = key))
  | other _ test => test key

/-- `value.items()`. -/
def items : Loaded α → Option (List (Key × α))
  | mapping items => some items
  | other _ _ => none

/-- `value.get(key, {})`. -/
def get (key : Key) : Loaded (Loaded α) → Option (Loaded α)
  | mapping items => some ((items.find? (·.1 = key)).elim (mapping []) (·.2))
  | other _ _ => none

end Loaded

/-- `yaml.safe_load` on mappings of mappings; `none` is an exception. -/
abbrev SafeLoad (V : Type) := List Char → Option (Loaded (Loaded V))

/-- `top_key`: the name in a header line. -/
def topKey (line : Line) : Option Line :=
  if line ≠ [] ∧ line.head? ∉ [some ' ', some '\t', some '#'] ∧
      (rstrip line).getLast? = some ':' then
    some (strip (beforeColon line))
  else none

/-- `sub_key`: the name in a line indented by two blanks. -/
def subKey (line : Line) : Option Line :=
  if line.take 2 = [' ', ' '] ∧ (line.drop 2).head? ∉ [some ' ', some '#', none] then
    let stripped := strip line
    if ':' ∈ stripped ∧ stripped.head? ≠ some '#' then some (strip (beforeColon stripped)) else none
  else none

/-- A line that continues the key above it. -/
def continues (line : Line) : Bool :=
  ¬ (strip line = [] ∨ topKey line ≠ none ∨ subKey line ≠ none) && line.take 3 = [' ', ' ', ' ']

/-- The lines of a node and those of its keys, each range without its end. -/
structure NodeBlock where
  start : Nat
  stop : Nat
  keys : List (Line × Nat × Nat)
  deriving DecidableEq

/-- `content_end`: the end of the last key. -/
def NodeBlock.contentEnd (n : NodeBlock) : Nat :=
  (n.keys.map (·.2.2)).max?.getD (n.start + 1)

/-- `d[key] = value` of a `dict`. -/
def assign {α : Type} (d : List (Line × α)) (key : Line) (value : α) : List (Line × α) :=
  if d.any (·.1 = key) then d.map fun e => if e.1 = key then (key, value) else e
  else d ++ [(key, value)]

/-- A change of `d[key]`, which exists. -/
def modify {α : Type} (d : List (Line × α)) (key : Line) (f : α → α) : List (Line × α) :=
  d.map fun e => if e.1 = key then (e.1, f e.2) else e

/-- `d[key]`; `none` is a `KeyError`. -/
def lookup {α : Type} (d : List (Line × α)) : Key → Option α
  | .str key => (d.find? (·.1 = key)).map (·.2)
  | .other _ => none

/-- What `parse_blocks` does with line `i` of `total`, the lines `rest` after it. -/
def parseLine (total i : Nat) (line : Line) (rest : List Line) :
    Option Line × List (Line × NodeBlock) → Option Line × List (Line × NodeBlock)
  | (cur, nodes) =>
      match topKey line with
      | some name => (some name, assign nodes name ⟨i, total, []⟩)
      | none =>
          match cur with
          | none => (none, nodes)
          | some name =>
              let nodes := modify nodes name fun n => { n with stop := i + 1 }
              match subKey line with
              | none => (some name, nodes)
              | some key =>
                  let stop := i + 1 + (rest.takeWhile continues).length
                  (some name, modify nodes name fun n => { n with keys := assign n.keys key (i, stop) })

def parseLines (total : Nat) : Nat → List Line → Option Line × List (Line × NodeBlock) →
    List (Line × NodeBlock)
  | _, [], state => state.2
  | i, line :: rest, state => parseLines total (i + 1) rest (parseLine total i line rest state)

/-- `parse_blocks`. -/
def parseBlocks (lines : List Line) : List (Line × NodeBlock) :=
  parseLines lines.length 0 lines (none, [])

def slice (lines : List Line) (a b : Nat) : List Line := (lines.take b).drop a

/-- An insertion and the text that reports it. -/
structure Addition where
  insertion : Insertion Line
  report : Line

/-- The additions of all elements in order; `none` as soon as one raises. -/
def collect {α : Type} (f : α → Option (List Addition)) : List α → Option (List Addition)
  | [] => some []
  | a :: as => (f a).bind fun x => (collect f as).map (x ++ ·)

/-- The key as text; only strings are formatted. -/
def Key.text : Key → Line
  | .str s => s
  | .other _ => []

def newNode : Line := " (신규 노드)".toList

section Merge

variable {V : Type}

/-- The texts that are merged, read and parsed. -/
structure Sources (V : Type) where
  tmplLines : List Line
  userLines : List Line
  userStruct : Loaded (Loaded V)

def Sources.tmplBlocks (src : Sources V) : List (Line × NodeBlock) := parseBlocks src.tmplLines

def Sources.userBlocks (src : Sources V) : List (Line × NodeBlock) := parseBlocks src.userLines

/-- What is inserted for a key of a node that the user has. -/
def keyAdditions (src : Sources V) (node : Key) (ub : NodeBlock) (key : Key) :
    Option (List Addition) :=
  (src.userStruct.get node).bind fun keys => (keys.contains key).bind fun present =>
    if present then some []
    else
      (lookup src.tmplBlocks node).map fun tb =>
        match lookup tb.keys key with
        | none => []
        | some (a, b) =>
            [⟨⟨ub.contentEnd, slice src.tmplLines a b⟩, node.text ++ '.' :: key.text⟩]

/-- What is inserted for a node of the template. -/
def nodeAdditions (src : Sources V) : Key × Loaded V → Option (List Addition)
  | (node, keys) =>
      (src.userStruct.contains node).bind fun present =>
        if ¬ present then
          (lookup src.tmplBlocks node).map fun tb =>
            [⟨⟨src.userLines.length, [] :: slice src.tmplLines tb.start tb.stop⟩,
              node.text ++ newNode⟩]
        else
          match keys with
          | .other _ _ => some []
          | .mapping keys =>
              (lookup src.userBlocks node).bind fun ub =>
                collect (fun key => keyAdditions src node ub key.1) keys

/-- What the script leaves behind. -/
inductive Outcome where
  | created (text : List Char)
  | upToDate
  | merged (text : List Char) (added : List Line)
  deriving DecidableEq

/-- `main` on the texts of the two files; `none` is an exception, with nothing written. -/
def main (load : SafeLoad V) (tmplText : List Char) : Option (List Char) → Option Outcome
  | none =>
      some (.created (if tmplText.getLast? = some '\n' then tmplText else tmplText ++ ['\n']))
  | some userText =>
      let userLines := splitlines userText
      (load tmplText).bind fun tmplStruct => (load (joinLines userLines)).bind fun userStruct =>
        let src : Sources V := ⟨splitlines tmplText, userLines, userStruct.orEmpty⟩
        tmplStruct.orEmpty.items.bind fun items => (collect (nodeAdditions src) items).map fun adds =>
          if adds = [] then .upToDate
          else
            .merged (joinLines (insertAll userLines (adds.map (·.insertion))) ++ ['\n'])
              (adds.map (·.report))

/-- The text of the user's file afterwards. -/
def Outcome.userText (before : List Char) : Outcome → List Char
  | .created text => text
  | .upToDate => before
  | .merged text _ => text

end Merge

end PolishingRobot.Params
