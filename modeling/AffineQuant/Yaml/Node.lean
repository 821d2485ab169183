import AffineQuant.Yaml.Token.Lexer

/-!
# Nodes

The tree of a document, and how it is read off the tokens.

## Anchors and aliases

An anchor names a node and an alias stands for the node that its anchor names, which may be the
very node that it is part of; so aliases stay in the tree, and `Node.target?` finds what one
stands for. Anchors are numbered in the order in which their names occur. A name that is used
again takes the next free number, without using it up: the next new name gets the same number and
takes over. `Node.find?` therefore looks for the last node with a number.

## Reading

A document is read by recursion on the grammar of tokens. The readers of nodes and of the five
kinds of collections call each other, some of them without taking a token first, and are bounded
by a number of steps that twice the number of tokens covers. A node may be left out where a
collection shows that there is one; it is then an empty plain scalar.

## Documents

A text holds one document at most. One without directives need not be begun by a line of its own,
and one that is begun by such a line may be empty; a text without a document counts as a node that
is left out.
-/

namespace AffineQuant.Yaml

/-- A scalar with its style and its tag. -/
structure Scalar where
  style : ScalarStyle
  text : List Char
  tag : Option (List Char)
deriving DecidableEq

/-- A node; its anchor is given by number. -/
inductive Node where
  | scalar (anchor : Option Nat) (s : Scalar)
  | sequence (anchor : Option Nat) (items : List Node)
  | mapping (anchor : Option Nat) (pairs : List (Node × Node))
  | alias (anchor : Nat)

namespace Node

/-- The node that is left out. -/
def absent : Node := .scalar none ⟨.plain, [], none⟩

/-! ## Aliases -/

mutual

/-- The last node with the given anchor, in the order in which nodes begin. -/
def find? (anchor : Nat) : Node → Option Node
  | .scalar a s => if a = some anchor then some (.scalar a s) else none
  | .sequence a items =>
    (findInItems? anchor items).or
      (if a = some anchor then some (.sequence a items) else none)
  | .mapping a pairs =>
    (findInPairs? anchor pairs).or
      (if a = some anchor then some (.mapping a pairs) else none)
  | .alias _ => none

def findInItems? (anchor : Nat) : List Node → Option Node
  | [] => none
  | v :: rest => (findInItems? anchor rest).or (v.find? anchor)

def findInPairs? (anchor : Nat) : List (Node × Node) → Option Node
  | [] => none
  | (k, v) :: rest => (findInPairs? anchor rest).or ((v.find? anchor).or (k.find? anchor))

end

/-- The node itself, or the one that it is an alias of, in a document with the given root. -/
def target? (node root : Node) : Option Node :=
  match node with
  | .alias anchor => root.find? anchor
  | node => some node

end Node

/-! ## Reading nodes off tokens -/

/-- What is left of the tokens, and the anchors so far by name. -/
structure Feed where
  tokens : List Token
  anchors : List (List Char × Nat)

/-- Tag handles and the texts that they stand for. -/
abbrev TagHandles := List (List Char × List Char)

namespace Feed

/-- The feed after some tokens were taken. -/
def after (f : Feed) (tokens : List Token) : Feed := { f with tokens }

/-- Numbers an anchor. -/
def bind (f : Feed) (name : List Char) : Nat × Feed :=
  let n := f.anchors.length
  let rebound := f.anchors.map fun a ↦ if a.1 = name then (name, n) else a
  let known := f.anchors.any fun a ↦ a.1 = name
  (n, { f with anchors := if known then rebound else f.anchors ++ [(name, n)] })

/-- Numbers the anchor of a node that has one. -/
def bind? (f : Feed) : Option (List Char) → Option Nat × Feed
  | none => (none, f)
  | some name =>
    let (n, f) := f.bind name
    (some n, f)

end Feed

/-- The tag of a handle and a suffix. -/
def resolveTag (handles : TagHandles) (handle suffix : List Char) : Option (List Char) :=
  if handle.isEmpty then some suffix else (handles.lookup handle).map (· ++ suffix)

/-- The anchor and the tag in front of a node, in either order. -/
structure Properties where
  anchor : Option (List Char)
  tag : Option (List Char)

namespace Properties

def isEmpty (p : Properties) : Bool := p.anchor.isNone && p.tag.isNone

/-- The properties at the head of the tokens; none if a handle is unknown. -/
def read (handles : TagHandles) : List Token → Option (Properties × List Token)
  | .anchor name :: .tag handle suffix :: ts =>
    (resolveTag handles handle suffix).map fun tag ↦ (⟨some name, some tag⟩, ts)
  | .tag handle suffix :: .anchor name :: ts =>
    (resolveTag handles handle suffix).map fun tag ↦ (⟨some name, some tag⟩, ts)
  | .anchor name :: ts => some (⟨some name, none⟩, ts)
  | .tag handle suffix :: ts =>
    (resolveTag handles handle suffix).map fun tag ↦ (⟨none, some tag⟩, ts)
  | ts => some (⟨none, none⟩, ts)

end Properties

/-- A node is left out before one of these tokens. -/
def endsNode (ends : List Token) (ts : List Token) : Bool := ts.head?.any ends.contains

namespace Node

mutual

/-- A node, in at most the given number of steps. The value of a block mapping may be a sequence
without an indentation of its own. -/
def read (handles : TagHandles) (inMapping : Bool) : Nat → Feed → Option (Node × Feed)
  | 0, _ => none
  | n + 1, f =>
    match f.tokens with
    | .alias name :: ts => (f.anchors.lookup name).map fun a ↦ (.alias a, f.after ts)
    | ts => do
      let (p, ts) ← Properties.read handles ts
      let (anchor, f) := f.bind? p.anchor
      match ts with
      | .scalar style text :: ts => some (.scalar anchor ⟨style, text, p.tag⟩, f.after ts)
      | .flowSequence :: ts => do
        let (items, f) ← readFlowItems handles true n (f.after ts)
        some (.sequence anchor items, f)
      | .flowMapping :: ts => do
        let (pairs, f) ← readFlowPairs handles true n (f.after ts)
        some (.mapping anchor pairs, f)
      | .blockSequence :: ts => do
        let (items, f) ← readItems handles n (f.after ts)
        some (.sequence anchor items, f)
      | .blockMapping :: ts => do
        let (pairs, f) ← readPairs handles n (f.after ts)
        some (.mapping anchor pairs, f)
      | ts =>
        if inMapping ∧ ts.head? = some .item then do
          let (items, f) ← readInnerItems handles n (f.after ts)
          some (.sequence anchor items, f)
        else if p.isEmpty then none
        else some (.scalar anchor ⟨.plain, [], p.tag⟩, f.after ts)

/-- A node, or an absent one before one of the given tokens. -/
def readOr (handles : TagHandles) (inMapping : Bool) (ends : List Token) :
    Nat → Feed → Option (Node × Feed)
  | 0, _ => none
  | n + 1, f =>
    if endsNode ends f.tokens then some (absent, f) else read handles inMapping n f

/-- The items of a block sequence. -/
def readItems (handles : TagHandles) : Nat → Feed → Option (List Node × Feed)
  | 0, _ => none
  | n + 1, f =>
    match f.tokens with
    | .item :: ts => do
      let (v, f) ← readOr handles false [.item, .blockEnd] n (f.after ts)
      let (vs, f) ← readItems handles n f
      some (v :: vs, f)
    | .blockEnd :: ts => some ([], f.after ts)
    | _ => none

/-- The items of a block sequence without an indentation of its own. -/
def readInnerItems (handles : TagHandles) : Nat → Feed → Option (List Node × Feed)
  | 0, _ => none
  | n + 1, f =>
    match f.tokens with
    | .item :: ts => do
      let (v, f) ← readOr handles false [.item, .key, .value, .blockEnd] n (f.after ts)
      let (vs, f) ← readInnerItems handles n f
      some (v :: vs, f)
    | _ => some ([], f)

/-- The pairs of a block mapping. -/
def readPairs (handles : TagHandles) : Nat → Feed → Option (List (Node × Node) × Feed)
  | 0, _ => none
  | n + 1, f =>
    match f.tokens with
    | .key :: ts => do
      let (k, f) ← readOr handles true [.key, .value, .blockEnd] n (f.after ts)
      let (v, f) ←
        match f.tokens with
        | .value :: ts => readOr handles true [.key, .value, .blockEnd] n (f.after ts)
        | _ => some (absent, f)
      let (ps, f) ← readPairs handles n f
      some ((k, v) :: ps, f)
    | .blockEnd :: ts => some ([], f.after ts)
    | _ => none

/-- The items of a flow sequence; each but the first follows a comma. -/
def readFlowItems (handles : TagHandles) (first : Bool) :
    Nat → Feed → Option (List Node × Feed)
  | 0, _ => none
  | n + 1, f =>
    match f.tokens with
    | .flowSequenceEnd :: ts => some ([], f.after ts)
    | ts => do
      let ts ←
        if first then some ts
        else
          match ts with
          | .comma :: ts => some ts
          | _ => none
      match ts with
      | .flowSequenceEnd :: ts => some ([], f.after ts)
      | .key :: ts => do
        let (pair, f) ← readSinglePair handles n (f.after ts)
        let (vs, f) ← readFlowItems handles false n f
        some (.mapping none [pair] :: vs, f)
      | ts => do
        let (v, f) ← read handles false n (f.after ts)
        let (vs, f) ← readFlowItems handles false n f
        some (v :: vs, f)

/-- A pair that is an item of a flow sequence. Where its key is left out, the token that shows it
counts as the key. -/
def readSinglePair (handles : TagHandles) : Nat → Feed → Option ((Node × Node) × Feed)
  | 0, _ => none
  | n + 1, f => do
    let (k, f) ←
      if endsNode [.value, .comma, .flowSequenceEnd] f.tokens then
        some (absent, f.after f.tokens.tail)
      else read handles false n f
    match f.tokens with
    | .value :: ts => do
      let (v, f) ← readOr handles false [.comma, .flowSequenceEnd] n (f.after ts)
      some ((k, v), f)
    | _ => some ((k, absent), f)

/-- The pairs of a flow mapping; each but the first follows a comma. -/
def readFlowPairs (handles : TagHandles) (first : Bool) :
    Nat → Feed → Option (List (Node × Node) × Feed)
  | 0, _ => none
  | n + 1, f =>
    match f.tokens with
    | .flowMappingEnd :: ts => some ([], f.after ts)
    | ts => do
      let ts ←
        if first then some ts
        else
          match ts with
          | .comma :: ts => some ts
          | _ => none
      match ts with
      | .flowMappingEnd :: ts => some ([], f.after ts)
      | .key :: ts => do
        let (k, f) ← readOr handles false [.value, .comma, .flowMappingEnd] n (f.after ts)
        let (v, f) ←
          match f.tokens with
          | .value :: ts => readOr handles false [.comma, .flowMappingEnd] n (f.after ts)
          | _ => some (absent, f)
        let (ps, f) ← readFlowPairs handles false n f
        some ((k, v) :: ps, f)
      | ts => do
        let (k, f) ← read handles false n (f.after ts)
        let (ps, f) ← readFlowPairs handles false n f
        some ((k, absent) :: ps, f)

end

end Node

/-! ## Documents -/

/-- The handles that every document has, unless it gives them another meaning. -/
def standardHandles : TagHandles :=
  [(['!'], ['!']),
    (['!', '!'], "tag:yaml.org,2002:".toList)]

/-- The directives at the head of the tokens: one version at most, which has to be a known one,
and no handle twice. -/
def readDirectives (versioned : Bool) (handles : TagHandles) :
    List Token → Option (TagHandles × List Token)
  | .version major minor :: ts =>
    if !versioned ∧ major = 1 ∧ (minor = 1 ∨ minor = 2) then readDirectives true handles ts
    else none
  | .tagHandle handle stem :: ts =>
    if handles.any fun h ↦ h.1 = handle then none
    else readDirectives versioned ((handle, stem) :: handles) ts
  | ts => some (handles, ts)

/-- The root of a document, at the head of the tokens. A document without directives need not be
begun by a line of its own; one that is may be empty. -/
def readDocument (ts : List Token) : Option (Node × Feed) := do
  let steps := 2 * ts.length + 2
  match ts with
  | .version .. :: _ | .tagHandle .. :: _ | .documentStart :: _ =>
    let (handles, ts) ← readDirectives false [] ts
    match ts with
    | .documentStart :: ts =>
      match ts with
      | [] | .version .. :: _ | .tagHandle .. :: _ | .documentStart :: _ | .documentEnd :: _ =>
        some (.absent, ⟨ts, []⟩)
      | _ => Node.read (handles ++ standardHandles) false steps ⟨ts, []⟩
    | _ => none
  | _ => Node.read standardHandles false steps ⟨ts, []⟩

/-- The root of the only document of a text; a text without one counts as an absent node. -/
def parse? (text : String) : Option Node := do
  let ts ← tokens? text.toList
  if ts.isEmpty then some .absent
  else
    let (root, f) ← readDocument ts
    if (f.tokens.dropWhile (· == .documentEnd)).isEmpty then some root else none

end AffineQuant.Yaml
