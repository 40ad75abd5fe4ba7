import MintAudit.Graph.Basic

namespace MintAudit

/-!
# Reading expressions

A piece of code is a row of simple statements: expressions, assignments and the like.
-/

/-! ## Trees of expressions -/

inductive Shape where
  | name (text : String)
  | place
  | starred
  | group
  | other
  deriving DecidableEq, Repr, Inhabited

inductive Tree where
  | node (shape : Shape) (parts : List Tree)
  deriving Repr, Inhabited

namespace Tree

def shape : Tree → Shape
  | node shape _ => shape

def parts : Tree → List Tree
  | node _ parts => parts

def other (parts : List Tree) : Tree :=
  node .other parts

def leaf : Tree :=
  node .other []

mutual

def depth : Tree → Nat
  | node _ parts => 1 + depthOfParts parts

def depthOfParts : List Tree → Nat
  | [] => 0
  | tree :: rest => max (depth tree) (depthOfParts rest)

end

mutual

def isTarget (spread : Bool) : Tree → Bool
  | node (.name _) _ => true
  | node .place _ => true
  | node .starred parts => spread && areTargets spread parts
  | node .group parts => areTargets spread parts
  | node .other _ => false

def areTargets (spread : Bool) : List Tree → Bool
  | [] => true
  | tree :: rest => isTarget spread tree && areTargets spread rest

end

def isSinglePlace (tree : Tree) : Bool :=
  match tree.shape with
  | .name _ => true
  | .place => true
  | _ => false

def name? (tree : Tree) : Option String :=
  match tree.shape with
  | .name text => some text
  | _ => none

def firstNameIn : Nat → List Tree → Option String
  | 0, _ => none
  | levels + 1, trees =>
    match trees.findSome? name? with
    | some found => some found
    | none => firstNameIn levels (trees.flatMap parts)

def firstName? (tree : Tree) : Option String :=
  firstNameIn tree.depth [tree]

end Tree

/-! ## Lexemes of an expression -/

inductive Lexeme where
  | name (text : String)
  | keyword (text : String)
  | number
  | quoted (bytes : Bool) (formatted : Option (List Char))
  | sign (text : String)
  | lineEnd
  deriving DecidableEq, Repr, Inhabited

namespace Lexeme

def keywords : List String :=
  ["False", "None", "True", "and", "as", "assert", "async", "await", "break", "class", "continue", "def", "del", "elif",
    "else", "except", "finally", "for", "from", "global", "if", "import", "in", "is", "lambda", "nonlocal", "not", "or",
    "pass", "raise", "return", "try", "while", "with", "yield"]

def ofWord (text : String) : Lexeme :=
  if keywords.contains text then keyword text else name text

def followers : List String :=
  ["and", "else", "for", "if", "in", "is", "or", "not"]

def number? (characters : List Char) : Option (List Char) := do
  let (_, rest) ← Token.number characters
  match rest with
  | next :: _ =>
    if Text.isWordCharacter next && !(followers.any fun word => Text.startsWithChars rest word.toList) then
      none
    else
      some rest
  | [] => some []

def quoteMarks : List String :=
  ["rb", "br", "fr", "rf", "r", "b", "u", "f", ""]

def quoteStart? (characters : List Char) : Option (String × List Char) :=
  quoteMarks.findSome? fun marks =>
    let rest := characters.drop marks.length
    match rest with
    | first :: _ =>
      if (first == '\'' || first == '"') && (characters.take marks.length).map Char.toLower == marks.toList then
        some (marks, rest)
      else
        none
    | [] => none

def quotedUpTo (closing : List Char) : Nat → List Char → Option (List Char × List Char)
  | 0, _ => none
  | _ + 1, [] => none
  | fuel + 1, character :: rest =>
    if Text.startsWithChars (character :: rest) closing then
      some ([], (character :: rest).drop closing.length)
    else if character == '\\' then
      match rest with
      | [] => none
      | next :: rest => (quotedUpTo closing fuel rest).map fun (text, left) => (character :: next :: text, left)
    else if character == '\n' && closing.length == 1 then
      none
    else
      (quotedUpTo closing fuel rest).map fun (text, left) => (character :: text, left)

def hasHexDigits (count : Nat) (text : List Char) : Bool :=
  (text.take count).length == count && (text.take count).all Token.isHexDigit

def hasWholeCodes (bytes : Bool) : List Char → Bool
  | '\\' :: 'x' :: rest => hasHexDigits 2 rest && hasWholeCodes bytes rest
  | '\\' :: 'u' :: rest => (bytes || hasHexDigits 4 rest) && hasWholeCodes bytes rest
  | '\\' :: 'U' :: rest =>
    (bytes || (hasHexDigits 8 rest && Text.startsWithChars rest ['0', '0'] &&
      (Text.startsWithChars (rest.drop 2) ['0'] || Text.startsWithChars (rest.drop 2) ['1', '0']))) &&
      hasWholeCodes bytes rest
  | '\\' :: _ :: rest => hasWholeCodes bytes rest
  | _ :: rest => hasWholeCodes bytes rest
  | [] => true

def quoted? (characters : List Char) : Option (Lexeme × List Char) := do
  let (marks, opened) ← quoteStart? characters
  let mark := opened.headD '"'
  let closing := if Text.startsWithChars opened [mark, mark, mark] then [mark, mark, mark] else [mark]
  let (text, rest) ← quotedUpTo closing (opened.length + 1) (opened.drop closing.length)
  let bytes := marks.toList.contains 'b'
  let plain := marks.toList.contains 'r'
  if (bytes && text.any fun character => 0x80 ≤ character.toNat) || (!plain && !hasWholeCodes bytes text) then
    none
  else
    some (quoted bytes (if marks.toList.contains 'f' then some text else none), rest)

def scan (fuel : Nat) (depth : Int) (fresh : Bool) (characters : List Char) : Option (List Lexeme) :=
  match fuel with
  | 0 => none
  | fuel + 1 =>
    if fresh then
      match characters.dropWhile Token.isGap with
      | [] => some []
      | '\n' :: rest => scan fuel depth true rest
      | '#' :: rest => scan fuel depth true (rest.dropWhile (· ≠ '\n'))
      | rest => if Token.indentation 0 characters = 0 then scan fuel depth false rest else none
    else
      match characters.dropWhile Token.isGap with
      | [] => if depth = 0 then some [lineEnd] else none
      | '#' :: rest => scan fuel depth false (rest.dropWhile (· ≠ '\n'))
      | '\n' :: rest => if 0 < depth then scan fuel depth false rest else (scan fuel depth true rest).map (lineEnd :: ·)
      | '\\' :: '\n' :: rest => if rest.isEmpty then none else scan fuel depth false rest
      | rest =>
        match quoted? rest with
        | some (text, rest) => (scan fuel depth false rest).map (text :: ·)
        | none =>
          if (quoteStart? rest).isSome then
            none
          else if (Token.number rest).isSome then
            match number? rest with
            | some rest => (scan fuel depth false rest).map (number :: ·)
            | none => none
          else if rest.head?.any Text.startsName then
            let word := rest.takeWhile Text.isWordCharacter
            (scan fuel depth false (rest.drop word.length)).map (ofWord (String.ofList word) :: ·)
          else
            match Token.sign rest with
            | some (taken, rest) =>
              (scan fuel (Token.depthAfter depth taken) false rest).map (sign (String.ofList taken) :: ·)
            | none => none

def lineFeeds : List Char → List Char
  | '\r' :: '\n' :: rest => '\n' :: lineFeeds rest
  | '\r' :: rest => '\n' :: lineFeeds rest
  | character :: rest => character :: lineFeeds rest
  | [] => []

def ofCode? (code : List Char) : Option (List Lexeme) :=
  scan (2 * code.length + 2) 0 true (lineFeeds code)

end Lexeme

/-! ## Expressions in quoted texts -/

namespace Formatted

def expressionUpTo (quote : Option (List Char)) (open_ : List Char) :
    Nat → List Char → Option (List Char × List Char)
  | 0, _ => none
  | _ + 1, [] => none
  | fuel + 1, character :: rest =>
    let go (count : Nat) (quote : Option (List Char)) (open_ : List Char) : Option (List Char × List Char) :=
      (expressionUpTo quote open_ fuel ((character :: rest).drop count)).map fun (text, left) =>
        ((character :: rest).take count ++ text, left)
    if character == '\\' then
      none
    else
      match quote with
      | some mark =>
        if Text.startsWithChars (character :: rest) mark then go mark.length none open_ else go 1 quote open_
      | none =>
        if character == '\'' || character == '"' then
          if Text.startsWithChars rest [character, character] then
            go 3 (some [character, character, character]) open_
          else
            go 1 (some [character]) open_
        else if character == '(' then go 1 none (')' :: open_)
        else if character == '[' then go 1 none (']' :: open_)
        else if character == '\x7b' then go 1 none ('\x7d' :: open_)
        else if character == '#' then none
        else if open_.isEmpty && ['!', ':', '\x7d', '=', '<', '>'].contains character then
          if rest.head? == some '=' && ['!', '=', '<', '>'].contains character then go 2 none open_
          else if character == '<' || character == '>' then go 1 none open_
          else some ([], character :: rest)
        else if [')', ']', '\x7d'].contains character then
          match open_ with
          | closing :: open_ => if closing == character then go 1 none open_ else none
          | [] => none
        else go 1 none open_

def isBlank (character : Char) : Bool :=
  character == ' ' || character == '\t' || character == '\n' || character == '\x0c' || character == '\r'

def afterConversion : List Char → Option (List Char)
  | '!' :: kind :: rest => if ['s', 'r', 'a'].contains kind then some rest else none
  | ['!'] => none
  | rest => some rest

def fields (read : List Char → Option Tree) (level : Nat) : Nat → List Char → Option (List Tree × List Char)
  | 0, _ => none
  | _ + 1, [] => some ([], [])
  | fuel + 1, '\x7b' :: rest =>
    if level = 0 && rest.head? == some '\x7b' then
      fields read level fuel (rest.drop 1)
    else if 2 ≤ level then
      none
    else do
      let (text, rest) ← expressionUpTo none [] (rest.length + 1) rest
      if text.all isBlank then
        none
      let value ← read text
      let rest := match rest with
        | '=' :: rest => rest.dropWhile isBlank
        | rest => rest
      let rest ← afterConversion rest
      let (format, rest) ← match rest with
        | ':' :: rest => do
            let (parts, rest) ← fields read (level + 1) fuel rest
            pure ([Tree.other parts], rest)
        | rest => pure ([], rest)
      match rest with
      | '\x7d' :: rest => do
          let (more, rest) ← fields read level fuel rest
          pure (Tree.other (value :: format) :: more, rest)
      | _ => none
  | fuel + 1, '\x7d' :: rest =>
    if level = 0 then
      if rest.head? == some '\x7d' then fields read level fuel (rest.drop 1) else none
    else
      some ([], '\x7d' :: rest)
  | fuel + 1, _ :: rest => fields read level fuel rest

def expressions? (read : List Char → Option Tree) (text : List Char) : Option (List Tree) :=
  (fields read 0 (text.length + 1) text).map (·.1)

end Formatted

namespace Expression

abbrev Reader := List Lexeme → Option (Tree × List Lexeme)

inductive Phrase where
  | expression
  | named
  | inversion
  | factor
  | many
  deriving DecidableEq, Repr

abbrev Nested := Phrase → Reader

def after? (text : String) : List Lexeme → Option (List Lexeme)
  | .sign found :: rest => if found == text then some rest else none
  | _ => none

def afterWord? (text : String) : List Lexeme → Option (List Lexeme)
  | .keyword found :: rest => if found == text then some rest else none
  | _ => none

def startsClause (lexemes : List Lexeme) : Bool :=
  (afterWord? "for" lexemes).isSome || ((afterWord? "async" lexemes).bind (afterWord? "for")).isSome

def chain (signs : List String) (operand : Reader) : Nat → Tree → Reader
  | 0, _, _ => none
  | fuel + 1, left, lexemes =>
    match lexemes with
    | .sign found :: rest =>
      if signs.contains found then do
        let (right, rest) ← operand rest
        chain signs operand fuel (.other [left, right]) rest
      else
        some (left, lexemes)
    | _ => some (left, lexemes)

def leftToRight (signs : List String) (operand : Reader) : Reader := fun lexemes => do
  let (left, rest) ← operand lexemes
  chain signs operand (rest.length + 1) left rest

def strengths : List (List String) :=
  [["|"], ["^"], ["&"], ["<<", ">>"], ["+", "-"], ["*", "/", "//", "%", "@"]]

def arithmetic (nested : Nested) : Reader :=
  strengths.foldr leftToRight (nested .factor)

def comparands (operand : Reader) : Nat → List Lexeme → Option (List Tree × List Lexeme)
  | 0, _ => none
  | fuel + 1, lexemes =>
    let go (rest : List Lexeme) : Option (List Tree × List Lexeme) := do
      let (value, rest) ← operand rest
      let (more, rest) ← comparands operand fuel rest
      some (value :: more, rest)
    match lexemes with
    | .sign found :: rest => if ["==", "!=", "<=", "<", ">=", ">"].contains found then go rest else some ([], lexemes)
    | .keyword "in" :: rest => go rest
    | .keyword "not" :: .keyword "in" :: rest => go rest
    | .keyword "is" :: .keyword "not" :: rest => go rest
    | .keyword "is" :: rest => go rest
    | _ => some ([], lexemes)

def comparison (nested : Nested) : Reader := fun lexemes => do
  let (left, rest) ← arithmetic nested lexemes
  let (others, rest) ← comparands (arithmetic nested) (rest.length + 1) rest
  some (if others.isEmpty then left else .other (left :: others), rest)

def inversion (nested : Nested) : Reader := fun lexemes =>
  match lexemes with
  | .keyword "not" :: rest => (nested .inversion rest).map fun (value, rest) => (.other [value], rest)
  | _ => comparison nested lexemes

def operandsBehind (word : String) (operand : Reader) : Nat → List Lexeme → Option (List Tree × List Lexeme)
  | 0, _ => none
  | fuel + 1, lexemes =>
    match afterWord? word lexemes with
    | none => some ([], lexemes)
    | some rest => do
        let (value, rest) ← operand rest
        let (more, rest) ← operandsBehind word operand fuel rest
        some (value :: more, rest)

def joinedBy (word : String) (operand : Reader) : Reader := fun lexemes => do
  let (left, rest) ← operand lexemes
  let (others, rest) ← operandsBehind word operand (rest.length + 1) rest
  some (if others.isEmpty then left else .other (left :: others), rest)

def disjunction (nested : Nested) : Reader :=
  joinedBy "or" (joinedBy "and" (nested .inversion))

inductive Parameter where
  | plain (default : Option Tree)
  | slash
  | star (named : Bool)
  | doubleStar

def parameters (nested : Nested) : Nat → List Lexeme → Option (List Parameter × List Lexeme)
  | 0, _ => none
  | fuel + 1, lexemes =>
    let go (parameter : Parameter) (rest : List Lexeme) : Option (List Parameter × List Lexeme) :=
      match rest with
      | .sign "," :: rest => (parameters nested fuel rest).map fun (more, rest) => (parameter :: more, rest)
      | .sign ":" :: rest => some ([parameter], rest)
      | _ => none
    match lexemes with
    | .sign ":" :: rest => some ([], rest)
    | .sign "/" :: rest => go .slash rest
    | .sign "*" :: .name _ :: rest => go (.star true) rest
    | .sign "*" :: rest => go (.star false) rest
    | .sign "**" :: .name _ :: rest => go .doubleStar rest
    | .name _ :: .sign "=" :: rest => do
        let (value, rest) ← nested .expression rest
        go (.plain (some value)) rest
    | .name _ :: rest => go (.plain none) rest
    | _ => none

structure ParameterState where
  first : Bool := true
  slashed : Bool := false
  starred : Bool := false
  pending : Bool := false
  defaulted : Bool := false
  closed : Bool := false
  defaults : List Tree := []
  named : List Tree := []

def ParameterState.take (state : ParameterState) (parameter : Parameter) : Option ParameterState :=
  if state.closed then
    none
  else
    match parameter with
    | .slash => if state.first || state.slashed || state.starred then none else some { state with slashed := true }
    | .star isNamed =>
      if state.starred then none
      else some { state with first := false, starred := true, pending := !isNamed }
    | .doubleStar => if state.pending then none else some { state with first := false, closed := true }
    | .plain default =>
      if state.starred then
        some { state with pending := false, named := state.named ++ default.toList }
      else if state.defaulted && default.isNone then
        none
      else
        some { state with
          first := false
          defaulted := default.isSome
          defaults := state.defaults ++ default.toList }

def defaultsOf (parameters : List Parameter) : Option (List Tree) := do
  let state ← parameters.foldlM ParameterState.take {}
  if state.pending then none else some (state.named ++ state.defaults)

def expression (nested : Nested) : Reader := fun lexemes =>
  match lexemes with
  | .keyword "lambda" :: rest => do
      let (parameters, rest) ← parameters nested (rest.length + 1) rest
      let defaults ← defaultsOf parameters
      let (body, rest) ← nested .expression rest
      some (.other [.other defaults, body], rest)
  | _ => do
      let (value, rest) ← disjunction nested lexemes
      match afterWord? "if" rest with
      | none => some (value, rest)
      | some rest => do
          let (test, rest) ← disjunction nested rest
          let rest ← afterWord? "else" rest
          let (otherwise, rest) ← nested .expression rest
          some (.other [test, value, otherwise], rest)

def isNamed : List Lexeme → Bool
  | .name _ :: .sign ":=" :: _ => true
  | _ => false

def namedExpression (nested : Nested) : Reader := fun lexemes =>
  match lexemes with
  | .name text :: .sign ":=" :: rest => do
      let (value, rest) ← nested .expression rest
      some (.other [.node (.name text) [], value], rest)
  | _ => nested .expression lexemes

def spread (item : Reader) (nested : Nested) : Reader := fun lexemes =>
  match after? "*" lexemes with
  | some rest => (arithmetic nested rest).map fun (value, rest) => (.node .starred [value], rest)
  | none => item lexemes

def itemsUpTo (closing : String) (item : Reader) : Nat → List Lexeme → Option (List Tree × List Lexeme)
  | 0, _ => none
  | fuel + 1, lexemes =>
    match after? closing lexemes with
    | some rest => some ([], rest)
    | none => do
        let (value, rest) ← item lexemes
        match after? "," rest with
        | some rest =>
          let (more, rest) ← itemsUpTo closing item fuel rest
          some (value :: more, rest)
        | none => (after? closing rest).map fun rest => ([value], rest)

def endsItems : List Lexeme → Bool
  | [] => true
  | .lineEnd :: _ => true
  | .sign text :: _ => ["=", ";", ")", "]", "\x7d", ":"].contains text || text.endsWith "="
  | .keyword text :: _ => text == "in"
  | _ => false

def itemsBehind (item : Reader) : Nat → List Lexeme → Option (List Tree × List Lexeme)
  | 0, _ => none
  | fuel + 1, lexemes =>
    match after? "," lexemes with
    | none => some ([], lexemes)
    | some rest =>
      if endsItems rest then
        some ([], rest)
      else do
        let (value, rest) ← item rest
        let (more, rest) ← itemsBehind item fuel rest
        some (value :: more, rest)

def oneOrMore (item : Reader) : Reader := fun lexemes => do
  let (first, rest) ← item lexemes
  let (others, left) ← itemsBehind item (rest.length + 1) rest
  some (if (after? "," rest).isSome then .node .group (first :: others) else first, left)

def conditions (nested : Nested) : Nat → List Lexeme → Option (List Tree × List Lexeme)
  | 0, _ => none
  | fuel + 1, lexemes =>
    match afterWord? "if" lexemes with
    | none => some ([], lexemes)
    | some rest => do
        let (test, rest) ← disjunction nested rest
        let (more, rest) ← conditions nested fuel rest
        some (test :: more, rest)

def clauses (nested : Nested) : Nat → List Lexeme → Option (List Tree × List Lexeme)
  | 0, _ => none
  | fuel + 1, lexemes =>
    if !startsClause lexemes then
      some ([], lexemes)
    else do
      let rest ← afterWord? "for" ((afterWord? "async" lexemes).getD lexemes)
      let (target, rest) ← oneOrMore (spread (arithmetic nested) nested) rest
      if !target.isTarget true then
        none
      let rest ← afterWord? "in" rest
      let (values, rest) ← disjunction nested rest
      let (tests, rest) ← conditions nested (rest.length + 1) rest
      let (more, rest) ← clauses nested fuel rest
      some (.other (target :: values :: tests) :: more, rest)

def comprehension (closing : String) (values : List Tree) (nested : Nested) : Reader := fun lexemes => do
  if values.any fun value => value.shape == .starred then
    none
  let (clauses, rest) ← clauses nested (lexemes.length + 1) lexemes
  let rest ← after? closing rest
  some (.other (values ++ clauses), rest)

def listItem (nested : Nested) : Reader :=
  spread (nested .named) nested

def handedOut (nested : Nested) : Reader := fun lexemes =>
  match afterWord? "from" lexemes with
  | some rest => (nested .expression rest).map fun (value, rest) => (.other [value], rest)
  | none =>
    if endsItems lexemes then
      some (.leaf, lexemes)
    else
      (nested .many lexemes).map fun (value, rest) => (.other [value], rest)

def inParentheses (nested : Nested) : Reader := fun lexemes =>
  match lexemes with
  | .sign ")" :: rest => some (.node .group [], rest)
  | .keyword "yield" :: rest => do
      let (value, rest) ← handedOut nested rest
      let rest ← after? ")" rest
      some (value, rest)
  | _ => do
      let (first, rest) ← listItem nested lexemes
      if startsClause rest then
        comprehension ")" [first] nested rest
      else
        match after? "," rest with
        | some rest =>
          let (others, rest) ← itemsUpTo ")" (listItem nested) (rest.length + 1) rest
          some (.node .group (first :: others), rest)
        | none =>
          if first.shape == .starred then none else (after? ")" rest).map fun rest => (first, rest)

def inBrackets (nested : Nested) : Reader := fun lexemes =>
  match after? "]" lexemes with
  | some rest => some (.node .group [], rest)
  | none => do
      let (first, rest) ← listItem nested lexemes
      if startsClause rest then
        comprehension "]" [first] nested rest
      else
        match after? "," rest with
        | some rest =>
          let (others, rest) ← itemsUpTo "]" (listItem nested) (rest.length + 1) rest
          some (.node .group (first :: others), rest)
        | none => (after? "]" rest).map fun rest => (.node .group [first], rest)

def tableEntry (nested : Nested) (lexemes : List Lexeme) : Option ((Option Tree × Tree) × List Lexeme) :=
  match after? "**" lexemes with
  | some rest => (arithmetic nested rest).map fun (value, rest) => ((none, value), rest)
  | none => do
      let (key, rest) ← nested .expression lexemes
      let rest ← after? ":" rest
      let (value, rest) ← nested .expression rest
      some ((some key, value), rest)

def tableEntries (nested : Nested) : Nat → List Lexeme → Option (List (Option Tree × Tree) × List Lexeme)
  | 0, _ => none
  | fuel + 1, lexemes =>
    match after? "\x7d" lexemes with
    | some rest => some ([], rest)
    | none => do
        let (entry, rest) ← tableEntry nested lexemes
        match after? "," rest with
        | some rest =>
          let (more, rest) ← tableEntries nested fuel rest
          some (entry :: more, rest)
        | none => (after? "\x7d" rest).map fun rest => ([entry], rest)

def table (nested : Nested) : Reader := fun lexemes => do
  let (entries, rest) ← tableEntries nested (lexemes.length + 1) lexemes
  some (.other (entries.filterMap (·.1) ++ entries.map (·.2)), rest)

def inBraces (nested : Nested) : Reader := fun lexemes =>
  match lexemes with
  | .sign "\x7d" :: rest => some (.leaf, rest)
  | .sign "**" :: _ => table nested lexemes
  | _ => do
      let (first, rest) ← listItem nested lexemes
      if startsClause rest then
        comprehension "\x7d" [first] nested rest
      else
        match after? ":" rest with
        | some behind =>
          if first.shape == .starred || isNamed lexemes then
            none
          else do
            let (value, left) ← nested .expression behind
            if startsClause left then comprehension "\x7d" [first, value] nested left else table nested lexemes
        | none => do
            let (items, rest) ← itemsUpTo "\x7d" (listItem nested) (lexemes.length + 1) lexemes
            some (.other items, rest)

def formattedValue (nested : Nested) (text : List Char) : Option Tree := do
  let lexemes ← Lexeme.ofCode? ('(' :: text ++ [')'])
  match nested .many lexemes with
  | some (tree, [.lineEnd]) => some tree
  | _ => none

def quotedTexts (nested : Nested) (bytes : Bool) : List Lexeme → Option (List Tree × List Lexeme)
  | .quoted otherBytes formatted :: rest =>
    if otherBytes ≠ bytes then
      none
    else do
      let values ← match formatted with
        | some text => Formatted.expressions? (formattedValue nested) text
        | none => some []
      let (more, rest) ← quotedTexts nested bytes rest
      some (values ++ more, rest)
  | rest => some ([], rest)

def atom (nested : Nested) : Reader := fun lexemes =>
  match lexemes with
  | .name text :: rest => some (.node (.name text) [], rest)
  | .keyword "True" :: rest => some (.leaf, rest)
  | .keyword "False" :: rest => some (.leaf, rest)
  | .keyword "None" :: rest => some (.leaf, rest)
  | .number :: rest => some (.leaf, rest)
  | .quoted bytes _ :: _ => (quotedTexts nested bytes lexemes).map fun (values, rest) => (.other values, rest)
  | .sign "..." :: rest => some (.leaf, rest)
  | .sign "(" :: rest => inParentheses nested rest
  | .sign "[" :: rest => inBrackets nested rest
  | .sign "\x7b" :: rest => inBraces nested rest
  | _ => none

inductive ArgumentStage where
  | positional
  | named
  | unpacked
  deriving DecidableEq

def arguments (nested : Nested) (stage : ArgumentStage) (first : Bool) :
    Nat → List Lexeme → Option ((List Tree × List Tree) × List Lexeme)
  | 0, _ => none
  | fuel + 1, lexemes =>
    let go (stage : ArgumentStage) (positional named : List Tree) (rest : List Lexeme) :
        Option ((List Tree × List Tree) × List Lexeme) :=
      match after? "," rest with
      | some rest => do
          let ((others, more), rest) ← arguments nested stage false fuel rest
          some ((positional ++ others, named ++ more), rest)
      | none => (after? ")" rest).map fun rest => ((positional, named), rest)
    match lexemes with
    | .sign ")" :: rest => some (([], []), rest)
    | .sign "*" :: rest =>
      if stage = .unpacked then none
      else do
        let (value, rest) ← nested .expression rest
        go stage [.node .starred [value]] [] rest
    | .sign "**" :: rest => do
        let (value, rest) ← nested .expression rest
        go .unpacked [] [.other [value]] rest
    | .name _ :: .sign "=" :: rest => do
        let (value, rest) ← nested .expression rest
        go (if stage = .unpacked then .unpacked else .named) [] [.other [value]] rest
    | _ =>
      if stage ≠ .positional then none
      else do
        let (value, rest) ← nested .named lexemes
        if startsClause rest then
          if first then
            (comprehension ")" [value] nested rest).map fun (tree, rest) => (([tree], []), rest)
          else
            none
        else
          go stage [value] [] rest

def bound (nested : Nested) (lexemes : List Lexeme) : Option (List Tree × List Lexeme) :=
  match lexemes with
  | .sign ":" :: _ => some ([], lexemes)
  | .sign "]" :: _ => some ([], lexemes)
  | .sign "," :: _ => some ([], lexemes)
  | _ => (nested .expression lexemes).map fun (value, rest) => ([value], rest)

def index (nested : Nested) : Reader := fun lexemes => do
  if isNamed lexemes then
    nested .named lexemes
  else
    let (first, rest) ← bound nested lexemes
    match after? ":" rest, first with
    | none, [value] => some (value, rest)
    | none, _ => none
    | some rest, _ => do
        let (second, rest) ← bound nested rest
        match after? ":" rest with
        | none => some (.other (first ++ second), rest)
        | some rest => do
            let (third, rest) ← bound nested rest
            some (.other (first ++ second ++ third), rest)

def indices (nested : Nested) : Reader := fun lexemes => do
  let item : Reader := fun lexemes =>
    match after? "*" lexemes with
    | some rest => (arithmetic nested rest).map fun (value, rest) => (.node .starred [value], rest)
    | none => index nested lexemes
  let (first, rest) ← item lexemes
  match after? "," rest with
  | some rest =>
    let (others, rest) ← itemsUpTo "]" item (rest.length + 1) rest
    some (.node .group (first :: others), rest)
  | none => do
      let rest ← after? "]" rest
      some (if first.shape == .starred then .node .group [first] else first, rest)

def trailers (nested : Nested) : Nat → Tree → Reader
  | 0, _, _ => none
  | fuel + 1, value, lexemes =>
    match lexemes with
    | .sign "." :: .name _ :: rest => trailers nested fuel (.node .place [value]) rest
    | .sign "." :: _ => none
    | .sign "(" :: rest => do
        let ((positional, named), rest) ← arguments nested .positional true (rest.length + 1) rest
        trailers nested fuel (.other (value :: positional ++ named)) rest
    | .sign "[" :: rest => do
        let (index, rest) ← indices nested rest
        trailers nested fuel (.node .place [value, index]) rest
    | _ => some (value, lexemes)

def primary (nested : Nested) : Reader := fun lexemes => do
  let (value, rest) ← atom nested lexemes
  trailers nested (rest.length + 1) value rest

def factor (nested : Nested) : Reader := fun lexemes =>
  match lexemes with
  | .sign "+" :: rest => (nested .factor rest).map fun (value, rest) => (.other [value], rest)
  | .sign "-" :: rest => (nested .factor rest).map fun (value, rest) => (.other [value], rest)
  | .sign "~" :: rest => (nested .factor rest).map fun (value, rest) => (.other [value], rest)
  | _ => do
      let (base, rest) ← match afterWord? "await" lexemes with
        | some rest => (primary nested rest).map fun (value, rest) => (Tree.other [value], rest)
        | none => primary nested lexemes
      match after? "**" rest with
      | some rest => (nested .factor rest).map fun (power, rest) => (.other [base, power], rest)
      | none => some (base, rest)

def read : Nat → Nested
  | 0, _, _ => none
  | fuel + 1, .expression, lexemes => expression (read fuel) lexemes
  | fuel + 1, .named, lexemes => namedExpression (read fuel) lexemes
  | fuel + 1, .inversion, lexemes => inversion (read fuel) lexemes
  | fuel + 1, .factor, lexemes => factor (read fuel) lexemes
  | fuel + 1, .many, lexemes => oneOrMore (spread (read fuel .expression) (read fuel)) lexemes

def valueOf (nested : Nested) : Reader := fun lexemes =>
  match afterWord? "yield" lexemes with
  | some rest => handedOut nested rest
  | none => nested .many lexemes

def updates : List String :=
  ["+=", "-=", "*=", "/=", "//=", "%=", "@=", "&=", "|=", "^=", ">>=", "<<=", "**="]

def assigned (nested : Nested) : Nat → List Tree → Reader
  | 0, _, _ => none
  | fuel + 1, targets, lexemes =>
    match after? "=" lexemes with
    | none => some (.other targets, lexemes)
    | some rest =>
      if targets.getLast?.all (Tree.isTarget true) then do
        let (value, rest) ← valueOf nested rest
        assigned nested fuel (targets ++ [value]) rest
      else
        none

def expressionStatement (nested : Nested) : Reader := fun lexemes => do
  let (first, rest) ← valueOf nested lexemes
  match rest with
  | .sign "=" :: _ => assigned nested (rest.length + 1) [first] rest
  | .sign ":" :: rest =>
    if !first.isSinglePlace then
      none
    else do
      let (type, rest) ← nested .expression rest
      match after? "=" rest with
      | none => some (.other [first, type], rest)
      | some rest => do
          let (value, rest) ← valueOf nested rest
          some (.other [first, type, value], rest)
  | .sign found :: behind =>
    if !updates.contains found then
      some (.other [first], rest)
    else if !first.isSinglePlace then
      none
    else do
      let (value, rest) ← valueOf nested behind
      some (.other [first, value], rest)
  | _ => some (.other [first], rest)

def nameList : Nat → List Lexeme → Option (List Lexeme)
  | 0, _ => none
  | fuel + 1, .name _ :: rest =>
    match after? "," rest with
    | some rest => nameList fuel rest
    | none => some rest
  | _ + 1, _ => none

def dottedName : List Lexeme → Option (List Lexeme)
  | .name _ :: .sign "." :: rest => dottedName rest
  | .name _ :: rest => some rest
  | _ => none

def afterAlias : List Lexeme → Option (List Lexeme)
  | .keyword "as" :: .name _ :: rest => some rest
  | .keyword "as" :: _ => none
  | rest => some rest

def modules : Nat → List Lexeme → Option (List Lexeme)
  | 0, _ => none
  | fuel + 1, lexemes => do
      let rest ← afterAlias (← dottedName lexemes)
      match after? "," rest with
      | some rest => modules fuel rest
      | none => some rest

def importedNames (bracketed : Bool) : Nat → List Lexeme → Option (List Lexeme)
  | 0, _ => none
  | fuel + 1, .name _ :: rest => do
      let rest ← afterAlias rest
      match after? "," rest with
      | some rest =>
        if bracketed && (after? ")" rest).isSome then after? ")" rest else importedNames bracketed fuel rest
      | none => if bracketed then after? ")" rest else some rest
  | _ + 1, _ => none

def imported : List Lexeme → Option (List Lexeme)
  | .sign "*" :: rest => some rest
  | .sign "(" :: rest => importedNames true (rest.length + 1) rest
  | lexemes => importedNames false (lexemes.length + 1) lexemes

def isPoints : Lexeme → Bool
  | .sign text => text == "." || text == "..."
  | _ => false

def importedFrom (lexemes : List Lexeme) : Option (List Lexeme) := do
  let rest := lexemes.dropWhile isPoints
  let rest ← if rest.length < lexemes.length && (afterWord? "import" rest).isSome then some rest else dottedName rest
  imported (← afterWord? "import" rest)

def withoutParts (rest : Option (List Lexeme)) : Option (Tree × List Lexeme) :=
  rest.map fun rest => (.leaf, rest)

def statement (nested : Nested) : Reader := fun lexemes =>
  match lexemes with
  | .keyword "pass" :: rest => some (.leaf, rest)
  | .keyword "break" :: rest => some (.leaf, rest)
  | .keyword "continue" :: rest => some (.leaf, rest)
  | .keyword "return" :: rest =>
    if endsItems rest then some (.leaf, rest)
    else (nested .many rest).map fun (value, rest) => (.other [value], rest)
  | .keyword "raise" :: rest =>
    if endsItems rest then
      some (.leaf, rest)
    else do
      let (value, rest) ← nested .expression rest
      match afterWord? "from" rest with
      | none => some (.other [value], rest)
      | some rest => (nested .expression rest).map fun (cause, rest) => (.other [value, cause], rest)
  | .keyword "assert" :: rest => do
      let (test, rest) ← nested .expression rest
      match after? "," rest with
      | none => some (.other [test], rest)
      | some rest => (nested .expression rest).map fun (message, rest) => (.other [test, message], rest)
  | .keyword "del" :: rest => do
      let (first, rest) ← oneOrMore (arithmetic nested) rest
      if first.isTarget false then
        some (.other [first], rest)
      else
        none
  | .keyword "global" :: rest => withoutParts (nameList (rest.length + 1) rest)
  | .keyword "nonlocal" :: rest => withoutParts (nameList (rest.length + 1) rest)
  | .keyword "import" :: rest => withoutParts (modules (rest.length + 1) rest)
  | .keyword "from" :: rest => withoutParts (importedFrom rest)
  | _ => expressionStatement nested lexemes

def statements (nested : Nested) : Nat → List Lexeme → Option (List Tree)
  | 0, _ => none
  | _ + 1, [] => some []
  | fuel + 1, lexemes => do
      let (first, rest) ← statement nested lexemes
      match rest with
      | .sign ";" :: .lineEnd :: rest => (first :: ·) <$> statements nested fuel rest
      | .sign ";" :: .sign ";" :: _ => none
      | .sign ";" :: rest => (first :: ·) <$> statements nested fuel rest
      | .lineEnd :: rest => (first :: ·) <$> statements nested fuel rest
      | _ => none

def tree? (code : String) : Option Tree := do
  if code.contains (Char.ofNat 0) then
    none
  let lexemes ← Lexeme.ofCode? code.toList
  let trees ← statements (read (8 * (code.length + 8))) (lexemes.length + 1) lexemes
  some (.other trees)

def firstName? (code : String) : Option String := do
  (← tree? code).firstName?

end Expression

end MintAudit
