import YamlEdit.Token.Block
import YamlEdit.Token.Name
import YamlEdit.Token.Quoted

/-!
# Token feeds

Cuts a text into tokens from left to right. Indentation becomes tokens for where blocks begin and
end. Whether a token starts a key shows only at the colon after it, so tokens that may start a key
wait in a queue: a key starts on the line of its colon, at most 1024 characters before it.

A feed is what a reader of tokens can get: the tokens in order, and the fault that comes instead of
the next one if the text goes wrong. A token is not in the feed while a fault comes before it is
known whether it starts a key.
-/

namespace YamlEdit

/-- A fault with its places. -/
abbrev ScanError := Located ScanFault

/-- The items that can be had one after another, and the fault behind them, if there is one. -/
structure Feed (α ε : Type) where
  items : List α
  fault : Option ε

/-- The tokens of a text. -/
abbrev TokenFeed := Feed Token ScanError

namespace Scan

/-- A token that may turn out to start a key. -/
structure Candidate where
  /-- The nesting of brackets and braces at the token. -/
  level : Nat
  /-- The place of the token among all tokens. -/
  number : Nat
  /-- The token stands where its block can only go on with a key. -/
  required : Bool
  mark : Mark
deriving Repr

/-- The state of cutting. -/
structure Scanner where
  source : Text
  cursor : Cursor
  /-- The nesting of brackets and braces. -/
  level : Nat := 0
  /-- The column of the innermost block, and those of the blocks around it. -/
  indent : Int := -1
  outer : List Int := []
  /-- A key may start here. -/
  keyAllowed : Bool := true
  candidates : List Candidate := []
  /-- The tokens that wait, and how many were taken before them. -/
  queue : List Token := []
  taken : Nat := 0
  ended : Bool := false

/-- A step of cutting. -/
abbrev Step := Except ScanError Scanner

namespace Scanner

/-- A fault at a mark, without a construct that began earlier. -/
def faultHere (s : Scanner) (cause : ScanFault) : ScanError :=
  ⟨cause, s.source, none, some s.cursor.mark⟩

/-- The fault of a construct that begins at the cursor. -/
def faultAt (s : Scanner) (f : Failure) : ScanError :=
  ⟨f.1, s.source, some s.cursor.mark, some (s.cursor.reach f.2).mark⟩

/-- The fault of a candidate that should have become a key. -/
def keyFault (s : Scanner) (k : Candidate) : ScanError :=
  ⟨.keyWithoutValue, s.source, some k.mark, some s.cursor.mark⟩

/-- Adds a token to the queue. -/
def push (s : Scanner) (kind : Token.Kind) (start stop : Mark) : Scanner :=
  { s with queue := s.queue ++ [⟨kind, start, stop⟩] }

/-- Adds a token without characters. -/
def pushHere (s : Scanner) (kind : Token.Kind) : Scanner :=
  s.push kind s.cursor.mark s.cursor.mark

/-- Adds the token up to `rest` and goes there. -/
def takeTo (s : Scanner) (kind : Token.Kind) (rest : Text) : Scanner :=
  let cursor := s.cursor.reach rest
  { s.push kind s.cursor.mark cursor.mark with cursor }

/-- Adds the token of the next `n` characters and goes behind it. -/
def takeChars (s : Scanner) (kind : Token.Kind) (n : Nat) : Scanner :=
  s.takeTo kind (s.cursor.rest.drop n)

/-- Puts a token before the candidate's own. -/
def insertBefore (s : Scanner) (k : Candidate) (kind : Token.Kind) : Scanner :=
  { s with queue := s.queue.insertIdx (k.number - s.taken) ⟨kind, k.mark, k.mark⟩ }

/-- The candidate at the present nesting. -/
def candidate? (s : Scanner) : Option Candidate :=
  s.candidates.find? fun k => k.level == s.level

/-- Forgets the candidate at the present nesting. -/
def forget (s : Scanner) : Scanner :=
  { s with candidates := s.candidates.filter fun k => k.level != s.level }

/-- Forgets the candidate at the present nesting, which must not be a required one. -/
def dropCandidate (s : Scanner) : Step :=
  match s.candidate? with
  | some k => if k.required then .error (s.keyFault k) else .ok s.forget
  | none => .ok s

/-- Whether a candidate is too far back for its colon to come. -/
def isStale (s : Scanner) (k : Candidate) : Bool :=
  k.mark.line != s.cursor.mark.line || 1024 < s.cursor.mark.index - k.mark.index

/-- Forgets the candidates that are too far back; none of them may be required. -/
def dropStale (s : Scanner) : Step :=
  match s.candidates.find? fun k => s.isStale k && k.required with
  | some k => .error (s.keyFault k)
  | none => .ok { s with candidates := s.candidates.filter fun k => !s.isStale k }

/-- Makes the next token a candidate, where a key may start. -/
def addCandidate (s : Scanner) : Step :=
  if s.keyAllowed then do
    let required := s.level == 0 && s.indent == s.cursor.mark.column
    let s ← s.dropCandidate
    let k : Candidate := ⟨s.level, s.taken + s.queue.length, required, s.cursor.mark⟩
    return { s with candidates := s.candidates ++ [k] }
  else .ok s

/-- Ends blocks until one is left that `column` belongs to; `outer` are the columns of those around
the innermost one. -/
def endBlocks (s : Scanner) (column : Int) : (outer : List Int) → Scanner
  | [] => s
  | around :: outer =>
    if column < s.indent then
      endBlocks { s.pushHere .blockEnd with indent := around, outer := outer } column outer
    else s

/-- Ends the blocks that are indented past a column, outside of brackets. -/
def unwind (s : Scanner) (column : Int) : Scanner :=
  if s.level == 0 then s.endBlocks column s.outer else s

/-- Whether a block at a column is a new one. -/
def opensBlock (s : Scanner) (column : Nat) : Bool :=
  s.level == 0 && s.indent < column

/-- Enters a block at a column. -/
def enter (s : Scanner) (column : Nat) : Scanner :=
  { s with outer := s.indent :: s.outer, indent := column }

/-- Starts a block here, if it is a new one. -/
def startBlock (s : Scanner) (kind : Token.Kind) : Scanner :=
  if s.opensBlock s.cursor.mark.column then (s.enter s.cursor.mark.column).pushHere kind else s

/-- Goes to the next token, over spaces, comments and line breaks; a line break outside of brackets
makes room for a key. Every step takes a line. -/
def toNextToken : (steps : Nat) → Scanner → Scanner
  | 0, s => s
  | steps + 1, s =>
    let rest := skipComment s.cursor.rest
    match afterBreak? rest with
    | none => { s with cursor := s.cursor.reach rest }
    | some next =>
      toNextToken steps
        { s with cursor := s.cursor.reach next, keyAllowed := s.keyAllowed || s.level == 0 }

/-- Goes over the byte order mark at the start of the text. -/
def skipMark (s : Scanner) : Scanner :=
  match s.cursor.rest with
  | c :: r =>
    if s.cursor.mark.index == 0 && c == '\uFEFF' then { s with cursor := s.cursor.reach r } else s
  | [] => s

/-! ## The tokens -/

/-- The end of the text. -/
def fetchEnd (s : Scanner) : Step := do
  let s ← (s.unwind (-1)).dropCandidate
  let s := { s with keyAllowed := false, candidates := [] }
  return { s.pushHere .streamEnd with ended := true }

/-- A directive line. -/
def fetchDirective (s : Scanner) : Step := do
  let s ← (s.unwind (-1)).dropCandidate
  match directive (s.cursor.rest.drop 1) with
  | .error f => throw (s.faultAt f)
  | .ok line =>
    let s := s.takeTo (.directive line.directive) line.stop
    return { s with keyAllowed := false, cursor := s.cursor.reach line.rest }

/-- A mark between documents. -/
def fetchSeparator (s : Scanner) (kind : Token.Kind) : Step := do
  let s ← (s.unwind (-1)).dropCandidate
  return { s with keyAllowed := false }.takeChars kind 3

/-- An opening bracket or brace. -/
def fetchOpening (s : Scanner) (kind : Token.Kind) : Step := do
  let s ← s.addCandidate
  return { s with level := s.level + 1, keyAllowed := true }.takeChars kind 1

/-- A closing bracket or brace. -/
def fetchClosing (s : Scanner) (kind : Token.Kind) : Step := do
  let s ← s.dropCandidate
  return { s with level := s.level - 1, keyAllowed := false }.takeChars kind 1

/-- A comma. -/
def fetchFlowEntry (s : Scanner) : Step := do
  let s ← { s with keyAllowed := true }.dropCandidate
  return s.takeChars .flowEntry 1

/-- A dash. Inside of brackets it is refused later. -/
def fetchBlockEntry (s : Scanner) : Step := do
  if s.level == 0 && !s.keyAllowed then throw (s.faultHere .entryNotAllowed)
  let s ← { s.startBlock .blockSequenceStart with keyAllowed := true }.dropCandidate
  return s.takeChars .blockEntry 1

/-- A question mark. -/
def fetchKey (s : Scanner) : Step := do
  if s.level == 0 && !s.keyAllowed then throw (s.faultHere .keyNotAllowed)
  let s ← { s.startBlock .blockMappingStart with keyAllowed := s.level == 0 }.dropCandidate
  return s.takeChars .key 1

/-- A colon: it makes the candidate a key, or stands alone. -/
def fetchValue (s : Scanner) : Step := do
  match s.candidate? with
  | some k =>
    let s := s.forget.insertBefore k .key
    let s :=
      if s.opensBlock k.mark.column then (s.enter k.mark.column).insertBefore k .blockMappingStart
      else s
    return { s with keyAllowed := false }.takeChars .value 1
  | none =>
    if s.level == 0 && !s.keyAllowed then throw (s.faultHere .valueNotAllowed)
    let s ← { s.startBlock .blockMappingStart with keyAllowed := s.level == 0 }.dropCandidate
    return s.takeChars .value 1

/-- An anchor or an alias. -/
def fetchName (s : Scanner) (of : ScanFault.Owner) (kind : Text → Token.Kind) : Step := do
  let s ← s.addCandidate
  match anchorName of (s.cursor.rest.drop 1) with
  | .error f => throw (s.faultAt f)
  | .ok (name, rest) => return { s with keyAllowed := false }.takeTo (kind name) rest

/-- A tag. -/
def fetchTag (s : Scanner) : Step := do
  let s ← s.addCandidate
  match tag (s.cursor.rest.drop 1) with
  | .error f => throw (s.faultAt f)
  | .ok ((handle, name), rest) =>
    return { s with keyAllowed := false }.takeTo (.tag handle name) rest

/-- A literal or folded scalar. A key may follow it. -/
def fetchBlock (s : Scanner) (folds : Bool) : Step := do
  let s ← { s with keyAllowed := true }.dropCandidate
  match Block.read folds (s.indent + 1).toNat (s.cursor.rest.drop 1) with
  | .error f => throw (s.faultAt f)
  | .ok r =>
    let s := s.takeTo (.scalar r.text (if folds then .folded else .literal)) r.stop
    return { s with cursor := s.cursor.reach r.rest }

/-- A quoted scalar. -/
def fetchQuoted (s : Scanner) (double : Bool) : Step := do
  let s ← s.addCandidate
  match Quoted.read double (s.cursor.rest.drop 1) with
  | .error f => throw (s.faultAt f)
  | .ok (text, rest) =>
    let quoting := if double then .double else .single
    return { s with keyAllowed := false }.takeTo (.scalar text quoting) rest

/-- A plain scalar. A key may follow it if it ends on a later line. -/
def fetchPlain (s : Scanner) : Step := do
  let s ← s.addCandidate
  let r := Plain.read (s.level != 0) (s.indent + 1).toNat s.cursor.rest
  let s := s.takeTo (.scalar r.text .plain) r.stop
  return { s with cursor := s.cursor.reach r.rest, keyAllowed := r.brokeLine }

/-- Whether a plain scalar can start here. -/
def startsPlain (flow : Bool) (c : Char) (rest : Text) : Bool :=
  !(atSpace [c] || "-?:,[]\x7b\x7d#&*!|>'\"%@\x60".toList.contains c) ||
    (!atSpace rest && (c == '-' || (!flow && (c == '?' || c == ':'))))

/-- Reads the token at the cursor. -/
def fetchAt (s : Scanner) (c : Char) (r : Text) : Step :=
  let flow := s.level != 0
  let atMargin := s.cursor.mark.column == 0 && atSeparator (c :: r)
  let apart := flow || atSpace r
  if c == '%' && s.cursor.mark.column == 0 then s.fetchDirective
  else if c == '-' && atMargin then s.fetchSeparator .documentStart
  else if c == '.' && atMargin then s.fetchSeparator .documentEnd
  else if c == '[' then s.fetchOpening .flowSequenceStart
  else if c == '\x7b' then s.fetchOpening .flowMappingStart
  else if c == ']' then s.fetchClosing .flowSequenceEnd
  else if c == '\x7d' then s.fetchClosing .flowMappingEnd
  else if c == ',' then s.fetchFlowEntry
  else if c == '-' && atSpace r then s.fetchBlockEntry
  else if c == '?' && apart then s.fetchKey
  else if c == ':' && apart then s.fetchValue
  else if c == '*' then s.fetchName .aliasName .aliasOf
  else if c == '&' then s.fetchName .anchorName .anchor
  else if c == '!' then s.fetchTag
  else if c == '|' && !flow then s.fetchBlock false
  else if c == '>' && !flow then s.fetchBlock true
  else if c == '\'' then s.fetchQuoted false
  else if c == '"' then s.fetchQuoted true
  else if startsPlain flow c r then s.fetchPlain
  else .error (s.faultHere (.noToken (some c)))

/-- Reads the next token, with the ends of blocks before it. -/
def fetch (s : Scanner) : Step := do
  let s ← (toNextToken (s.cursor.rest.length + 1) s.skipMark).dropStale
  let s := s.unwind s.cursor.mark.column
  match s.cursor.rest with
  | [] => s.fetchEnd
  | c :: r => s.fetchAt c r

/-- Whether the first token that waits may still turn out to start a key. -/
def headMayBeKey (s : Scanner) : Bool :=
  s.candidates.any fun k => k.number == s.taken

/-- Takes tokens off the queue as long as it is known that they start no key. -/
def release (s : Scanner) : List Token → Scanner × List Token
  | [] => ({ s with queue := [] }, [])
  | t :: queue =>
    if s.headMayBeKey then ({ s with queue := t :: queue }, [])
    else
      let (s, released) := release { s with taken := s.taken + 1 } queue
      (s, t :: released)

/-- The tokens from a state on, in at most `steps` more fetches. Before a waiting token is taken the
candidates are checked, so that a missing colon is found at the token before which it is missed. -/
def feed : (steps : Nat) → Scanner → TokenFeed
  | 0, s => ⟨s.queue, none⟩
  | steps + 1, s =>
    if s.ended then ⟨s.queue, none⟩
    else
      let checked := if s.queue.isEmpty then .ok s else s.dropStale
      match checked with
      | .error e => ⟨[], some e⟩
      | .ok s =>
        let (s, released) := s.release s.queue
        match s.fetch with
        | .error e => ⟨released, some e⟩
        | .ok s =>
          let more := feed steps s
          ⟨released ++ more.items, more.fault⟩

end Scanner

end Scan

namespace TokenFeed

/-- The tokens of a text. Every fetch takes a character or ends, so their number is bounded by the
length of the text. -/
def ofText (s : Text) : TokenFeed :=
  let scanner : Scan.Scanner := { source := s, cursor := .start s }
  (scanner.pushHere .streamStart).feed (s.length + 3)

end TokenFeed

end YamlEdit
